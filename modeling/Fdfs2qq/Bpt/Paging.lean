import Fdfs2qq.Bpt.LeafChain

/-! `search_range` page by page. Where a page ends inside a leaf or at the end of
the range it says correctly how to go on. Where it ends with a leaf it says that
nothing is left. -/
namespace Fdfs2qq.Bpt
open Lib

theorem Fenced.sorted_contents (fenced : Fenced leaves bounds) :
    SortedBy Record.key (contents leaves) := by
  refine List.pairwise_flatMap.mpr ⟨fenced.sorted, ?_⟩
  have whole : (leaves.zip bounds).map Prod.fst = leaves := List.map_fst_zip fenced.len.ge
  rw [← whole]
  refine List.pairwise_map.mpr (fenced.apart.imp fun before r mem s mem' => ?_)
  exact (before.1 r mem).trans_le (before.2 s mem')

def window (left right : Key) (records : List Record) : List Record :=
  records.filter fun r => left ≤ r.key ∧ r.key ≤ right

section Window

variable {left right : Key} {records P S : List Record}

@[simp] theorem window_append : window left right (P ++ S) = window left right P ++ window left right S :=
  List.filter_append ..

theorem window_all (inside : ∀ r ∈ records, left ≤ r.key ∧ r.key ≤ right) :
    window left right records = records := List.filter_eq_self.mpr (by simpa using inside)

theorem window_none (outside : ∀ r ∈ records, r.key < left ∨ right < r.key) :
    window left right records = [] := by
  apply List.filter_eq_nil_iff.mpr
  intro r mem
  have := outside r mem
  simp only [decide_eq_true_eq, not_and_or, not_le]
  exact this

theorem lower_split (sorted : SortedBy Record.key records) (left : Key) :
    ∃ P S, records = P ++ S ∧ (∀ r ∈ P, r.key < left) ∧ ∀ r ∈ S, left ≤ r.key := by
  rcases sorted.cases left with ⟨P, r, S, rfl, rfl, gap⟩ | ⟨P, S, rfl, gap⟩
  · refine ⟨P, r :: S, rfl, gap.above, fun s mem => ?_⟩
    rcases List.mem_cons.mp mem with rfl | mem
    · exact le_rfl
    · exact (gap.below s mem).le
  · exact ⟨P, S, rfl, gap.above, fun s mem => (gap.below s mem).le⟩

theorem upper_split (sorted : SortedBy Record.key records) (right : Key) :
    ∃ P S, records = P ++ S ∧ (∀ r ∈ P, r.key ≤ right) ∧ ∀ r ∈ S, right < r.key := by
  rcases sorted.cases right with ⟨P, r, S, rfl, rfl, gap⟩ | ⟨P, S, rfl, gap⟩
  · refine ⟨P ++ [r], S, by simp, fun s mem => ?_, gap.below⟩
    rcases List.mem_append.mp mem with mem | mem
    · exact (gap.above s mem).le
    · exact (List.mem_singleton.mp mem) ▸ le_rfl
  · exact ⟨P, S, rfl, fun s mem => (gap.above s mem).le, gap.below⟩

/-- From the first record of a leaf in the range on. -/
theorem drop_lowerBound (sorted : SortedBy Record.key records) (below : ∀ r ∈ records, r.key ≤ right) :
    records.drop (lowerBound (records.map Record.key) left) = window left right records := by
  obtain ⟨P, S, rfl, less, more⟩ := lower_split sorted left
  rw [lowerBound_split less fun r mem => more r (List.mem_of_mem_head? mem), List.drop_left,
    window_append, window_none fun r mem => .inl (less r mem),
    window_all fun r mem => ⟨more r mem, below r (by simp [mem])⟩, List.nil_append]

theorem between_window {leaf : Node Record} (sorted : SortedBy Record.key leaf.children)
    (ordered : left ≤ right) :
    BPlusTree.between leaf (findRecord leaf left)
        (upperBound (leaf.children.map Record.key) right) = .ok (window left right leaf.children) := by
  obtain ⟨h, records⟩ := leaf
  obtain ⟨P', S', rfl, atMost, beyond⟩ := upper_split sorted right
  obtain ⟨P, Q, rfl, less, more⟩ := lower_split (SortedBy.append_iff.mp sorted).1 left
  have tail : ∀ r ∈ Q ++ S', left ≤ r.key := by
    intro r mem
    rcases List.mem_append.mp mem with mem | mem
    · exact more r mem
    · exact ordered.trans (beyond r mem).le
  have found : findRecord ⟨h, (P ++ Q) ++ S'⟩ left = P.length :=
    findRecord_gap (List.append_assoc P Q S') less fun r mem => tail r (List.mem_of_mem_head? mem)
  have bound : upperBound (((P ++ Q) ++ S').map Record.key) right = (P ++ Q).length :=
    upperBound_split atMost fun r mem => beyond r (List.mem_of_mem_head? mem)
  have inside : P.length ≤ (P ++ Q).length := by simp
  simp only [BPlusTree.between, found, bound, inside, if_true, List.take_left, List.drop_left, window_append,
    window_none fun r mem => .inl (less r mem), window_none fun r mem => .inr (beyond r mem),
    window_all fun r mem => ⟨more r mem, atMost r (by simp [mem])⟩, List.nil_append, List.append_nil]

end Window

namespace BPlusTree

theorem copyValues_eq (max : Nat) (records : List Record) (values : List Value) :
    copyValues max records values = (values ++ (records.take (max - values.length)).map Record.value,
      records.drop (max - values.length)) := by
  induction records generalizing values with
  | nil => simp [copyValues]
  | cons r rest ih =>
    rw [copyValues]
    split
    next room =>
      obtain ⟨n, more⟩ : ∃ n, max - values.length = n + 1 := ⟨max - values.length - 1, by omega⟩
      have fewer : max - (values ++ [r.value]).length = n := by
        rw [List.length_append, List.length_singleton]
        omega
      rw [ih, fewer, more]
      simp
    next full =>
      have zero : max - values.length = 0 := by omega
      simp [zero]

/-- Leaves from `W` on are copied up to the leaf `y`, or until the page is full
somewhere in the leaf `c`. -/
theorem rangeWalk_row {t : BPlusTree} {W Z : List (Cell Record)} {y : Cell Record}
    {start offLeft : Offset} {left : Key} {piece : Cell Record → List Record} {max fuel : Nat}
    {values : List Value} {pending : Option (List Record)}
    (linked : Linked Cell.off (Cell.Holds t.file) 0 start (W ++ y :: Z)) (positive : 0 ∉ offsets W)
    (apart : y.off ∉ offsets W)
    (pieces : ∀ c ∈ W, c.items.drop
      (if offLeft = c.off then lowerBound (c.items.map Record.key) left else 0) = piece c)
    (room : values.length < max) (enough : W.length ≤ fuel) :
    ∃ values' pending', t.rangeWalk left offLeft y.off max fuel (firstOff (W ++ y :: Z)) values pending =
        .ok (values', pending') ∧
      ((values' = values ++ (W.flatMap piece).map Record.value ∧ values'.length < max) ∨
        ∃ W₁ c W₂ p q, W = W₁ ++ c :: W₂ ∧ piece c = p ++ q ∧ p ≠ [] ∧
          values' = values ++ (W₁.flatMap piece ++ p).map Record.value ∧ values'.length = max ∧
            pending' = some q) := by
  induction W generalizing start values fuel pending with
  | nil =>
    refine ⟨values, pending, ?_, .inl ⟨by simp, room⟩⟩
    unfold rangeWalk
    simp [firstAddr]
  | cons c W ih =>
    obtain ⟨fuel, rfl⟩ : ∃ n, fuel = n + 1 := ⟨fuel - 1, by simp at enough; omega⟩
    rw [offsets_cons, List.mem_cons, not_or] at positive apart
    obtain ⟨held, linked⟩ := linked
    have here : c.off ≠ y.off ∧ c.off ≠ 0 ∧ values.length < max := ⟨Ne.symm apart.1, Ne.symm positive.1, room⟩
    have copied := copyValues_eq max (piece c) values
    have step : t.rangeWalk left offLeft y.off max (fuel + 1) (firstOff (c :: W ++ y :: Z)) values pending =
        t.rangeWalk left offLeft y.off max fuel (firstOff (W ++ y :: Z))
          (copyValues max (piece c) values).1 (some (copyValues max (piece c) values).2) := by
      rw [← pieces c (by simp)]
      conv_lhs => unfold rangeWalk
      simp only [List.cons_append, firstAddr, here, ne_eq, not_false_eq_true, and_self, if_true,
        held.map, bind, Except.bind]
      rfl
    rw [step, copied]
    by_cases fits : values.length + (piece c).length < max
    · have whole : (piece c).take (max - values.length) = piece c := List.take_of_length_le (by omega)
      rw [whole]
      have room' : (values ++ (piece c).map Record.value).length < max := by simpa using fits
      obtain ⟨values', pending', run, shape⟩ := ih linked positive.2 apart.2
        (fun d mem => pieces d (by simp [mem])) room' (Nat.le_of_succ_le_succ enough)
      refine ⟨values', pending', run, ?_⟩
      rcases shape with ⟨rfl, less⟩ | ⟨W₁, d, W₂, p, q, rfl, split, filled, rfl, full, rest⟩
      · exact .inl ⟨by simp, less⟩
      · exact .inr ⟨c :: W₁, d, W₂, p, q, rfl, split, filled, by simp, full, rest⟩
    · refine ⟨values ++ ((piece c).take (max - values.length)).map Record.value, _, ?_, .inr ⟨[], c, W, (piece c).take (max - values.length),
        (piece c).drop (max - values.length), rfl, (List.take_append_drop _ _).symm, ?_, by simp, ?_, rfl⟩⟩
      · have stop : ¬ (values ++ ((piece c).take (max - values.length)).map Record.value).length < max := by
          simp only [List.length_append, List.length_map, List.length_take]
          omega
        unfold rangeWalk
        simp only [stop, and_false, if_false]
      · intro empty
        have := congrArg List.length empty
        simp only [List.length_take, List.length_nil] at this
        omega
      · simp only [List.length_append, List.length_map, List.length_take]
        omega

end BPlusTree

def leafLast (leaves : List (Cell Record)) : List Key :=
  leaves.filterMap fun c => c.items.getLast?.map Record.key

theorem notMem_leafLast {A B : List (Cell Record)} {c : Cell Record} {s r : Record}
    (sorted : SortedBy Record.key (contents (A ++ c :: B))) (here : s ∈ c.items) (later : r ∈ c.items)
    (less : s.key < r.key) : s.key ∉ leafLast (A ++ c :: B) := by
  intro mem
  rw [contents_append, contents_cons] at sorted
  obtain ⟨-, rest, before⟩ := SortedBy.append_iff.mp sorted
  obtain ⟨own, -, after⟩ := SortedBy.append_iff.mp rest
  obtain ⟨d, inRow, last⟩ := List.mem_filterMap.mp mem
  obtain ⟨z, last, same⟩ := Option.map_eq_some_iff.mp last
  obtain ⟨I, items⟩ := List.getLast?_eq_some_iff.mp last
  have inside : z ∈ d.items := by simp [items]
  rcases List.mem_append.mp inRow with left | other
  · exact (before z (List.mem_flatMap.mpr ⟨d, left, inside⟩) s (List.mem_append_left _ here)).ne same
  · rcases List.mem_cons.mp other with rfl | right
    · rw [items] at own later
      rcases List.mem_append.mp later with inI | isLast
      · have := (SortedBy.append_iff.mp own).2.2 r inI z (by simp)
        exact (less.trans this).ne' same
      · obtain rfl := List.mem_singleton.mp isLast
        exact less.ne' same
    · exact (after s here z (List.mem_flatMap.mpr ⟨d, right, inside⟩)).ne' same

/-- A page that ends before the last record of a leaf in the range. -/
theorem notMem_leafLast_of_rest {A B : List (Cell Record)} {c : Cell Record} {left right : Key}
    {T p q : List Record} (sorted : SortedBy Record.key (contents (A ++ c :: B)))
    (split : window left right c.items = p ++ q) (filled : p ≠ []) (rest : q ≠ []) :
    ∀ s ∈ (T ++ p).getLast?, s.key ∉ leafLast (A ++ c :: B) := by
  intro s last
  rw [List.getLast?_append_of_ne_nil _ filled, Option.mem_def, List.getLast?_eq_some_iff] at last
  obtain ⟨I, rfl⟩ := last
  obtain ⟨r, q, rfl⟩ := List.exists_cons_of_ne_nil rest
  have inside : ∀ z ∈ window left right c.items, z ∈ c.items := fun z => List.mem_of_mem_filter
  have own : SortedBy Record.key c.items := by
    rw [contents_append, contents_cons] at sorted
    exact (SortedBy.append_iff.mp (SortedBy.append_iff.mp sorted).2.1).1
  have apart : SortedBy Record.key ((I ++ [s]) ++ r :: q) := split ▸ own.sublist List.filter_sublist
  exact notMem_leafLast sorted (inside s (by simp [split])) (inside r (by simp [split]))
    ((SortedBy.append_iff.mp apart).2.2 s (by simp) r (by simp))

theorem mem_leafLast_of_end {leaves : List (Cell Record)} {c : Cell Record} {left right : Key}
    {T p : List Record} (mem : c ∈ leaves) (sorted : SortedBy Record.key c.items)
    (below : ∀ r ∈ c.items, r.key ≤ right) (split : window left right c.items = p) (filled : p ≠ []) :
    ∀ s ∈ (T ++ p).getLast?, s.key ∈ leafLast leaves := by
  intro s last
  rw [List.getLast?_append_of_ne_nil _ filled] at last
  obtain ⟨P, S, items, less, more⟩ := lower_split sorted left
  have tail : S = p := by
    rw [← split, items, window_append, window_none fun r inside => .inl (less r inside),
      window_all fun r inside => ⟨more r inside, below r (by simp [items, inside])⟩, List.nil_append]
  subst tail
  refine List.mem_filterMap.mpr ⟨c, mem, ?_⟩
  rw [items, List.getLast?_append_of_ne_nil _ filled, last]
  rfl

namespace BPlusTree

/-- The answer when these records were copied and these are left in the leaf
that was read last. -/
def pageResult (copied rest : List Record) (left : Key) (wantNext : Bool) : RangeResult :=
  match wantNext, rest with
  | true, record :: _ => ⟨toInt copied.length, copied.map Record.value, some record.key, some true⟩
  | true, [] => ⟨toInt copied.length, copied.map Record.value, some left, some false⟩
  | false, _ => ⟨toInt copied.length, copied.map Record.value, some left, none⟩

theorem searchRange_full {t : BPlusTree} {left right : Key} {max : Nat} {F q : List Record}
    (ordered : left ≤ right) (foundLeft : t.searchLeaf left = .ok offLeft)
    (foundRight : t.searchLeaf right = .ok offRight) (full : F.length = max)
    (walk : t.rangeWalk left offLeft offRight max (t.file.blocks.length + 1) offLeft [] none =
      .ok (F.map Record.value, some q)) (wantNext : Bool) :
    t.searchRange (some left) right max wantNext = .ok (pageResult F q left wantNext) := by
  have notMore : ¬ 0 < keycmp left right := not_lt.mpr (keycmp_nonpos.mpr ordered)
  simp only [searchRange, bound_file, notMore, if_false, foundLeft, foundRight, walk, bind, Except.bind,
    List.length_map, full, lt_irrefl, pure, Except.pure]
  cases wantNext <;> cases q <;> simp [pageResult, full]

theorem searchRange_room {t : BPlusTree} {left right : Key} {max : Nat} {T inside : List Record} {leaf : Node Record}
    (ordered : left ≤ right) (foundLeft : t.searchLeaf left = .ok offLeft)
    (foundRight : t.searchLeaf right = .ok offRight) (room : T.length < max)
    (walk : t.rangeWalk left offLeft offRight max (t.file.blocks.length + 1) offLeft [] none =
      .ok (T.map Record.value, pending)) (read : t.map Record offRight = .ok leaf)
    (last : between leaf (findRecord leaf left) (upperBound (leaf.children.map Record.key) right) =
      .ok inside) (wantNext : Bool) :
    t.searchRange (some left) right max wantNext =
      .ok (pageResult (T ++ inside.take (max - T.length)) (inside.drop (max - T.length)) left wantNext) := by
  have notMore : ¬ 0 < keycmp left right := not_lt.mpr (keycmp_nonpos.mpr ordered)
  simp only [searchRange, bound_file, notMore, if_false, foundLeft, foundRight, walk, bind, Except.bind,
    List.length_map, room, if_true, read, last, copyValues_eq, pure, Except.pure]
  cases wantNext with
  | false => simp [pageResult]
  | true =>
    cases rest : inside.drop (max - T.length) with
    | nil => simp [pageResult]
    | cons r rest' =>
      have many : max - T.length < inside.length := by
        have := congrArg List.length rest
        simp only [List.length_drop, List.length_cons] at this
        omega
      have full : T.length + min (max - T.length) inside.length = max := by omega
      simp [pageResult, full]

end BPlusTree

/-- Of the leaves `A ++ (W ++ y :: Z)` the leaf `x` is that of `left`, and `y` is
that of `right` and the same or a later one. -/
structure Spans (left right : Key) (A W : List (Cell Record)) (x y : Cell Record)
    (B Z : List (Cell Record)) : Prop where
  tail : W ++ y :: Z = x :: B
  less : ∀ r ∈ contents A, r.key < left
  more : ∀ r ∈ contents B, left < r.key
  below : ∀ r ∈ contents W, r.key < right
  beyond : ∀ r ∈ contents Z, right < r.key

namespace Spans

variable {A W B Z : List (Cell Record)} {x y : Cell Record} {left right : Key}

theorem atMost (spans : Spans left right A W x y B Z) {c : Cell Record} (mem : c ∈ W) :
    ∀ r ∈ c.items, r.key ≤ right := fun r inside =>
  (spans.below r (List.mem_flatMap.mpr ⟨c, mem, inside⟩)).le

theorem piece (spans : Spans left right A W x y B Z) {c : Cell Record} (mem : c ∈ W)
    (sorted : SortedBy Record.key c.items) :
    c.items.drop (if x.off = c.off then lowerBound (c.items.map Record.key) left else 0) =
      window left right c.items := by
  split
  next => exact drop_lowerBound sorted (spans.atMost mem)
  next other =>
    have inB : c ∈ B := by
      have : c ∈ x :: B := spans.tail ▸ List.mem_append_left _ mem
      exact (List.mem_cons.mp this).resolve_left fun same => other (by rw [same])
    rw [List.drop_zero, window_all fun r inside =>
      ⟨(spans.more r (List.mem_flatMap.mpr ⟨c, inB, inside⟩)).le, spans.atMost mem r inside⟩]

theorem whole (spans : Spans left right A W x y B Z) :
    window left right (contents (A ++ (W ++ y :: Z))) =
      W.flatMap (fun c => window left right c.items) ++ window left right y.items := by
  have walked : window left right (contents W) = W.flatMap fun c => window left right c.items := by
    simp only [window, contents, List.filter_flatMap]
  rw [contents_append, contents_append, contents_cons, window_append, window_append, window_append,
    window_none fun r mem => .inl (spans.less r mem), window_none fun r mem => .inr (spans.beyond r mem),
    walked]
  simp

end Spans

/-- The leaf of `right` is the leaf of `left` or comes after it. -/
theorem Shape.locate_range (shape : Shape t leaves bounds levels) (ordered : left ≤ right) :
    ∃ A W x y B Z, leaves = A ++ (W ++ y :: Z) ∧ t.searchLeaf left = .ok x.off ∧
      t.searchLeaf right = .ok y.off ∧ Spans left right A W x y B Z := by
  obtain ⟨A, x, B, U, u, V, _, _, _, _, _, _, _, rfl, rfl, rfl, from_⟩ := shape.locate left
  obtain ⟨A', y, Z, U', u', V', _, _, _, _, _, _, _, row, keys, -, to_⟩ := shape.locate right
  have after : A.length ≤ A'.length := by
    rw [← from_.around.lenA, ← to_.around.lenA]
    by_contra less
    rcases List.append_eq_append_iff.mp keys with ⟨W, rfl, _⟩ | ⟨W, rfl, tail⟩
    · simp at less
    · cases W with
      | nil => simp at less
      | cons w W =>
        obtain ⟨rfl, rfl⟩ := List.cons.inj tail
        have beyond := to_.route.below (by simp)
        exact (beyond.trans_le ((from_.route.above u' (by simp)).trans ordered)).false
  obtain ⟨W, rfl, tail⟩ : ∃ W, A' = A ++ W ∧ W ++ y :: Z = x :: B := by
    rcases List.append_eq_append_iff.mp row with ⟨W, rfl, tail⟩ | ⟨W, rfl, tail⟩
    · exact ⟨W, rfl, tail.symm⟩
    · obtain rfl : W = [] := by
        rw [List.length_append] at after
        exact List.length_eq_zero_iff.mp (by omega)
      exact ⟨[], by simp, tail⟩
  have outsideFrom := from_.around.outside from_.route
  have outsideTo := to_.around.outside to_.route
  refine ⟨A, W, x, y, B, Z, by rw [tail], from_.searchLeaf, to_.searchLeaf, tail, outsideFrom.1,
    outsideFrom.2, fun r mem => outsideTo.1 r ?_, outsideTo.2⟩
  rw [contents_append]
  exact List.mem_append_right _ mem

/-- One call of `search_range`: `F` is returned, `q` is left in the leaf that
was read last and `G` comes after that leaf. -/
theorem Shape.range_spec {left right : Key} {max : Nat} (shape : Shape t leaves bounds levels)
    (ordered : left ≤ right) (positive : 0 < max) :
    ∃ F q G, window left right (contents leaves) = F ++ (q ++ G) ∧ F.length ≤ max ∧
      (F.length < max → q = [] ∧ G = []) ∧
      (q ≠ [] → ∀ s ∈ F.getLast?, s.key ∉ leafLast leaves) ∧
      (q = [] → G ≠ [] → ∀ s ∈ F.getLast?, s.key ∈ leafLast leaves) ∧
      ∀ wantNext, t.searchRange (some left) right max wantNext =
        .ok (BPlusTree.pageResult F q left wantNext) := by
  obtain ⟨A, W, x, y, B, Z, rfl, foundLeft, foundRight, spans⟩ := shape.locate_range ordered
  have sorted := shape.fenced.sorted_contents
  have linked := ((Linked.append_iff A (W ++ y :: Z)).mp shape.linked).2
  have placed := shape.placed.left
  have heldY := (LinkedRow.at_iff (A := A ++ W).mp (by rw [List.append_assoc]; exact shape.linked)).2.1
  have sortedLeaf : ∀ c ∈ W ++ y :: Z, SortedBy Record.key c.items := fun c mem =>
    shape.fenced.sorted c (List.mem_append_right _ mem)
  have enough : W.length ≤ t.file.blocks.length + 1 := by
    have := File.length_le_blocks placed.distinct shape.linked.written
    simp only [offsets, List.length_map, List.length_append, List.length_cons] at this
    omega
  obtain ⟨offsA, offsRest⟩ : 0 ∉ offsets A ∧ 0 ∉ offsets (W ++ y :: Z) := by
    have := placed.positive
    rwa [offsets_append, List.mem_append, not_or] at this
  have apart : y.off ∉ offsets W := by
    have := placed.distinct
    rw [offsets_append, offsets_append, offsets_cons, List.nodup_append, List.nodup_append] at this
    exact fun mem => this.2.1.2.2 _ mem _ (by simp) rfl
  obtain ⟨values, pending, walk, outcome⟩ := BPlusTree.rangeWalk_row linked
    (fun mem => offsRest (by simp [mem])) apart
    (fun c mem => spans.piece mem (sortedLeaf c (List.mem_append_left _ mem)))
    (show [].length < max from positive) enough
  rw [show firstOff (W ++ y :: Z) = x.off by rw [spans.tail]; rfl] at walk
  rw [spans.whole]
  rcases outcome with ⟨rfl, room⟩ | ⟨W₁, c, W₂, p, q, rfl, split, nonempty, rfl, full, rfl⟩
  · rw [List.nil_append, List.length_map] at room
    rw [List.nil_append] at walk
    refine ⟨_, _, [], ?_, ?_, ?_, ?_, ?_, BPlusTree.searchRange_room ordered foundLeft foundRight room
      walk heldY.map (between_window (sortedLeaf y (by simp)) ordered)⟩
    · simp [Cell.node]
    · simp only [List.length_append, List.length_take]
      omega
    · intro fewer
      simp only [List.length_append, List.length_take] at fewer
      exact ⟨List.drop_eq_nil_of_le (by omega), rfl⟩
    · intro rest
      have many := List.length_pos_iff.mpr rest
      rw [List.length_drop] at many
      have filled := List.length_pos_iff.mp (show 0 < ((window left right y.items).take
        (max - (W.flatMap fun c => window left right c.items).length)).length by
          rw [List.length_take]
          simp only [Cell.node] at many
          omega)
      rw [← List.append_assoc] at sorted ⊢
      exact notMem_leafLast_of_rest sorted (List.take_append_drop _ _).symm filled rest
    · simp
  · rw [List.nil_append, List.length_map] at full
    rw [List.nil_append] at walk
    refine ⟨_, q, W₂.flatMap (fun c => window left right c.items) ++ window left right y.items, ?_,
      full.le, fun fewer => absurd full fewer.ne, fun rest => ?_, fun empty _ => ?_,
      BPlusTree.searchRange_full ordered foundLeft foundRight full walk⟩
    · simp [split]
    · have here : A ++ ((W₁ ++ c :: W₂) ++ y :: Z) = (A ++ W₁) ++ c :: (W₂ ++ y :: Z) := by simp
      rw [here] at sorted ⊢
      exact notMem_leafLast_of_rest sorted split nonempty rest
    · rw [empty, List.append_nil] at split
      exact mem_leafLast_of_end (by simp) (sortedLeaf c (by simp)) (spans.atMost (by simp)) split nonempty

namespace BPlusTree

def inRange (t : BPlusTree) (left right : Key) : List Record := window left right t.records

def leafEnds (t : BPlusTree) : List Key :=
  (t.row t.info.height).filterMap fun p => (t.file.leafRecords p.off).getLast?.map Record.key

/-- `search_range` called until `*next` is false. -/
def scan (t : BPlusTree) (right : Key) (max : Nat) : Nat → Key → Except Fault (List Value)
  | 0, _ => .error .diverged
  | fuel + 1, left => do
    let page ← t.searchRange (some left) right max true
    match page.next, page.left with
    | some true, some left => return page.values ++ (← t.scan right max fuel left)
    | _, _ => return page.values

/-- A call says whether and where to go on, and going on returns everything. -/
structure PagesAll (t : BPlusTree) (left right : Key) (max : Nat) : Prop where
  page : ∃ result, t.searchRange (some left) right max true = .ok result ∧
    ∃ returned rest, t.inRange left right = returned ++ rest ∧
      result.values = returned.map Record.value ∧ (result.next = some true ↔ rest ≠ []) ∧
        ∀ r ∈ rest.head?, result.left = some r.key
  scan : ∃ fuel, t.scan right max fuel left = .ok ((t.inRange left right).map Record.value)

/-- No page but the last ends with the last record of a leaf. -/
def PagesSplitLeaves (t : BPlusTree) (left right : Key) (max : Nat) : Prop :=
  ∀ j, 0 < j → j * max < (t.inRange left right).length →
    ∀ r ∈ (t.inRange left right)[j * max - 1]?, r.key ∉ t.leafEnds

end BPlusTree

theorem window_restart {records F R : List Record} {r : Record} {left right : Key}
    (sorted : SortedBy Record.key records) (split : window left right records = F ++ r :: R) :
    window r.key right records = r :: R := by
  have inside : ∀ z ∈ F ++ r :: R, left ≤ z.key ∧ z.key ≤ right := by
    intro z mem
    rw [← split] at mem
    simpa using List.of_mem_filter mem
  have apart : SortedBy Record.key (F ++ r :: R) := split ▸ sorted.sublist List.filter_sublist
  have narrow : window r.key right records = window r.key right (window left right records) := by
    rw [window, window, window, List.filter_filter]
    apply List.filter_congr
    intro z _
    have := (inside r (by simp)).1
    simp only [← Bool.decide_and, decide_eq_decide]
    exact ⟨fun within => ⟨within, this.trans within.1, within.2⟩, And.left⟩
  rw [narrow, split, window_append, window_none fun z mem => .inl (apart.gap.above z mem),
    window_all fun z mem => ⟨?_, (inside z (List.mem_append_right _ mem)).2⟩, List.nil_append]
  rcases List.mem_cons.mp mem with rfl | later
  · exact le_rfl
  · exact (apart.gap.below z later).le

theorem Shape.leafEnds_eq (shape : Shape t leaves bounds levels) : t.leafEnds = leafLast leaves := by
  have offs : t.leafEnds = ((t.row t.info.height).map Place.off).filterMap
      fun off => (t.file.leafRecords off).getLast?.map Record.key := by
    rw [List.filterMap_map]
    rfl
  rw [offs, shape.offs_height, offsets, List.filterMap_map, leafLast]
  exact List.filterMap_congr fun c mem => by simp only [Function.comp, shape.leafRecords_eq c mem]

namespace BPlusTree

variable {t : BPlusTree} {left right : Key} {max : Nat} {F G q : List Record}

theorem scan_last (run : t.searchRange (some left) right max true = .ok (pageResult F [] left true)) :
    t.scan right max (fuel + 1) left = .ok (F.map Record.value) := by
  simp only [scan, run, bind, Except.bind, pageResult]
  rfl

theorem scan_more
    (run : t.searchRange (some left) right max true = .ok (pageResult F (r :: q) left true)) :
    t.scan right max (fuel + 1) left =
      (t.scan right max fuel r.key).map fun values => F.map Record.value ++ values := by
  simp only [scan, run, bind, Except.bind, pageResult]
  cases t.scan right max fuel r.key <;> rfl

theorem pagesSplitLeaves_last (positive : 0 < max) (split : t.inRange left right = F ++ G)
    (atMost : F.length ≤ max) (full : G ≠ [] → F.length = max)
    (atEnd : G ≠ [] → ∀ s ∈ F.getLast?, s.key ∈ t.leafEnds) :
    t.PagesSplitLeaves left right max ↔ G = [] := by
  constructor
  · intro splits
    by_contra more
    have len := full more
    obtain ⟨I, s, rfl⟩ := (List.eq_nil_or_concat' F).resolve_left fun empty => by
      simp [empty] at len
      omega
    refine splits 1 Nat.one_pos ?_ s ?_ (atEnd more s (by simp))
    · have := List.length_pos_iff.mpr more
      rw [split, List.length_append]
      omega
    · have last : 1 * max - 1 = I.length := by
        rw [List.length_append, List.length_singleton] at len
        omega
      rw [split, last]
      simp
  · rintro rfl j later less
    rw [split, List.append_nil] at less
    have := Nat.le_mul_of_pos_left max later
    omega

theorem pagesSplitLeaves_more (positive : 0 < max) (split : t.inRange left right = F ++ r :: G)
    (rest : t.inRange r.key right = r :: G) (full : F.length = max)
    (inside : ∀ s ∈ F.getLast?, s.key ∉ t.leafEnds) :
    t.PagesSplitLeaves left right max ↔ t.PagesSplitLeaves r.key right max := by
  have at_ : ∀ j, 0 < j → (F ++ r :: G)[(j + 1) * max - 1]? = (r :: G)[j * max - 1]? := by
    intro j later
    have := Nat.le_mul_of_pos_left max later
    rw [List.getElem?_append_right (by rw [Nat.succ_mul]; omega)]
    congr 1
    rw [Nat.succ_mul]
    omega
  constructor
  · intro splits j later less s mem
    rw [rest] at less mem
    refine splits (j + 1) (Nat.succ_pos j) ?_ s ?_
    · rw [split, List.length_append, Nat.succ_mul]
      omega
    · rwa [split, at_ j later]
  · intro splits j later less s mem
    rw [split] at less mem
    obtain _ | _ | j := j
    · exact absurd later (lt_irrefl 0)
    · apply inside s
      rwa [zero_add, one_mul, List.getElem?_append_left (by omega), ← full,
        ← List.getLast?_eq_getElem?] at mem
    · refine splits (j + 1) (Nat.succ_pos j) ?_ s ?_
      · rw [List.length_append, Nat.succ_mul] at less
        rw [rest]
        omega
      · rwa [rest, ← at_ (j + 1) (Nat.succ_pos j)]

end BPlusTree

/-- The scan returns everything exactly when its pages split leaves. -/
theorem Shape.scan_iff {left right : Key} {max : Nat} (shape : Shape t leaves bounds levels)
    (positive : 0 < max) (ordered : left ≤ right) :
    (∃ fuel, t.scan right max fuel left = .ok ((t.inRange left right).map Record.value)) ↔
      t.PagesSplitLeaves left right max := by
  induction more : (t.inRange left right).length using Nat.strong_induction_on generalizing left with
  | _ n ih =>
  obtain ⟨F, q, G, split, atMost, room, inside, atEnd, run⟩ := shape.range_spec ordered positive
  rw [← shape.records_eq] at split
  rw [← shape.leafEnds_eq] at inside atEnd
  cases q with
  | nil =>
    rw [List.nil_append] at split
    rw [BPlusTree.pagesSplitLeaves_last positive split atMost ?_ (atEnd rfl)]
    · constructor
      · rintro ⟨fuel, done⟩
        cases fuel with
        | zero => cases done
        | succ fuel =>
          rw [BPlusTree.scan_last (run true), Except.ok.injEq, BPlusTree.inRange, split] at done
          have := congrArg List.length done
          simp only [List.length_map, List.length_append] at this
          exact List.length_eq_zero_iff.mp (by omega)
      · rintro rfl
        refine ⟨1, ?_⟩
        rw [BPlusTree.scan_last (run true), BPlusTree.inRange, split]
        simp
    · exact fun filled => by_contra fun short => filled (room (by omega)).2
  | cons r q =>
    have full : F.length = max := by_contra fun short => nomatch (room (by omega)).1
    have rest : t.inRange r.key right = r :: (q ++ G) :=
      window_restart (shape.records_eq ▸ shape.fenced.sorted_contents) split
    have ordered' : r.key ≤ right := by
      have mem : r ∈ window left right t.records := by simp [split]
      have := List.of_mem_filter mem
      simp only [decide_eq_true_eq] at this
      exact this.2
    rw [BPlusTree.pagesSplitLeaves_more positive split rest full (inside (by simp)),
      ← ih _ ?_ ordered' rfl]
    · have whole : (t.inRange left right).map Record.value =
          F.map Record.value ++ (t.inRange r.key right).map Record.value := by
        rw [rest, BPlusTree.inRange, split, List.map_append]
        rfl
      constructor
      · rintro ⟨fuel, done⟩
        cases fuel with
        | zero => cases done
        | succ fuel =>
          rw [BPlusTree.scan_more (run true), whole] at done
          refine ⟨fuel, ?_⟩
          cases later : t.scan right max fuel r.key with
          | error => simp [later, Except.map] at done
          | ok values => simpa [later, Except.map] using done
      · rintro ⟨fuel, done⟩
        exact ⟨fuel + 1, by rw [BPlusTree.scan_more (run true), done, whole]; rfl⟩
    · rw [← more, rest, BPlusTree.inRange, split]
      simp
      omega

namespace BPlusTree

/-- Paging is complete exactly when no page but the last ends with a leaf. -/
theorem pagesAll_iff (t : BPlusTree) (left right : Key) (max : Nat) (wf : t.WellFormed)
    (ordered : left ≤ right) (positive : 0 < max) :
    t.PagesAll left right max ↔ t.PagesSplitLeaves left right max := by
  obtain ⟨leaves, bounds, levels, shape⟩ := wf.shaped
  refine ⟨fun all => (shape.scan_iff positive ordered).mp all.scan,
    fun splits => ⟨?_, (shape.scan_iff positive ordered).mpr splits⟩⟩
  obtain ⟨F, q, G, split, atMost, room, inside, atEnd, run⟩ := shape.range_spec ordered positive
  rw [← shape.records_eq] at split
  rw [← shape.leafEnds_eq] at inside atEnd
  refine ⟨_, run true, F, q ++ G, split, ?_⟩
  cases q with
  | nil =>
    have full : G ≠ [] → F.length = max := fun filled =>
      by_contra fun short => filled (room (by omega)).2
    obtain rfl := (pagesSplitLeaves_last positive split atMost full (atEnd rfl)).mp splits
    simp [pageResult]
  | cons r q => simp [pageResult]

/-- Three pages, each of which ends inside a leaf. -/
theorem pagesAll_packed : Packed.tree.PagesAll (Packed.number 5) (Packed.number 24) 7 := by
  apply (pagesAll_iff Packed.tree (Packed.number 5) (Packed.number 24) 7 packed_wellFormed (by decide)
    (by decide)).mpr
  have few : (Packed.tree.inRange (Packed.number 5) (Packed.number 24)).length = 20 := by decide +kernel
  have pages : ∀ j < 3, 0 < j → ∀ r ∈ (Packed.tree.inRange (Packed.number 5) (Packed.number 24))[j * 7 - 1]?,
      r.key ∉ Packed.tree.leafEnds := by decide +kernel
  intro j later less
  rw [few] at less
  exact pages j (by omega) later

/-- A page of ten records ends with the first leaf and stops the scan. -/
theorem not_pagesAll_packed : Packed.tree.WellFormed ∧ Packed.number 0 ≤ Packed.number 19 ∧
    ¬ Packed.tree.PagesAll (Packed.number 0) (Packed.number 19) 10 := by
  refine ⟨packed_wellFormed, by decide, fun all => ?_⟩
  have stops : ∃ result ∈ (Packed.tree.searchRange (some (Packed.number 0)) (Packed.number 19) 10
      true).toOption, result.next = some false ∧ result.values.length = 10 := by decide +kernel
  have stored : (Packed.tree.inRange (Packed.number 0) (Packed.number 19)).length = 20 := by
    decide +kernel
  obtain ⟨result, run, returned, rest, split, values, next, -⟩ := all.page
  rw [run] at stops
  obtain ⟨_, same, no, ten⟩ := stops
  obtain rfl := Option.some.inj same
  have empty : rest = [] := by_contra fun filled => by
    rw [next.mpr filled] at no
    cases no
  rw [split, empty, List.append_nil] at stored
  rw [values, List.length_map, stored] at ten
  cases ten

end BPlusTree
end Fdfs2qq.Bpt
