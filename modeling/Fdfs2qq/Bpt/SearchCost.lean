import Fdfs2qq.Lib.Footprint
import Fdfs2qq.Bpt.Queries
import Mathlib.Data.Nat.Log

/-! How many blocks a query reads. A descent reads one block for each level, and the
levels of a correct tree grow with the logarithm of its records; a page of a range reads
the leaves that it takes its values from. -/
namespace Fdfs2qq.Bpt
open Lib

namespace BPlusTree

/-- The meta block is kept in memory, the blocks are read. -/
def blockView : View BPlusTree Offset (Option Block) Meta where
  base := info
  look t := t.file.get

variable {t : BPlusTree} {key : Key}

theorem reads_map (α : Type) [NodeType α] (off : Offset) : blockView.Reads t 1 fun t => t.map α off := by
  refine ⟨[off], Nat.le_refl 1, fun t' agree => ?_⟩
  have same : t'.file.get off = t.file.get off := agree.look off (List.mem_singleton_self off)
  simp only [map_eq, same]

theorem reads_searchLeafFrom (index : Offset) (key : Key) :
    blockView.Reads t 1 fun t => t.searchLeafFrom index key :=
  (reads_map Index index).bind fun _ _ => View.Reads.const _

/-- A descent reads one block for each level. -/
theorem reads_searchIndexFrom (key : Key) (levels : Nat) (org : Offset) :
    blockView.Reads t levels fun t => t.searchIndexFrom key levels org := by
  induction levels generalizing org with
  | zero => exact View.Reads.const _
  | succ levels ih =>
    have step : blockView.Reads t (1 + levels) fun t => t.searchLeafFrom org key >>= fun off =>
        t.searchIndexFrom key levels off := (reads_searchLeafFrom org key).bind fun off _ => ih off
    exact (step.congr fun t => (searchIndexFrom_succ t key levels org).symm).mono (Nat.add_comm 1 levels).le

theorem reads_searchLeaf (key : Key) (tall : 0 < t.info.height) :
    blockView.Reads t t.info.height fun t => t.searchLeaf key := by
  have index : blockView.Reads t (t.info.height - 1) fun t => t.searchIndex key :=
    View.Reads.afterBase
      (f := fun (info : Meta) (t : BPlusTree) => t.searchIndexFrom key (info.height - 1) info.rootOffset)
      (reads_searchIndexFrom key (t.info.height - 1) t.info.rootOffset)
  exact (index.bind fun off _ => reads_searchLeafFrom off key).mono (Nat.sub_add_cancel tall).le

theorem reads_search (key : Key) (tall : 0 < t.info.height) :
    blockView.Reads t (t.info.height + 1) fun t => t.search key :=
  (reads_searchLeaf key tall).bind fun off _ => (reads_map Record off).bind fun _ _ => View.Reads.const _

end BPlusTree

theorem mul_length_le_flatMap {A B : Type*} {row : List A} {f : A → List B} {n : Nat}
    (least : ∀ a ∈ row, n ≤ (f a).length) : row.length * n ≤ (row.flatMap f).length := by
  induction row with
  | nil => simp
  | cons a row ih =>
    have here := least a List.mem_cons_self
    have others := ih fun b mem => least b (List.mem_cons_of_mem a mem)
    rw [List.flatMap_cons, List.length_append, List.length_cons, Nat.succ_mul, Nat.add_comm]
    exact Nat.add_le_add here others

/-- One node lists the only cell, or every level is at least ten times as wide as the next. -/
theorem Tower.grows (tower : Tower f root lower bounds levels) (indexed : levels ≠ []) :
    (lower.length = 1 ∧ levels.length = 1) ∨ 2 * (bpOrder / 2) ^ (levels.length - 1) ≤ lower.length := by
  induction tower with
  | top => exact absurd rfl indexed
  | @level row lower bounds rest linked listed keyed sized upper ih =>
    subst listed
    cases rest with
    | nil =>
      obtain ⟨c, rfl⟩ : ∃ c, row = [c] := List.length_eq_one_iff.mp (by
        rw [← length_ids, upper.top_inv]
        rfl)
      have filled := List.length_pos_iff.mpr (sized.nonempty c (by simp))
      rw [kids_cons, kids_nil, List.append_nil, length_slotKids]
      obtain one | several : c.items.length = 1 ∨ 2 ≤ c.items.length := by omega
      · exact .inl ⟨one, rfl⟩
      · exact .inr several
    | cons next rest =>
      have several := sized.several (by simp)
      rw [← length_ids] at several
      have wide := (ih (by simp)).resolve_left fun single => by omega
      rw [length_ids] at wide
      have full : row.length * (bpOrder / 2) ≤ (kids row).length := mul_length_le_flatMap fun c mem => by
        rw [length_slotKids]
        exact sized.atLeast (by simp) c mem
      right
      calc 2 * (bpOrder / 2) ^ ((row :: next :: rest).length - 1)
          = 2 * (bpOrder / 2) ^ ((next :: rest).length - 1) * (bpOrder / 2) := by
            rw [mul_assoc, ← pow_succ]
            rfl
        _ ≤ row.length * (bpOrder / 2) := Nat.mul_le_mul_right _ wide
        _ ≤ (kids row).length := full

theorem Shape.grows (shape : Shape t leaves bounds levels) :
    t.info.height = 1 ∨ 2 * (bpOrder / 2) ^ t.info.height ≤ t.records.length := by
  rw [shape.height, shape.records_eq]
  obtain ⟨-, one⟩ | wide := shape.tower.grows shape.indexed
  · exact .inl one
  · right
    rw [length_ids] at wide
    have tall := List.length_pos_iff.mpr shape.indexed
    have many : 2 ≤ leaves.length :=
      (Nat.le_mul_of_pos_right 2 (Nat.pow_pos (by decide))).trans wide
    calc 2 * (bpOrder / 2) ^ levels.length
        = 2 * (bpOrder / 2) ^ (levels.length - 1) * (bpOrder / 2) := by
          rw [mul_assoc, ← pow_succ, Nat.sub_add_cancel tall]
      _ ≤ leaves.length * (bpOrder / 2) := Nat.mul_le_mul_right _ wide
      _ ≤ (contents leaves).length := mul_length_le_flatMap (shape.filled.atLeast many)

namespace BPlusTree

/-- The levels that a search may go through. -/
def heightBound (t : BPlusTree) : Nat := max 1 (Nat.log (bpOrder / 2) (t.records.length / 2))

theorem WellFormed.height_le {t : BPlusTree} (wf : t.WellFormed) : t.info.height ≤ t.heightBound := by
  obtain ⟨leaves, bounds, levels, shape⟩ := wf.shaped
  obtain one | wide := shape.grows
  · exact one.le.trans (Nat.le_max_left ..)
  · have half : (bpOrder / 2) ^ t.info.height ≤ t.records.length / 2 :=
      (Nat.le_div_iff_mul_le Nat.two_pos).mpr ((Nat.mul_comm ..).le.trans wide)
    exact (Nat.le_log_of_pow_le (by decide) half).trans (Nat.le_max_right ..)

theorem rangeWalk_cons {t : BPlusTree} {c : Cell Record} {next prev offLeft offRight : Offset} {left : Key}
    {max fuel : Nat} {values : List Value} {pending : Option (List Record)} (held : c.Holds t.file next prev)
    (here : c.off ≠ offRight ∧ c.off ≠ 0 ∧ values.length < max) :
    t.rangeWalk left offLeft offRight max (fuel + 1) c.off values pending =
      let copied := copyValues max
        (c.items.drop (if offLeft = c.off then lowerBound (c.items.map Record.key) left else 0)) values
      t.rangeWalk left offLeft offRight max fuel next copied.1 (some copied.2) := by
  conv_lhs => unfold rangeWalk
  simp only [here, ne_eq, not_false_eq_true, and_self, if_true, held.map, bind, Except.bind]
  rfl

theorem rangeWalk_stop {t : BPlusTree} {off offLeft offRight : Offset} {left : Key} {max fuel : Nat}
    {values : List Value} {pending : Option (List Record)}
    (stop : ¬ (off ≠ offRight ∧ off ≠ 0 ∧ values.length < max)) :
    t.rangeWalk left offLeft offRight max fuel off values pending = .ok (values, pending) := by
  unfold rangeWalk
  rw [if_neg stop]

/-- The walk reads the first leaves of the row, and there was room before the last of
them. Where there is room at its end it has read all. -/
theorem rangeWalk_reads {t : BPlusTree} {W Z : List (Cell Record)} {y : Cell Record}
    {start offLeft : Offset} {left : Key} {piece : Cell Record → List Record} (max : Nat)
    (values : List Value) (pending : Option (List Record))
    (linked : Linked Cell.off (Cell.Holds t.file) 0 start (W ++ y :: Z)) (positive : 0 ∉ offsets W)
    (apart : y.off ∉ offsets W)
    (pieces : ∀ c ∈ W, c.items.drop
      (if offLeft = c.off then lowerBound (c.items.map Record.key) left else 0) = piece c) :
    ∃ n ≤ W.length, (n ≠ 0 → values.length + ((W.take (n - 1)).flatMap piece).length < max) ∧
      ∃ values' pending', (values'.length < max → values.length + (W.flatMap piece).length < max) ∧
        ∀ (t' : BPlusTree) (fuel : Nat), n ≤ fuel →
          (∀ o ∈ offsets (W.take n), t'.file.get o = t.file.get o) →
            t'.rangeWalk left offLeft y.off max fuel (firstOff (W ++ y :: Z)) values pending =
              .ok (values', pending') := by
  induction W generalizing start values pending with
  | nil =>
    refine ⟨0, le_rfl, fun filled => absurd rfl filled, values, pending, id, fun t' fuel _ _ => ?_⟩
    exact rangeWalk_stop fun more => more.1 rfl
  | cons c W ih =>
    rw [offsets_cons, List.mem_cons, not_or] at positive apart
    obtain ⟨held, linked⟩ := linked
    by_cases room : values.length < max
    · have here : c.off ≠ y.off ∧ c.off ≠ 0 ∧ values.length < max :=
        ⟨Ne.symm apart.1, Ne.symm positive.1, room⟩
      have copied : (copyValues max (piece c) values).1.length =
          values.length + min (max - values.length) (piece c).length := by
        rw [copyValues_eq, List.length_append, List.length_map, List.length_take]
      obtain ⟨n, few, before, values', pending', atEnd, run⟩ := ih (copyValues max (piece c) values).1
        (some (copyValues max (piece c) values).2) linked positive.2 apart.2
        fun d mem => pieces d (List.mem_cons_of_mem c mem)
      rw [copied] at before atEnd
      refine ⟨n + 1, Nat.succ_le_succ few, fun _ => ?_, values', pending', fun more => ?_,
        fun t' fuel enough agree => ?_⟩
      · rw [Nat.add_sub_cancel]
        cases n with
        | zero => exact room
        | succ n =>
          have before := before (Nat.succ_ne_zero n)
          rw [List.take_succ_cons, List.flatMap_cons, List.length_append]
          rw [Nat.add_sub_cancel] at before
          omega
      · have atEnd := atEnd more
        rw [List.flatMap_cons, List.length_append]
        omega
      · obtain ⟨fuel, rfl⟩ : ∃ m, fuel = m + 1 := ⟨fuel - 1, by omega⟩
        rw [List.take_succ_cons, offsets_cons] at agree
        have held' : c.Holds t'.file (firstOff (W ++ y :: Z)) start :=
          (agree c.off List.mem_cons_self).trans held
        have first : firstOff (c :: W ++ y :: Z) = c.off := rfl
        rw [first, rangeWalk_cons held' here, pieces c List.mem_cons_self]
        exact run t' fuel (Nat.le_of_succ_le_succ enough)
          fun o mem => agree o (List.mem_cons_of_mem c.off mem)
    · refine ⟨0, Nat.zero_le _, fun nonempty => absurd rfl nonempty, values, pending,
        fun more => absurd more room, fun t' fuel _ _ => ?_⟩
      exact rangeWalk_stop fun more => room more.2.2

end BPlusTree

/-- All leaves of the range but the first and the last are in it whole. -/
theorem Spans.copied {A W B Z : List (Cell Record)} {x y : Cell Record} {left right : Key}
    (spans : Spans left right A W x y B Z) (full : ∀ c ∈ W, bpOrder / 2 ≤ c.items.length) {m : Nat}
    (inside : m ≤ W.length) :
    (m - 1) * (bpOrder / 2) ≤ ((W.take m).flatMap fun c => window left right c.items).length := by
  cases W with
  | nil =>
    obtain rfl : m = 0 := Nat.le_zero.mp inside
    simp
  | cons c W =>
    cases m with
    | zero => simp
    | succ m =>
      obtain ⟨rfl, tail⟩ := List.cons.inj spans.tail
      rw [List.take_succ_cons, List.flatMap_cons, List.length_append, Nat.add_sub_cancel]
      have whole : ∀ d ∈ W.take m, window left right d.items = d.items := fun d mem =>
        window_all fun r mem' => by
          have later : d ∈ W := List.mem_of_mem_take mem
          exact ⟨(spans.more r (List.mem_flatMap.mpr ⟨d, tail ▸ List.mem_append_left _ later, mem'⟩)).le,
            spans.atMost (List.mem_cons_of_mem c later) r mem'⟩
      have all : (W.take m).length * (bpOrder / 2) ≤
          ((W.take m).flatMap fun d => window left right d.items).length :=
        mul_length_le_flatMap fun d mem => by
          rw [whole d mem]
          exact full d (List.mem_cons_of_mem c (List.mem_of_mem_take mem))
      rw [List.length_take_of_le (Nat.le_of_succ_le_succ inside)] at all
      exact all.trans (Nat.le_add_left ..)

/-- The leaves of the range that a page is taken from. -/
def leafBound (max : Nat) : Nat := (max - 1) / (bpOrder / 2) + 2

/-- The walk reads only leaves that it takes values from, and the first. -/
theorem Shape.reads_rangeWalk {left right : Key} (shape : Shape t leaves bounds levels) (ordered : left ≤ right)
    (max : Nat) (foundLeft : t.searchLeaf left = .ok offLeft) (foundRight : t.searchLeaf right = .ok offRight) :
    ∃ n values pending, n ≤ leafBound max ∧ (values.length < max → n + 1 ≤ leafBound max) ∧
      t.rangeWalk left offLeft offRight max (t.file.blocks.length + 1) offLeft [] none = .ok (values, pending) ∧
      BPlusTree.blockView.Reads t n fun t =>
        t.rangeWalk left offLeft offRight max (t.file.blocks.length + 1) offLeft [] none := by
  obtain ⟨A, W, x, y, B, Z, rfl, foundLeft', foundRight', spans⟩ := shape.locate_range ordered
  obtain rfl := Except.ok.inj (foundLeft.symm.trans foundLeft')
  obtain rfl := Except.ok.inj (foundRight.symm.trans foundRight')
  have linked := ((Linked.append_iff A (W ++ y :: Z)).mp shape.linked).2
  have placed : Placed t.info.slot (offsets (W ++ y :: Z)) :=
    shape.placed.left.sublist (by rw [offsets_append A]; exact List.sublist_append_right _ _)
  have part : (offsets W).Sublist (offsets (W ++ y :: Z)) := by
    rw [offsets_append]
    exact List.sublist_append_left _ _
  have apart : y.off ∉ offsets W := by
    have distinct := placed.distinct
    rw [offsets_append, offsets_cons, List.nodup_append] at distinct
    exact fun mem => distinct.2.2 _ mem _ List.mem_cons_self rfl
  have full : ∀ c ∈ W, bpOrder / 2 ≤ c.items.length := fun c mem =>
    shape.filled.atLeast (by
      have := List.length_pos_of_mem mem
      simp only [List.length_append, List.length_cons]
      omega) c (by simp [mem])
  have pieces : ∀ c ∈ W, c.items.drop (if x.off = c.off then lowerBound (c.items.map Record.key) left else 0) =
      window left right c.items := fun c mem => spans.piece mem (shape.fenced.sorted c (by simp [mem]))
  have first : firstOff (W ++ y :: Z) = x.off := by
    rw [spans.tail]
    rfl
  have positive : 0 ∉ offsets W := fun mem => placed.positive (part.subset mem)
  obtain ⟨n, few, before, values, pending, atEnd, run⟩ := BPlusTree.rangeWalk_reads max [] none
    linked positive apart pieces
  rw [first] at run
  have visited : (offsets (W.take n)).length = n := by rw [offsets, List.length_map, List.length_take_of_le few]
  -- these leaves are in every file that agrees, so that the walk is not cut off there
  have enough : ∀ t' : BPlusTree, (∀ o ∈ offsets (W.take n), t'.file.get o = t.file.get o) →
      n ≤ t'.file.blocks.length + 1 := fun t' agree => by
    have front : (offsets (W.take n)).Sublist (offsets W) := (List.take_sublist n W).map Cell.off
    have there := File.length_le_blocks (f := t'.file) (placed.distinct.sublist (front.trans part)) fun o mem => by
      rw [agree o mem]
      exact shape.linked.written o (by simp [front.subset mem])
    omega
  refine ⟨n, values, pending, ?_, fun more => ?_, run t _ (enough t fun _ _ => rfl) fun _ _ => rfl,
    offsets (W.take n), visited.le, fun t' agree => ?_⟩
  · unfold leafBound
    by_cases zero : n = 0
    · exact zero.le.trans (Nat.zero_le _)
    · have room := (spans.copied full (show n - 1 ≤ W.length by omega)).trans_lt
        ((Nat.le_add_left ..).trans_lt (before zero))
      have fewer : n - 1 - 1 ≤ (max - 1) / (bpOrder / 2) :=
        (Nat.le_div_iff_mul_le (by decide)).mpr (Nat.le_sub_one_of_lt room)
      omega
  · have room := (spans.copied full (le_refl W.length)).trans_lt (by
      rw [List.take_length]
      exact (Nat.le_add_left ..).trans_lt (atEnd more))
    have fewer : W.length - 1 ≤ (max - 1) / (bpOrder / 2) :=
      (Nat.le_div_iff_mul_le (by decide)).mpr (Nat.le_sub_one_of_lt room)
    unfold leafBound
    omega
  · have same : ∀ o ∈ offsets (W.take n), t'.file.get o = t.file.get o := agree.look
    exact (run t' _ (enough t' same) same).trans (run t _ (enough t fun _ _ => rfl) fun _ _ => rfl).symm

namespace BPlusTree

/-- A search reads one block more than the tree is high, and the height grows with the
logarithm of the records. -/
theorem search_reads (t : BPlusTree) (key : Key) (wf : t.WellFormed) :
    (blockView.Reads t (t.info.height + 1) fun t => t.search key) ∧ t.info.height ≤ t.heightBound :=
  ⟨reads_search key wf.tall, wf.height_le⟩

theorem search_reads_packed : Packed.tree.WellFormed ∧
    (blockView.Reads Packed.tree (Packed.tree.info.height + 1) fun t => t.search (Packed.number 5)) ∧
      Packed.tree.info.height ≤ Packed.tree.heightBound :=
  ⟨packed_wellFormed, search_reads Packed.tree (Packed.number 5) packed_wellFormed⟩

/-- A page of a range reads two descents and the leaves that the page is taken from. -/
theorem searchRange_reads (t : BPlusTree) (left : Option Key) (right : Key) (max : Nat) (wantNext : Bool)
    (wf : t.WellFormed) : blockView.Reads t (2 * t.heightBound + leafBound max) fun t =>
      t.searchRange left right max wantNext := by
  cases left with
  | none => exact (View.Reads.const _).mono (Nat.zero_le _)
  | some left =>
    by_cases ordered : left ≤ right
    · have notMore : ¬ 0 < keycmp left right := not_lt.mpr (keycmp_nonpos.mpr ordered)
      have wide (k : Key) : blockView.Reads t t.heightBound fun t => t.searchLeaf k :=
        (reads_searchLeaf k wf.tall).mono wf.height_le
      obtain ⟨leaves, bounds, levels, shape⟩ := wf.shaped
      simp only [searchRange, bound_file, notMore, if_false]
      rw [Nat.two_mul, Nat.add_assoc]
      refine (wide left).bind fun offLeft foundLeft => (wide right).bind fun offRight foundRight => ?_
      obtain ⟨n, values, pending, few, few', walk, reads⟩ :=
        shape.reads_rangeWalk ordered max foundLeft foundRight
      by_cases room : values.length < max
      · refine (reads.bind fun walked same => ?_).mono (few' room)
        obtain rfl := Except.ok.inj (walk.symm.trans same)
        simp only [room, if_true]
        exact (reads_map Record offRight).bind fun leaf _ => View.Reads.const _
      · refine (reads.bind (n := 0) fun walked same => ?_).mono few
        obtain rfl := Except.ok.inj (walk.symm.trans same)
        simp only [room, if_false]
        exact View.Reads.const _
    · have greater : 0 < keycmp left right := by
        by_contra less
        exact ordered (keycmp_nonpos.mp (not_lt.mp less))
      simp only [searchRange, if_pos greater]
      exact (View.Reads.const _).mono (Nat.zero_le _)

theorem searchRange_reads_packed : Packed.tree.WellFormed ∧
    blockView.Reads Packed.tree (2 * Packed.tree.heightBound + leafBound 12) fun t =>
      t.searchRange (some (Packed.number 5)) (Packed.number 14) 12 true :=
  ⟨packed_wellFormed,
    searchRange_reads Packed.tree (some (Packed.number 5)) (Packed.number 14) 12 true packed_wellFormed⟩

end BPlusTree
end Fdfs2qq.Bpt
