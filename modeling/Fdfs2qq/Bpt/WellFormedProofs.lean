import Mathlib.Algebra.BigOperators.Group.List.Basic
import Fdfs2qq.Bpt.Shape
import Fdfs2qq.Bpt.WellFormed

/-! Well-formed trees and trees with given rows are the same. -/
namespace Fdfs2qq.Bpt
open Lib

section Places

variable {hi lo : Option Key} {xs A B : List ((Offset × Offset) × Key)} {x y : (Offset × Offset) × Key}
  {p : Place}

theorem placesBetween_ids (hi lo : Option Key) (xs : List ((Offset × Offset) × Key)) :
    (placesBetween hi lo xs).map (fun p => (p.off, p.parent)) = xs.map Prod.fst := by
  induction xs generalizing lo with
  | nil => rfl
  | cons x xs ih =>
    cases xs with
    | nil => rfl
    | cons y ys => simpa [placesBetween] using ih (some x.2)

theorem placesBetween_append (hi lo : Option Key) (A : List ((Offset × Offset) × Key))
    (x y : (Offset × Offset) × Key) (B : List ((Offset × Offset) × Key)) :
    placesBetween hi lo (A ++ x :: y :: B) =
      placesBetween (some x.2) lo (A ++ [x]) ++ placesBetween hi (some x.2) (y :: B) := by
  induction A generalizing lo with
  | nil => rfl
  | cons a A ih =>
    cases A with
    | nil => simp [placesBetween]
    | cons b A => simpa [placesBetween] using ih (some a.2)

theorem placesBetween_cons (hi lo : Option Key) (x : (Offset × Offset) × Key)
    (B : List ((Offset × Offset) × Key)) : placesBetween hi lo (x :: B) =
      ⟨x.1.1, x.1.2, lo, if B = [] then hi else some x.2⟩ :: placesBetween hi (some x.2) B := by
  cases B <;> rfl

theorem placesBetween_concat (hi lo : Option Key) (A : List ((Offset × Offset) × Key))
    (x : (Offset × Offset) × Key) : placesBetween hi lo (A ++ [x]) =
      placesBetween (A.getLast?.map Prod.snd) lo A ++
        [⟨x.1.1, x.1.2, (A.getLast?.map Prod.snd).or lo, hi⟩] := by
  rcases List.eq_nil_or_concat' A with rfl | ⟨A, y, rfl⟩
  · rfl
  · rw [List.append_assoc, List.singleton_append, placesBetween_append]
    simp [placesBetween]

theorem placesBetween_at (hi lo : Option Key) (A : List ((Offset × Offset) × Key))
    (x : (Offset × Offset) × Key) (B : List ((Offset × Offset) × Key)) :
    placesBetween hi lo (A ++ x :: B) = placesBetween (A.getLast?.map Prod.snd) lo A ++
      ⟨x.1.1, x.1.2, (A.getLast?.map Prod.snd).or lo, if B = [] then hi else some x.2⟩ ::
        placesBetween hi (some x.2) B := by
  cases B with
  | nil => exact placesBetween_concat hi lo A x
  | cons y B =>
    rw [placesBetween_append, placesBetween_concat]
    simp

/-- The key given with the last node does not matter. -/
theorem placesBetween_sameInit {ids : List (Offset × Offset)} {ks ks' : List Key}
    (same : SameInit ks ks') (len : ks.length = ids.length) (hi lo : Option Key) :
    placesBetween hi lo (ids.zip ks) = placesBetween hi lo (ids.zip ks') := by
  induction ids generalizing lo ks ks' with
  | nil => rfl
  | cons id ids ih =>
    obtain ⟨k, ks, rfl⟩ := List.exists_cons_of_ne_nil (show ks ≠ [] from fun empty => by simp [empty] at len)
    obtain ⟨k', ks', rfl⟩ := List.exists_cons_of_ne_nil
      (show ks' ≠ [] from fun vacant => by simpa using same.nil_iff.mpr vacant)
    obtain ⟨-, here, after⟩ := SameInit.split (show SameInit ([] ++ k :: ks) ([] ++ k' :: ks') from same) rfl
    simp only [List.length_cons, Nat.add_right_cancel_iff] at len
    cases ids with
    | nil => rfl
    | cons id' ids =>
      obtain ⟨l, ks, rfl⟩ := List.exists_cons_of_ne_nil
        (show ks ≠ [] from fun nothing => by simp [nothing] at len)
      obtain ⟨l', ks', rfl⟩ := List.exists_cons_of_ne_nil
        (show ks' ≠ [] from fun bare => by simpa using after.nil_iff.mpr bare)
      have rest := ih after len (some k')
      obtain rfl := here (by simp)
      simpa [placesBetween] using rest

theorem mem_placesBetween (mem : p ∈ placesBetween hi lo xs) :
    ∃ A x B, xs = A ++ x :: B ∧ p = ⟨x.1.1, x.1.2, (A.getLast?.map Prod.snd).or lo,
      if B = [] then hi else some x.2⟩ := by
  induction xs generalizing lo with
  | nil => simp [placesBetween] at mem
  | cons x xs ih =>
    cases xs with
    | nil =>
      obtain rfl := List.mem_singleton.mp mem
      exact ⟨[], x, [], rfl, rfl⟩
    | cons y ys =>
      rcases List.mem_cons.mp mem with rfl | mem
      · exact ⟨[], x, y :: ys, rfl, rfl⟩
      · obtain ⟨A, z, B, split, rfl⟩ := ih mem
        refine ⟨x :: A, z, B, by rw [split]; rfl, ?_⟩
        cases A <;> simp [List.getLast?_cons]

end Places

theorem ids_zip_uppers (row : List (Cell Index)) :
    (ids row).zip (uppers row) = row.map fun c => ((c.off, c.parent), lastKey c) := List.zip_map' ..

/-- The slots of a node as its children and the keys after them. -/
def marks (c : Cell Index) : List ((Offset × Offset) × Key) :=
  c.items.map fun e => ((e.child, c.off), e.key)

theorem kids_zip_rowKeys (row : List (Cell Index)) :
    (kids row).zip (rowKeys row) = row.flatMap marks := by
  induction row with
  | nil => rfl
  | cons c row ih =>
    rw [kids_cons, rowKeys_cons, List.zip_append (by simp), ih, List.flatMap_cons, marks, slotKids,
      List.zip_map']

theorem childPlaces_of_holds {f : File} {c : Cell Index} (held : c.Holds f next prev)
    (parent : Offset) (lo hi : Option Key) :
    f.childPlaces ⟨c.off, parent, lo, hi⟩ = placesBetween hi lo (marks c) := by
  have read : f.get c.off = some ⟨⟨c.parent, next, prev⟩, .internal c.items⟩ := held
  simp only [File.childPlaces, read, marks]

theorem childPlaces_offs {f : File} {row : List (Cell Index)} {named : List (Offset × Offset)}
    (same : named.map Prod.fst = offsets row) (held : ∀ c ∈ row, ∃ next prev, c.Holds f next prev)
    (nonempty : ∀ c ∈ row, c.items ≠ []) (hi lo : Option Key) :
    (placesBetween hi lo (named.zip (uppers row))).flatMap f.childPlaces =
      placesBetween hi lo ((kids row).zip (rowKeys row)) := by
  rw [kids_zip_rowKeys]
  induction row generalizing named lo with
  | nil =>
    obtain rfl := List.map_eq_nil_iff.mp same
    rfl
  | cons c row ih =>
    obtain ⟨⟨o, parent⟩, named, rfl, rfl, others⟩ := List.map_eq_cons_iff.mp same
    obtain ⟨next, prev, heldC⟩ := held c (by simp)
    cases row with
    | nil =>
      obtain rfl := List.map_eq_nil_iff.mp others
      simpa [placesBetween] using childPlaces_of_holds heldC parent lo hi
    | cons d row =>
      have here := childPlaces_of_holds heldC parent lo (some (lastKey c))
      have rest := ih others (fun e mem => held e (by simp [mem]))
        (fun e mem => nonempty e (by simp [mem])) (some (lastKey c))
      obtain ⟨⟨o', parent'⟩, named, rfl, -, -⟩ := List.map_eq_cons_iff.mp others
      obtain ⟨Z, z, items⟩ := (List.eq_nil_or_concat' c.items).resolve_left (nonempty c (by simp))
      obtain ⟨g, G, items'⟩ := List.exists_cons_of_ne_nil (nonempty d (by simp))
      have split : marks c = Z.map (fun e => ((e.child, c.off), e.key)) ++ [((z.child, c.off), lastKey c)] := by
        simp [marks, items, lastKey_concat items]
      have next_ : (d :: row).flatMap marks =
          ((g.child, d.off), g.key) :: (G.map (fun e => ((e.child, d.off), e.key)) ++ row.flatMap marks) := by
        simp [marks, items']
      simp only [uppers_cons, List.zip_cons_cons, placesBetween, List.flatMap_cons] at rest ⊢
      rw [here, rest, ← List.flatMap_cons, next_, split, List.append_assoc]
      exact (placesBetween_append hi lo _ ((z.child, c.off), lastKey c) _ _).symm

theorem childPlaces_row {f : File} {row : List (Cell Index)}
    (held : ∀ c ∈ row, ∃ next prev, c.Holds f next prev) (nonempty : ∀ c ∈ row, c.items ≠ [])
    (hi lo : Option Key) :
    (placesBetween hi lo ((ids row).zip (uppers row))).flatMap f.childPlaces =
      placesBetween hi lo ((kids row).zip (rowKeys row)) :=
  childPlaces_offs (offsets_eq_ids row).symm held nonempty hi lo

theorem File.DoublyLinked.of_row [NodeType α] {f : File} {row : List (Cell α)} (linked : LinkedRow f row) :
    f.DoublyLinked (offsets row) :=
  (Linked.map_iff row).mpr (linked.frame fun _ _ _ _ held => ⟨_, held, rfl, rfl⟩)

variable {t : BPlusTree} {lower : List (Offset × Offset)} {bounds : List Key}
  {levels : List (List (Cell Index))} {leaves : List (Cell Record)}

namespace Tower

theorem row_eq (tower : Tower t.file t.info.rootOffset lower bounds levels)
    (len : bounds.length = lower.length) :
    t.row levels.length = placesBetween none none (lower.zip bounds) := by
  induction tower with
  | @top bounds =>
    obtain ⟨k, rfl⟩ := List.length_eq_one_iff.mp len
    rfl
  | @level row lower bounds rest linked listed keyed sized upper ih =>
    show (t.row rest.length).flatMap t.file.childPlaces = _
    rw [ih (by simp), childPlaces_row (fun c mem => linked.mem mem) sized.nonempty, listed]
    exact placesBetween_sameInit keyed (by rw [length_rowKeys, listed]) none none

theorem offs_row (tower : Tower t.file t.info.rootOffset lower bounds levels)
    (len : bounds.length = lower.length) :
    (t.row levels.length).map Place.off = lower.map Prod.fst := by
  have same := congrArg (List.map Prod.fst) (placesBetween_ids none none (lower.zip bounds))
  rw [← tower.row_eq len, List.map_map, List.map_fst_zip (by omega)] at same
  exact same

theorem offsetsTo_perm (tower : Tower t.file t.info.rootOffset lower bounds levels)
    (len : bounds.length = lower.length) :
    (t.offsetsTo levels.length).Perm (lower.map Prod.fst ++ levelOffs levels) := by
  have here := tower.offs_row len
  induction tower with
  | top => exact .refl _
  | @level row lower bounds rest linked listed keyed sized upper ih =>
    have above := upper.offs_row (by simp)
    have split : t.offsetsTo (row :: rest).length =
        t.offsetsTo rest.length ++ (t.row (rest.length + 1)).map Place.off := by
      simp [BPlusTree.offsetsTo, List.range_succ]
    rw [split, ← here, levelOffs_cons, offsets_eq_ids]
    exact List.perm_append_comm.trans (List.Perm.append_left _ (ih (by simp) above))

theorem countNodes_eq (tower : Tower t.file t.info.rootOffset lower bounds levels) :
    ((List.range levels.length).map fun d => (t.row d).length).sum = countNodes levels := by
  induction tower with
  | top => rfl
  | @level row lower bounds rest linked listed keyed sized upper ih =>
    have len : (t.row rest.length).length = row.length := by
      simpa using congrArg List.length (upper.offs_row (by simp))
    simp only [List.length_cons, List.range_succ, List.map_append, List.sum_append, ih,
      List.map_cons, List.map_nil, List.sum_singleton, len, countNodes_cons]
    omega

end Tower

structure RowAt (t : BPlusTree) (d : Nat) (cells : List (Cell Index)) : Prop where
  linked : LinkedRow t.file cells
  places : t.row d = placesBetween none none ((ids cells).zip (uppers cells))
  sized : Sized (d = 0) cells
  ascending : Ascending (rowKeys cells)

theorem Tower.rowAt (tower : Tower t.file t.info.rootOffset lower bounds levels)
    (asc : Ascending bounds) : ∀ d < levels.length, ∃ cells, RowAt t d cells := by
  induction tower with
  | top => simp
  | @level row lower bounds rest linked listed keyed sized upper ih =>
    intro d less
    have ascRow := asc.of_sameInit keyed
    rcases Nat.lt_succ_iff_lt_or_eq.mp less with inner | rfl
    · exact ih (ascRow.uppers sized.nonempty) d inner
    · exact ⟨row, linked, upper.row_eq (by simp), by simpa using sized, ascRow⟩

namespace RowAt

variable {d : Nat} {cells L R : List (Cell Index)} {c : Cell Index} {p : Place}

theorem offs (at_ : RowAt t d cells) : (t.row d).map Place.off = offsets cells := by
  have same := congrArg (List.map Prod.fst) (placesBetween_ids none none ((ids cells).zip (uppers cells)))
  rw [← at_.places, List.map_map, List.map_fst_zip (by simp)] at same
  rw [offsets_eq_ids]
  exact same

theorem length_below (at_ : RowAt t d cells) : (t.row (d + 1)).length = (kids cells).length := by
  show ((t.row d).flatMap t.file.childPlaces).length = _
  rw [at_.places, childPlaces_row (fun c mem => at_.linked.mem mem) at_.sized.nonempty]
  have same := congrArg List.length (placesBetween_ids none none ((kids cells).zip (rowKeys cells)))
  simpa [length_rowKeys] using same

theorem cell_of_mem (at_ : RowAt t d cells) (mem : p ∈ t.row d) :
    ∃ L c R, cells = L ++ c :: R ∧ p = ⟨c.off, c.parent, L.getLast?.map lastKey,
      if R = [] then none else some (lastKey c)⟩ := by
  rw [at_.places, ids_zip_uppers] at mem
  obtain ⟨A, x, B, split, rfl⟩ := mem_placesBetween mem
  obtain ⟨L, rest, rfl, rfl, tail⟩ := List.map_eq_append_iff.mp split
  obtain ⟨c, R, rfl, rfl, rfl⟩ := List.map_eq_cons_iff.mp tail
  refine ⟨L, c, R, rfl, ?_⟩
  simp [Function.comp_def]

theorem inside (at_ : RowAt t d (L ++ c :: R)) :
    (c.items.dropLast.map Index.key).Pairwise (· < ·) ∧
      ∀ k ∈ c.items.dropLast.map Index.key,
        (∀ l ∈ L.getLast?.map lastKey, l < k) ∧ (R ≠ [] → k < lastKey c) := by
  obtain ⟨Z, z, items⟩ := (List.eq_nil_or_concat' c.items).resolve_left (at_.sized.nonempty c (by simp))
  have last : lastKey c = z.key := lastKey_concat items
  have asc := at_.ascending
  rw [rowKeys_append, rowKeys_cons, items, List.map_append, Ascending,
    List.dropLast_append_of_ne_nil (by simp), List.pairwise_append] at asc
  obtain ⟨-, here, across⟩ := asc
  have sub : (Z.map Index.key).Sublist
      ((Z.map Index.key ++ [z].map Index.key) ++ rowKeys R).dropLast := by
    rw [List.append_assoc, List.dropLast_append_of_ne_nil (by simp)]
    exact List.sublist_append_left _ _
  rw [items, List.dropLast_concat]
  refine ⟨here.sublist sub, fun k mem => ⟨fun l before => ?_, fun later => ?_⟩⟩
  · obtain ⟨d, inL, rfl⟩ := Option.map_eq_some_iff.mp before
    have inside := List.mem_of_mem_getLast? inL
    refine across _ ?_ k (sub.subset mem)
    exact List.mem_flatMap.mpr ⟨d, inside, lastKey_mem (at_.sized.nonempty d (by simp [inside]))⟩
  · obtain ⟨d, R', rfl⟩ := List.exists_cons_of_ne_nil later
    have filled : rowKeys (d :: R') ≠ [] := by
      have := at_.sized.nonempty d (by simp)
      simp [this]
    rw [List.dropLast_append_of_ne_nil filled, List.append_assoc, List.pairwise_append] at here
    rw [last]
    exact here.2.2 k mem z.key (by simp)

theorem internalAt (at_ : RowAt t d cells)
    (several : d = 0 → ∀ c ∈ cells, 2 ≤ c.items.length ∨
      c.items.length = 1 ∧ t.info.leafNodeNum = 1) :
    ∀ p ∈ t.row d, t.InternalAt d p := by
  intro p mem
  obtain ⟨L, c, R, rfl, rfl⟩ := at_.cell_of_mem mem
  obtain ⟨next, prev, held⟩ := at_.linked.mem (show c ∈ L ++ c :: R by simp)
  obtain ⟨sorted, inside⟩ := at_.inside
  refine ⟨c.node next prev, by rw [held.map]; rfl, rfl, sorted, fun k mem => ⟨(inside k mem).1, fun h upper => ?_⟩, fun h upper => ?_,
    at_.sized.atMost c (by simp), ?_⟩
  · split at upper
    · simp at upper
    · obtain rfl := Option.some.inj upper
      exact (inside k mem).2 ‹_›
  · split at upper
    · simp at upper
    · obtain rfl := Option.some.inj upper
      obtain ⟨Z, z, items⟩ :=
        (List.eq_nil_or_concat' c.items).resolve_left (at_.sized.nonempty c (by simp))
      simp [Cell.node, items, lastKey_concat items]
  · split
    · exact several ‹_› c (by simp)
    · exact at_.sized.atLeast ‹_› c (by simp)

end RowAt

/-- A leaf takes exactly the keys that are routed to it. -/
theorem takes_iff {U V : List Key} {u k : Key} {x : Cell Record} {B : List (Cell Record)}
    (asc : Ascending (U ++ u :: V)) (len : V.length = B.length) :
    (⟨x.off, x.parent, U.getLast?, if B = [] then none else some u⟩ : Place).Takes k ↔ Routes k U u V := by
  have empty : V = [] ↔ B = [] := by rw [← List.length_eq_zero_iff, len, List.length_eq_zero_iff]
  constructor
  · rintro ⟨lower, upper⟩
    constructor
    · intro a mem
      obtain ⟨W, l, rfl⟩ := (List.eq_nil_or_concat' U).resolve_left (List.ne_nil_of_mem mem)
      refine le_trans ?_ (lower l (by simp))
      obtain inside | last := List.mem_append.mp mem
      · rw [Ascending, List.dropLast_append_of_ne_nil (List.cons_ne_nil u V), List.pairwise_append] at asc
        exact ((List.pairwise_append.mp asc.1).2.2 a inside l (by simp)).le
      · exact (List.mem_singleton.mp last).le
    · intro more
      exact upper u (by rw [if_neg (mt empty.mpr more)]; rfl)
  · rintro ⟨above, below⟩
    refine ⟨fun l mem => above l (List.mem_of_mem_getLast? mem), fun h mem => ?_⟩
    split at mem
    next => cases mem
    next more =>
      obtain rfl := Option.some.inj mem
      exact below (mt empty.mp more)

namespace Shape

variable (shape : Shape t leaves bounds levels)
include shape

theorem row_height :
    t.row t.info.height = placesBetween none none ((ids leaves).zip bounds) := by
  rw [shape.height]
  exact shape.tower.row_eq (by simpa using shape.fenced.len)

theorem offs_height : (t.row t.info.height).map Place.off = offsets leaves := by
  rw [shape.height, shape.tower.offs_row (by simpa using shape.fenced.len), offsets_eq_ids]

theorem length_height : (t.row t.info.height).length = leaves.length := by
  simpa [offsets] using congrArg List.length shape.offs_height

theorem rowAt : ∀ d < t.info.height, ∃ cells, RowAt t d cells := by
  rw [shape.height]
  exact shape.tower.rowAt shape.fenced.ascending

theorem mem_leafPlaces : p ∈ t.row t.info.height ↔
    ∃ A x B U u V, leaves = A ++ x :: B ∧ bounds = U ++ u :: V ∧ U.length = A.length ∧
      p = ⟨x.off, x.parent, U.getLast?, if B = [] then none else some u⟩ := by
  have zips : (ids leaves).zip bounds = (leaves.zip bounds).map fun x => ((x.1.off, x.1.parent), x.2) := by
    rw [ids, List.zip_map_left]
    rfl
  have last {A : List (Cell Record)} {U : List Key} (len : U.length = A.length) :
      ((A.zip U).map fun x => ((x.1.off, x.1.parent), x.2)).getLast?.map Prod.snd = U.getLast? := by
    rw [List.getLast?_map, Option.map_map, ← List.getLast?_map]
    congr 1
    exact List.map_snd_zip len.le
  rw [shape.row_height, zips]
  constructor
  · intro mem
    obtain ⟨P, x, S, split, rfl⟩ := mem_placesBetween mem
    obtain ⟨P, rest, cut, rfl, tail⟩ := List.map_eq_append_iff.mp split
    obtain ⟨⟨c, k⟩, S, rfl, rfl, rfl⟩ := List.map_eq_cons_iff.mp tail
    have whole : leaves = (P ++ (c, k) :: S).map Prod.fst := cut ▸ (List.map_fst_zip shape.fenced.len.ge).symm
    have whole' : bounds = (P ++ (c, k) :: S).map Prod.snd := cut ▸ (List.map_snd_zip shape.fenced.len.le).symm
    rw [List.map_append, List.map_cons] at whole whole'
    have parts : P = (P.map Prod.fst).zip (P.map Prod.snd) := by
      rw [← List.unzip_fst, ← List.unzip_snd, List.zip_unzip]
    refine ⟨_, c, _, _, k, _, whole, whole', by simp, ?_⟩
    conv_lhs => rw [parts, last (by simp)]
    simp
  · rintro ⟨A, x, B, U, u, V, rfl, rfl, len, rfl⟩
    rw [List.zip_append len.symm, List.zip_cons_cons, List.map_append, List.map_cons, placesBetween_at,
      last len]
    have empty : B.zip V = [] ↔ B = [] := by
      have lens := shape.fenced.len
      simp only [List.length_append, List.length_cons] at lens
      rw [List.zip_eq_nil_iff]
      constructor
      · rintro (vacant | vacant)
        · exact vacant
        · rw [vacant, List.length_nil] at lens
          exact List.length_eq_zero_iff.mp (by omega)
      · exact .inl
    simp only [Option.or_none, List.map_eq_nil_iff, List.mem_append, List.mem_cons, empty, true_or, or_true]

theorem leafAt : ∀ p ∈ t.row t.info.height, t.LeafAt p := by
  intro p inRow
  obtain ⟨A, x, B, U, u, V, rfl, rfl, len, rfl⟩ := shape.mem_leafPlaces.mp inRow
  obtain ⟨around, _, routed⟩ := Fenced.around (M := [x]) (W := []) shape.fenced len rfl
  obtain ⟨_, held, _⟩ := LinkedRow.at_iff.mp shape.linked
  refine ⟨x.node (firstOff B) (lastOff A), by rw [held.map]; rfl, rfl, shape.fenced.sorted x (by simp),
    fun r mem => ?_, shape.filled.atMost x (by simp), ?_⟩
  · apply (takes_iff shape.fenced.ascending around.lenB).mpr
    exact routed x (by simp) r mem
  · rw [shape.leafNodeNum]
    rcases Nat.lt_or_ge 1 (A ++ x :: B).length with many | one
    · exact Or.inr (shape.filled.atLeast many x (by simp))
    · exact Or.inl (Nat.le_antisymm one (List.length_pos_iff.mpr (by simp)))

theorem several (at_ : RowAt t 0 cells) : ∀ c ∈ cells, 2 ≤ c.items.length ∨
    c.items.length = 1 ∧ t.info.leafNodeNum = 1 := by
  have tall : 0 < levels.length := List.length_pos_iff.mpr shape.indexed
  have one : cells.length = 1 := by
    simpa [offsets, BPlusTree.row] using (congrArg List.length at_.offs).symm
  obtain ⟨c, rfl⟩ := List.length_eq_one_iff.mp one
  have below := at_.length_below
  simp only [kids_cons, kids_nil, List.append_nil, length_slotKids] at below
  intro d mem
  obtain rfl := List.mem_singleton.mp mem
  rw [← below]
  rcases Nat.lt_or_ge 1 t.info.height with high | low
  · obtain ⟨cells', at'⟩ := shape.rowAt 1 high
    have two := at'.sized.several (by simp)
    have len : (t.row 1).length = cells'.length := by
      simpa [offsets] using congrArg List.length at'.offs
    exact Or.inl (len ▸ two)
  · have height : t.info.height = 1 := by rw [shape.height] at low ⊢; omega
    have len := shape.length_height
    have filled := List.length_pos_iff.mpr shape.leaves_ne_nil
    rw [shape.leafNodeNum]
    simp only [height, Nat.zero_add] at len below ⊢
    omega

theorem wellFormed (laid : t.EndToEnd) : t.WellFormed := by
  have perm := shape.tower.offsetsTo_perm (by simpa using shape.fenced.len)
  rw [← shape.height, ← offsets_eq_ids] at perm
  refine ⟨shape.order, ?_, fun d less => ?_, shape.leafAt, fun d less => ?_, ?_, ?_, ?_, ?_, ?_, laid⟩
  · rw [shape.height]
    exact List.length_pos_iff.mpr shape.indexed
  · obtain ⟨cells, at_⟩ := shape.rowAt d less
    apply at_.internalAt
    intro top
    subst top
    exact shape.several at_
  · rcases Nat.lt_succ_iff_lt_or_eq.mp less with inner | rfl
    · obtain ⟨cells, at_⟩ := shape.rowAt d inner
      rw [at_.offs]
      exact .of_row at_.linked
    · rw [shape.offs_height]
      exact .of_row shape.linked
  · rw [shape.internalNodeNum, shape.height, shape.tower.countNodes_eq]
  · rw [shape.leafNodeNum, shape.length_height]
  · obtain ⟨c, rest, rfl⟩ := List.exists_cons_of_ne_nil shape.leaves_ne_nil
    rw [← List.head?_map, shape.offs_height, shape.leafOffset]
    rfl
  · exact perm.nodup_iff.mpr shape.placed.distinct
  · intro o mem
    have inside := perm.mem_iff.mp mem
    exact ⟨Nat.pos_of_ne_zero fun zero => shape.placed.positive (zero ▸ inside),
      shape.placed.allocated o inside⟩

theorem leafRecords_eq : ∀ c ∈ leaves, t.file.leafRecords c.off = c.items := by
  intro c mem
  obtain ⟨next, prev, held⟩ := shape.linked.mem mem
  have block : t.file.get c.off = some ⟨⟨c.parent, next, prev⟩, .leaf c.items⟩ := held
  simp only [File.leafRecords, block]

theorem records_eq : t.records = contents leaves := by
  have offs : t.records = ((t.row t.info.height).map Place.off).flatMap t.file.leafRecords := by
    rw [List.flatMap_map]
    rfl
  rw [offs, shape.offs_height, offsets, List.flatMap_map, contents]
  exact List.flatMap_congr shape.leafRecords_eq

end Shape

def internalCell (f : File) (p : Place) : Cell Index :=
  ⟨p.off, p.parent, match f.get p.off with
    | some ⟨_, .internal slots⟩ => slots
    | _ => []⟩

def leafCell (f : File) (p : Place) : Cell Record := ⟨p.off, p.parent, f.leafRecords p.off⟩

/-- The levels above depth `d`, the lowest first. -/
def rowsAbove (t : BPlusTree) : Nat → List (List (Cell Index))
  | 0 => []
  | d + 1 => (t.row d).map (internalCell t.file) :: rowsAbove t d

@[simp] theorem length_rowsAbove (t : BPlusTree) (d : Nat) : (rowsAbove t d).length = d := by
  induction d with
  | zero => rfl
  | succ d ih => rw [rowsAbove, List.length_cons, ih]

theorem countNodes_rowsAbove (t : BPlusTree) (d : Nat) :
    countNodes (rowsAbove t d) = ((List.range d).map fun d => (t.row d).length).sum := by
  induction d with
  | zero => rfl
  | succ d ih =>
    simp only [rowsAbove, countNodes_cons, ih, List.range_succ, List.map_append, List.map_cons,
      List.map_nil, List.sum_append, List.sum_singleton, List.length_map]
    omega

def placeIds (places : List Place) : List (Offset × Offset) := places.map fun p => (p.off, p.parent)

/-- The slots of an internal cell between the separators of its place. -/
structure Fits (p : Place) (c : Cell Index) : Prop where
  nonempty : c.items ≠ []
  sorted : (c.items.dropLast.map Index.key).Pairwise (· < ·)
  inside : ∀ k ∈ c.items.dropLast.map Index.key, p.Inside k
  last : ∀ h ∈ p.hi, lastKey c = h

section Cells

variable {f : File} {hi lo : Option Key} {xs : List ((Offset × Offset) × Key)} {p : Place} {d : Nat}

theorem ids_internalCell (f : File) (places : List Place) :
    ids (places.map (internalCell f)) = placeIds places := by
  simp [ids, placeIds, internalCell]

theorem ids_leafCell (f : File) (places : List Place) :
    ids (places.map (leafCell f)) = placeIds places := by
  simp [ids, placeIds, leafCell]

theorem uppers_fit (fits : ∀ p ∈ placesBetween hi lo xs, Fits p (internalCell f p)) :
    SameInit (xs.map Prod.snd) (uppers ((placesBetween hi lo xs).map (internalCell f))) := by
  induction xs generalizing lo with
  | nil => exact .refl _
  | cons x xs ih =>
    cases xs with
    | nil => exact ⟨rfl, rfl⟩
    | cons y ys =>
      have here := (fits ⟨x.1.1, x.1.2, lo, some x.2⟩ (List.mem_cons_self ..)).last x.2 rfl
      exact SameInit.append_cons (rfl : ([] : List Key) = [])  (fun _ => here.symm)
        (ih fun p mem => fits p (List.mem_cons_of_mem _ mem))

/-- The keys of a level ascend when its separators do. -/
theorem ascending_fit (fits : ∀ p ∈ placesBetween none lo xs, Fits p (internalCell f p))
    (asc : Ascending (xs.map Prod.snd)) (above : ∀ l ∈ lo, ∀ k ∈ (xs.map Prod.snd).dropLast, l < k) :
    Ascending (rowKeys ((placesBetween none lo xs).map (internalCell f))) ∧
      ∀ l ∈ lo, ∀ k ∈ (rowKeys ((placesBetween none lo xs).map (internalCell f))).dropLast, l < k := by
  induction xs generalizing lo with
  | nil => exact ⟨List.Pairwise.nil, by simp [placesBetween]⟩
  | cons x xs ih =>
    cases xs with
    | nil =>
      have fit := fits ⟨x.1.1, x.1.2, lo, none⟩ (List.mem_cons_self ..)
      simp only [placesBetween, List.map_cons, List.map_nil, rowKeys_cons, rowKeys_nil,
        List.append_nil, Ascending, ← List.map_dropLast]
      exact ⟨fit.sorted, fun l mem k inside => (fit.inside k inside).1 l mem⟩
    | cons y ys =>
      obtain ⟨first, rest⟩ : (∀ k ∈ ((y :: ys).map Prod.snd).dropLast, x.2 < k) ∧
          Ascending ((y :: ys).map Prod.snd) := by
        simpa [Ascending] using asc
      have fit := fits ⟨x.1.1, x.1.2, lo, some x.2⟩ (List.mem_cons_self ..)
      obtain ⟨tail, beyond⟩ := @ih (some x.2) (fun p mem => fits p (List.mem_cons_of_mem _ mem)) rest
        (by simpa using first)
      obtain ⟨Z, z, items⟩ := (List.eq_nil_or_concat' _).resolve_left fit.nonempty
      have last : z.key = x.2 := (lastKey_concat items).symm.trans (fit.last x.2 rfl)
      have sorted := fit.sorted
      have inside := fit.inside
      rw [items, List.dropLast_concat] at sorted inside
      have less : ∀ l ∈ lo, l < x.2 := fun l mem => above l mem x.2 (by simp)
      have filled : rowKeys ((placesBetween none (some x.2) (y :: ys)).map (internalCell f)) ≠ [] := by
        obtain ⟨q, qs, eq⟩ : ∃ q qs, placesBetween none (some x.2) (y :: ys) = q :: qs := by
          cases ys <;> exact ⟨_, _, rfl⟩
        have := (fits q (by simp [placesBetween, eq])).nonempty
        simp [eq, this]
      simp only [placesBetween, List.map_cons, rowKeys_cons, items, List.map_append, List.map_nil, last,
        Ascending, List.dropLast_append_of_ne_nil filled]
      constructor
      · rw [List.append_assoc, List.pairwise_append]
        refine ⟨sorted, List.pairwise_cons.mpr ⟨fun k mem => beyond x.2 rfl k mem, tail⟩, ?_⟩
        intro k mem k' mem'
        have small := (inside k mem).2 x.2 rfl
        rcases List.mem_cons.mp mem' with rfl | mem'
        · exact small
        · exact small.trans (beyond x.2 rfl k' mem')
      · intro l mem k mem'
        rw [List.append_assoc] at mem'
        rcases List.mem_append.mp mem' with mem' | mem'
        · exact (inside k mem').1 l mem
        · rcases List.mem_cons.mp mem' with rfl | mem'
          · exact less l mem
          · exact (less l mem).trans (beyond x.2 rfl k mem')

/-- Leaves whose records fit their places are fenced. -/
theorem apart_takes (takes : ∀ p ∈ placesBetween none lo xs, ∀ r ∈ f.leafRecords p.off, p.Takes r.key)
    (asc : Ascending (xs.map Prod.snd)) (above : ∀ l ∈ lo, ∀ k ∈ (xs.map Prod.snd).dropLast, l < k) :
    (((placesBetween none lo xs).map (leafCell f)).zip (xs.map Prod.snd)).Pairwise Before ∧
      ∀ l ∈ lo, ∀ c ∈ (placesBetween none lo xs).map (leafCell f), ∀ r ∈ c.items, l ≤ r.key := by
  induction xs generalizing lo with
  | nil => exact ⟨List.Pairwise.nil, by simp [placesBetween]⟩
  | cons x xs ih =>
    cases xs with
    | nil =>
      have fit := takes ⟨x.1.1, x.1.2, lo, none⟩ (List.mem_cons_self ..)
      refine ⟨List.pairwise_singleton _ _, fun l mem c inside r mem' => ?_⟩
      obtain rfl := List.mem_singleton.mp inside
      exact (fit r mem').1 l mem
    | cons y ys =>
      obtain ⟨first, rest⟩ : (∀ k ∈ ((y :: ys).map Prod.snd).dropLast, x.2 < k) ∧
          Ascending ((y :: ys).map Prod.snd) := by
        simpa [Ascending] using asc
      have fit := takes ⟨x.1.1, x.1.2, lo, some x.2⟩ (List.mem_cons_self ..)
      obtain ⟨tail, beyond⟩ := @ih (some x.2) (fun p mem => takes p (List.mem_cons_of_mem _ mem)) rest
        (by simpa using first)
      refine ⟨List.pairwise_cons.mpr ⟨?_, tail⟩, ?_⟩
      · rintro ⟨c, k⟩ inside
        exact ⟨fun r mem => (fit r mem).2 x.2 rfl, fun r mem => beyond x.2 rfl c (List.of_mem_zip inside).1 r mem⟩
      · intro l mem c inside r mem'
        rcases List.mem_cons.mp inside with rfl | inside
        · exact (fit r mem').1 l mem
        · exact (above l mem x.2 (by simp)).le.trans (beyond x.2 rfl c inside r mem')

end Cells

variable {p : Place} {d : Nat}

theorem BPlusTree.get_of_map_internal (t : BPlusTree) {node : Node Index}
    (found : node ∈ (t.map Index off).toOption) :
    t.file.get off = some ⟨node.toHeader, .internal node.children⟩ := by
  cases read : t.file.get off with
  | none => simp [map_eq, read, Except.toOption] at found
  | some b =>
    obtain ⟨h, slots | records⟩ := b <;> simp [map_eq, read, NodeType.children, Except.toOption] at found
    rw [← found]

theorem BPlusTree.get_of_map_leaf (t : BPlusTree) {node : Node Record}
    (found : node ∈ (t.map Record off).toOption) :
    t.file.get off = some ⟨node.toHeader, .leaf node.children⟩ := by
  cases read : t.file.get off with
  | none => simp [map_eq, read, Except.toOption] at found
  | some b =>
    obtain ⟨h, slots | records⟩ := b <;> simp [map_eq, read, NodeType.children, Except.toOption] at found
    rw [← found]

theorem BPlusTree.InternalAt.cell (at_ : t.InternalAt d p) :
    ∃ next prev slots, t.file.get p.off = some ⟨⟨p.parent, next, prev⟩, .internal slots⟩ ∧
      internalCell t.file p = ⟨p.off, p.parent, slots⟩ ∧ Fits p ⟨p.off, p.parent, slots⟩ ∧
      slots.length ≤ bpOrder ∧
      if d = 0 then 2 ≤ slots.length ∨ slots.length = 1 ∧ t.info.leafNodeNum = 1
      else bpOrder / 2 ≤ slots.length := by
  obtain ⟨node, found, owner, sorted, inside, last, atMost, atLeast⟩ := at_
  have read := t.get_of_map_internal found
  have nonempty : node.children ≠ [] := by
    intro empty
    rw [empty] at atLeast
    split at atLeast <;> simp [bpOrder] at atLeast
  refine ⟨node.next, node.prev, node.children, ?_, by simp [internalCell, read],
    ⟨nonempty, sorted, inside, fun u upper => ?_⟩, atMost, atLeast⟩
  · rw [read, ← owner]
  · have key := last u upper
    obtain ⟨Z, z, items⟩ := (List.eq_nil_or_concat' node.children).resolve_left nonempty
    simpa [items, lastKey] using key

theorem BPlusTree.LeafAt.cell (at_ : t.LeafAt p) :
    ∃ next prev records, t.file.get p.off = some ⟨⟨p.parent, next, prev⟩, .leaf records⟩ ∧
      leafCell t.file p = ⟨p.off, p.parent, records⟩ ∧ SortedBy Record.key records ∧
      (∀ r ∈ records, p.Takes r.key) ∧ records.length ≤ bpOrder ∧
      (t.info.leafNodeNum = 1 ∨ bpOrder / 2 ≤ records.length) := by
  obtain ⟨node, found, owner, sorted, takes, atMost, atLeast⟩ := at_
  have read := t.get_of_map_leaf found
  refine ⟨node.next, node.prev, node.children, ?_, by simp [leafCell, File.leafRecords, read], sorted,
    takes, atMost, atLeast⟩
  rw [read, ← owner]

namespace BPlusTree.WellFormed

variable (wf : t.WellFormed)
include wf

theorem length_childPlaces (less : d < t.info.height) (mem : p ∈ t.row d) :
    (t.file.childPlaces p).length = (internalCell t.file p).items.length := by
  obtain ⟨next, prev, slots, read, cell, -⟩ := (wf.internal d less p mem).cell
  have same := congrArg List.length (placesBetween_ids p.hi p.lo
    (slots.map fun slot => ((slot.child, p.off), slot.key)))
  rw [cell]
  simpa only [File.childPlaces, read, List.length_map] using same

theorem length_row_le (less : d < t.info.height) : (t.row d).length ≤ (t.row (d + 1)).length := by
  show _ ≤ ((t.row d).flatMap t.file.childPlaces).length
  rw [List.length_flatMap]
  have positive : ∀ n ∈ (t.row d).map fun p => (t.file.childPlaces p).length, 1 ≤ n := by
    intro n mem
    obtain ⟨p, inside, rfl⟩ := List.mem_map.mp mem
    obtain ⟨_, _, _, _, cell, fit, _⟩ := (wf.internal d less p inside).cell
    rw [wf.length_childPlaces less inside, cell]
    exact List.length_pos_iff.mpr fit.nonempty
  simpa using List.length_le_sum_of_one_le _ positive

theorem length_row_mono {d e : Nat} (le : d ≤ e) (within : e ≤ t.info.height) :
    (t.row d).length ≤ (t.row e).length := by
  induction e, le using Nat.le_induction with
  | base => exact le_rfl
  | succ e _ ih => exact (ih (by omega)).trans (wf.length_row_le (by omega))

/-- A row below the root has two nodes. -/
theorem two_le_length (inner : 0 < d) (less : d < t.info.height) : 2 ≤ (t.row d).length := by
  refine le_trans ?_ (wf.length_row_mono inner less.le)
  have high : 1 < t.info.height := by omega
  have root : (⟨t.info.rootOffset, 0, none, none⟩ : Place) ∈ t.row 0 := List.mem_singleton.mpr rfl
  obtain ⟨_, _, slots, _, cell, _, _, several⟩ := (wf.internal 0 (by omega) _ root).cell
  have len := wf.length_childPlaces (by omega) root
  rw [cell] at len
  have first : t.row 1 = t.file.childPlaces ⟨t.info.rootOffset, 0, none, none⟩ := by
    simp [BPlusTree.row]
  rw [first, len]
  rw [if_pos rfl] at several
  rcases several with two | ⟨one, single⟩
  · exact two
  · -- a single leaf cannot lie two levels below
    exfalso
    obtain ⟨q, rest, eq⟩ := List.exists_cons_of_ne_nil
      (show t.row 1 ≠ [] from fun empty => by
        rw [← first, empty] at len
        rw [← len] at one
        contradiction)
    have inRow : q ∈ t.row 1 := by simp [eq]
    obtain ⟨_, _, slots', _, cell', _, _, half⟩ := (wf.internal 1 high q inRow).cell
    have len' := wf.length_childPlaces high inRow
    have most := wf.length_row_mono (show 2 ≤ t.info.height from high) le_rfl
    have split : t.row 2 = t.file.childPlaces q ++ rest.flatMap t.file.childPlaces := by
      rw [show t.row 2 = (t.row 1).flatMap t.file.childPlaces from rfl, eq, List.flatMap_cons]
    rw [split, List.length_append, len', cell', ← wf.leafNodeNum, single] at most
    simp [bpOrder] at half
    simp only at most
    omega

theorem sized (less : d < t.info.height) : Sized (d = 0) ((t.row d).map (internalCell t.file)) := by
  refine ⟨fun c mem => ?_, fun c mem => ?_, fun low c mem => ?_, fun low => ?_⟩
  · obtain ⟨p, inside, rfl⟩ := List.mem_map.mp mem
    obtain ⟨_, _, _, _, cell, fit, _⟩ := (wf.internal d less p inside).cell
    exact cell ▸ fit.nonempty
  · obtain ⟨p, inside, rfl⟩ := List.mem_map.mp mem
    obtain ⟨_, _, _, _, cell, _, atMost, _⟩ := (wf.internal d less p inside).cell
    exact cell ▸ atMost
  · obtain ⟨p, inside, rfl⟩ := List.mem_map.mp mem
    obtain ⟨_, _, _, _, cell, _, _, half⟩ := (wf.internal d less p inside).cell
    rw [if_neg low] at half
    exact cell ▸ half
  · rw [List.length_map]
    exact wf.two_le_length (Nat.pos_of_ne_zero low) less

theorem linkedRow (less : d < t.info.height) :
    LinkedRow t.file ((t.row d).map (internalCell t.file)) := by
  have links := wf.linked d (by omega)
  have offs : (t.row d).map Place.off = ((t.row d).map (internalCell t.file)).map Cell.off := by
    simp [internalCell]
  rw [offs] at links
  apply ((Linked.map_iff _).mp links).frame
  intro c mem next prev held
  obtain ⟨p, inside, rfl⟩ := List.mem_map.mp mem
  obtain ⟨_, _, _, read, cell, _⟩ := (wf.internal d less p inside).cell
  obtain ⟨b, found, rfl, rfl⟩ := held
  rw [cell] at found ⊢
  rw [Option.mem_def, read] at found
  obtain rfl := Option.some.inj found
  exact read

theorem linkedLeaves : LinkedRow t.file ((t.row t.info.height).map (leafCell t.file)) := by
  have links := wf.linked t.info.height (by omega)
  have offs : (t.row t.info.height).map Place.off =
      ((t.row t.info.height).map (leafCell t.file)).map Cell.off := by simp [leafCell]
  rw [offs] at links
  apply ((Linked.map_iff _).mp links).frame
  intro c mem next prev held
  obtain ⟨p, inside, rfl⟩ := List.mem_map.mp mem
  obtain ⟨_, _, _, read, cell, _⟩ := (wf.leaf p inside).cell
  obtain ⟨b, found, rfl, rfl⟩ := held
  rw [cell] at found ⊢
  rw [Option.mem_def, read] at found
  obtain rfl := Option.some.inj found
  exact read

theorem tower (d : Nat) (within : d ≤ t.info.height) : ∃ ks : List Key,
    ks.length = (t.row d).length ∧ t.row d = placesBetween none none ((placeIds (t.row d)).zip ks) ∧
      Ascending ks ∧ Tower t.file t.info.rootOffset (placeIds (t.row d)) ks (rowsAbove t d) := by
  induction d with
  | zero => exact ⟨[Key.empty], rfl, rfl, List.Pairwise.nil, .top⟩
  | succ d ih =>
    obtain ⟨ks, len, places, asc, upper⟩ := ih (by omega)
    have less : d < t.info.height := by omega
    have sized := wf.sized less
    have linked := wf.linkedRow less
    have keys : ((placeIds (t.row d)).zip ks).map Prod.snd = ks :=
      List.map_snd_zip (by simp [placeIds, len])
    have fits : ∀ p ∈ placesBetween none none ((placeIds (t.row d)).zip ks),
        Fits p (internalCell t.file p) := by
      intro p mem
      rw [← places] at mem
      obtain ⟨_, _, _, _, cell, fit, _⟩ := (wf.internal d less p mem).cell
      exact cell ▸ fit
    have same := uppers_fit fits
    obtain ⟨ascRow, -⟩ := ascending_fit fits (keys.symm ▸ asc) (by simp)
    rw [← places] at same ascRow
    rw [keys] at same
    have idsRow := ids_internalCell t.file (t.row d)
    have row : t.row (d + 1) = placesBetween none none
        ((kids ((t.row d).map (internalCell t.file))).zip (rowKeys ((t.row d).map (internalCell t.file)))) := by
      rw [← childPlaces_row (fun c mem => linked.mem mem) sized.nonempty,
        ← placesBetween_sameInit same (by simp [idsRow, placeIds, len]), idsRow, ← places]
      rfl
    have ids : placeIds (t.row (d + 1)) = kids ((t.row d).map (internalCell t.file)) := by
      rw [row, placeIds, placesBetween_ids, List.map_fst_zip (by rw [length_rowKeys])]
    refine ⟨rowKeys ((t.row d).map (internalCell t.file)), ?_, ids ▸ row, ascRow, ?_⟩
    · rw [length_rowKeys, ← ids, placeIds, List.length_map]
    · have top : d = 0 ↔ rowsAbove t d = [] := by cases d <;> simp [rowsAbove]
      exact .level linked ids.symm (.refl _) (by simpa only [top] using sized)
        (idsRow ▸ upper.of_sameInit same)

theorem fenced {ks : List Key} (len : ks.length = (t.row t.info.height).length)
    (places : t.row t.info.height = placesBetween none none ((placeIds (t.row t.info.height)).zip ks))
    (asc : Ascending ks) : Fenced ((t.row t.info.height).map (leafCell t.file)) ks := by
  have keys : ((placeIds (t.row t.info.height)).zip ks).map Prod.snd = ks :=
    List.map_snd_zip (by simp [placeIds, len])
  refine ⟨by simp [len], fun c mem => ?_, asc, ?_⟩
  · obtain ⟨p, inside, rfl⟩ := List.mem_map.mp mem
    obtain ⟨_, _, _, _, cell, sorted, _⟩ := (wf.leaf p inside).cell
    exact cell ▸ sorted
  · have takes : ∀ p ∈ placesBetween none none ((placeIds (t.row t.info.height)).zip ks),
        ∀ r ∈ t.file.leafRecords p.off, p.Takes r.key := by
      intro p mem
      rw [← places] at mem
      obtain ⟨_, _, records, read, _, _, takes, _⟩ := (wf.leaf p mem).cell
      simpa only [File.leafRecords, read] using takes
    have apart := (apart_takes takes (keys.symm ▸ asc) (by simp)).1
    rwa [← places, keys] at apart

theorem placed : Placed t.info.slot (offsets ((t.row t.info.height).map (leafCell t.file)) ++
    levelOffs (rowsAbove t t.info.height)) := by
  have whole : Placed t.info.slot (t.offsetsTo t.info.height) :=
    ⟨wf.distinct, fun zero => absurd (wf.allocated 0 zero).1 (Nat.lt_irrefl 0),
      fun o mem => (wf.allocated o mem).2⟩
  obtain ⟨ks, len, _, _, tower⟩ := wf.tower t.info.height le_rfl
  have perm := tower.offsetsTo_perm (by simp [placeIds, len])
  rw [length_rowsAbove, ← ids_leafCell t.file, ← offsets_eq_ids] at perm
  exact whole.perm perm

theorem shape : ∃ bounds, Shape t ((t.row t.info.height).map (leafCell t.file)) bounds
    (rowsAbove t t.info.height) := by
  obtain ⟨ks, len, places, asc, tower⟩ := wf.tower t.info.height le_rfl
  refine ⟨ks, wf.linkedLeaves, ?_, ?_, wf.fenced len places asc, ⟨fun c mem => ?_, fun many c mem => ?_⟩,
    wf.placed, wf.order, (length_rowsAbove t _).symm, ?_, ?_, ?_⟩
  · rw [ids_leafCell]
    exact tower
  · intro empty
    have := congrArg List.length empty
    have tall := wf.tall
    rw [length_rowsAbove, List.length_nil] at this
    omega
  · obtain ⟨p, inside, rfl⟩ := List.mem_map.mp mem
    obtain ⟨_, _, _, _, cell, _, _, atMost, _⟩ := (wf.leaf p inside).cell
    exact cell ▸ atMost
  · obtain ⟨p, inside, rfl⟩ := List.mem_map.mp mem
    obtain ⟨_, _, _, _, cell, _, _, _, half⟩ := (wf.leaf p inside).cell
    rw [List.length_map] at many
    exact cell ▸ half.resolve_left (by rw [wf.leafNodeNum]; omega)
  · rw [wf.leafNodeNum, List.length_map]
  · rw [wf.internalNodeNum, countNodes_rowsAbove]
  · have first := wf.leafOffset
    cases row : t.row t.info.height with
    | nil => simp [row] at first
    | cons p rest =>
      simp only [row, List.head?_cons, Option.map_some, Option.some.injEq] at first
      exact first

end BPlusTree.WellFormed

theorem BPlusTree.WellFormed.shaped (wf : t.WellFormed) : ∃ leaves bounds levels, Shape t leaves bounds levels :=
  ⟨_, wf.shape.choose, _, wf.shape.choose_spec⟩

end Fdfs2qq.Bpt
