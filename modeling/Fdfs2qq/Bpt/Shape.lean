import Fdfs2qq.Bpt.Fence
import Fdfs2qq.Bpt.SplitProofs

/-! The rows of a whole tree, and the path a key takes through them. -/
namespace Fdfs2qq.Bpt
open Lib

structure LeafSized (leaves : List (Cell Record)) : Prop where
  atMost : ∀ c ∈ leaves, c.items.length ≤ bpOrder
  atLeast : 2 ≤ leaves.length → ∀ c ∈ leaves, bpOrder / 2 ≤ c.items.length

structure Shape (t : BPlusTree) (leaves : List (Cell Record)) (bounds : List Key)
    (levels : List (List (Cell Index))) : Prop where
  linked : LinkedRow t.file leaves
  tower : Tower t.file t.info.rootOffset (ids leaves) bounds levels
  indexed : levels ≠ []
  fenced : Fenced leaves bounds
  filled : LeafSized leaves
  placed : Placed t.info.slot (offsets leaves ++ levelOffs levels)
  order : t.info.order = bpOrder
  height : t.info.height = levels.length
  leafNodeNum : t.info.leafNodeNum = leaves.length
  internalNodeNum : t.info.internalNodeNum = countNodes levels
  leafOffset : t.info.leafOffset = firstOff leaves

theorem Tower.lower_ne_nil (tower : Tower f root lower bounds levels) : lower ≠ [] := by
  induction tower with
  | top => simp
  | @level row lower bounds rest linked listed keyed sized upper ih =>
    cases row with
    | nil => simp at ih
    | cons c row =>
      obtain ⟨e, items, eq⟩ := List.exists_cons_of_ne_nil (sized.nonempty c (by simp))
      simp [← listed, eq]

theorem Shape.leaves_ne_nil (shape : Shape t leaves bounds levels) : leaves ≠ [] :=
  fun empty => shape.tower.lower_ne_nil (by rw [empty]; rfl)

theorem Shape.bounds_ne_nil (shape : Shape t leaves bounds levels) : bounds ≠ [] := by
  intro empty
  have len := shape.fenced.len
  rw [empty] at len
  exact shape.leaves_ne_nil (List.length_eq_zero_iff.mp len.symm)

theorem Tower.written (tower : Tower f root lower bounds levels) :
    ∀ o ∈ levelOffs levels, ∃ b, f.get o = some b := by
  induction tower with
  | top => simp
  | level linked _ _ _ _ ih =>
    intro o mem
    rw [levelOffs_cons, List.mem_append] at mem
    exact mem.elim (linked.written o) (ih o)

theorem Tower.length_le (tower : Tower f root lower bounds levels) :
    levels.length ≤ (levelOffs levels).length := by
  induction tower with
  | top => simp
  | @level row lower bounds rest _ _ _ _ upper ih =>
    have filled : row ≠ [] := fun empty => upper.lower_ne_nil (by rw [empty]; rfl)
    have := List.length_pos_iff.mpr filled
    simp only [List.length_cons, levelOffs_cons, List.length_append, offsets, List.length_map]
    omega

/-- The climb never has more levels than there are blocks. -/
theorem Shape.height_le_fuel (shape : Shape t leaves bounds levels) :
    levels.length ≤ t.file.blocks.length :=
  shape.tower.length_le.trans
    (File.length_le_blocks shape.placed.right.distinct shape.tower.written)

/-- The path of `k`: the leaf `x` between the bounds `U` and `u`, listed in slot
`e` of the cell `c`. -/
structure Located (t : BPlusTree) (k : Key) (A : List (Cell Record)) (x : Cell Record)
    (B : List (Cell Record)) (U : List Key) (u : Key) (V : List Key) (L : List (Cell Index))
    (c : Cell Index) (R : List (Cell Index)) (X : List Index) (e : Index) (Y : List Index) :
    Prop where
  route : Routes k U u V
  around : Around A B U V u
  sorted : SortedBy Record.key x.items
  routed : ∀ r ∈ x.items, Routes r.key U u V
  leaf : x.Holds t.file (firstOff B) (lastOff A)
  items : c.items = X ++ e :: Y
  child : e.child = x.off
  owner : c.off = x.parent
  listedA : ids A = kids L ++ slotKids c.off X
  listedB : ids B = slotKids c.off Y ++ kids R
  keysU : U = rowKeys L ++ X.map Index.key
  keyHere : V ≠ [] → e.key = u
  keysV : SameInit (Y.map Index.key ++ rowKeys R) V
  held : c.Holds t.file (firstOff R) (lastOff L)
  found : findIndex (c.node (firstOff R) (lastOff L)) k = X.length
  searchIndex : t.searchIndex k = .ok c.off

theorem Shape.locate (shape : Shape t leaves bounds levels) (k : Key) :
    ∃ A x B U u V L c R rest X e Y, leaves = A ++ x :: B ∧ bounds = U ++ u :: V ∧
      levels = (L ++ c :: R) :: rest ∧ Located t k A x B U u V L c R X e Y := by
  obtain ⟨U, u, V, rfl, route⟩ := Routes.exists shape.bounds_ne_nil k
  obtain ⟨row, rest, rfl⟩ := List.exists_cons_of_ne_nil shape.indexed
  obtain ⟨linked, listed, keyed, sized, upper⟩ := shape.tower.level_inv
  obtain ⟨A, B', rfl, lenA⟩ : ∃ A B', leaves = A ++ B' ∧ A.length = U.length := by
    have len := shape.fenced.len
    refine ⟨leaves.take U.length, leaves.drop U.length, (List.take_append_drop _ _).symm, ?_⟩
    simp only [List.length_append, List.length_cons] at len
    simp only [List.length_take]
    omega
  obtain ⟨x, B, rfl⟩ : ∃ x B, B' = x :: B := by
    apply List.exists_cons_of_ne_nil
    intro empty
    have len := shape.fenced.len
    simp only [empty, List.append_nil, List.length_append, List.length_cons] at len
    omega
  obtain ⟨around, inner, routed⟩ := Fenced.around (A := A) (M := [x]) (W := []) shape.fenced
    lenA.symm rfl
  obtain ⟨L, c, R, X, e, Y, rfl, items, child, owner, listedA, listedB, keysU, keyHere, keysV⟩ :=
    level_split (by simpa using listed) keyed (by simpa using lenA.symm)
  obtain ⟨found, up⟩ := route.level shape.fenced.ascending items sized.nonempty keysU keyHere keysV
    (firstOff R) (lastOff L)
  have reached := upper.descend (ids_append L (c :: R)) (uppers_append L (c :: R)) (by simp)
    ((shape.fenced.ascending.of_sameInit keyed).uppers sized.nonempty) up
  refine ⟨A, x, B, U, u, V, L, c, R, rest, X, e, Y, rfl, rfl, rfl, route, around,
    inner.sorted x (by simp), routed x (by simp), (LinkedRow.at_iff.mp shape.linked).2.1, items,
    child, owner, listedA, listedB, keysU, keyHere, keysV, (LinkedRow.at_iff.mp linked).2.1, found, ?_⟩
  rw [BPlusTree.searchIndex, shape.height]
  exact reached

namespace Located

variable {t : BPlusTree} {k : Key} {A B : List (Cell Record)} {x : Cell Record} {U V : List Key}
  {u : Key} {L R : List (Cell Index)} {c : Cell Index} {X Y : List Index} {e : Index}

theorem searchLeafFrom (at_ : Located t k A x B U u V L c R X e Y) :
    t.searchLeafFrom c.off k = .ok x.off := by
  rw [BPlusTree.searchLeafFrom_of_holds at_.held at_.items at_.found, at_.child]

theorem searchLeaf (at_ : Located t k A x B U u V L c R X e Y) : t.searchLeaf k = .ok x.off := by
  simp only [BPlusTree.searchLeaf, at_.searchIndex, bind, Except.bind, at_.searchLeafFrom]

theorem gap (at_ : Located t k A x B U u V L c R X e Y) (gap : RecordGap k P S) :
    RecordGap k (contents A ++ P) (S ++ contents B) :=
  gap.extend (at_.around.outside at_.route).1 (at_.around.outside at_.route).2

end Located

theorem lowerBound_split {P S : List Record} (above : ∀ r ∈ P, r.key < k)
    (below : ∀ r ∈ S.head?, k ≤ r.key) : lowerBound ((P ++ S).map Record.key) k = P.length := by
  rw [lowerBound, List.map_append, ← @List.length_map _ _ P Record.key]
  apply findIdx_boundary
  · intro a mem
    obtain ⟨r, inside, rfl⟩ := List.mem_map.mp mem
    simpa [keycmp_neg] using above r inside
  · intro b mem
    cases S with
    | nil => simp at mem
    | cons r S =>
      simp only [List.map_cons, List.head?_cons, Option.mem_some_iff] at mem
      subst mem
      simpa [keycmp_neg] using below r (by simp)

theorem findRecord_gap {leaf : Node Record} (slots : leaf.children = P ++ S)
    (above : ∀ r ∈ P, r.key < k) (below : ∀ r ∈ S.head?, k ≤ r.key) :
    findRecord leaf k = P.length := by
  rw [findRecord, slots, lowerBound_split above below]

theorem findRecord_found (leaf : Node Record) (slots : leaf.children = P ++ r :: S)
    (gap : RecordGap r.key P S) : findRecord leaf r.key = P.length :=
  findRecord_gap slots gap.above (by simp)

theorem findRecord_absent (leaf : Node Record) (slots : leaf.children = P ++ S)
    (gap : RecordGap k P S) : findRecord leaf k = P.length :=
  findRecord_gap slots gap.above fun r mem => (gap.below r (List.mem_of_mem_head? mem)).le

theorem binarySearch_found (leaf : Node Record) (slots : leaf.children = P ++ r :: S)
    (gap : RecordGap r.key P S) : binarySearch leaf r.key = true := by
  have same : ¬ keycmp r.key r.key < 0 := by rw [keycmp_zero.mpr rfl]; decide
  simp only [binarySearch, findRecord_found leaf slots gap, slots, getElem?_append_length_cons, same,
    not_false_eq_true, decide_true]

theorem binarySearch_absent (leaf : Node Record) (slots : leaf.children = P ++ S)
    (gap : RecordGap k P S) : binarySearch leaf k = false := by
  simp only [binarySearch, findRecord_absent leaf slots gap, slots]
  cases S with
  | nil => simp
  | cons r S =>
    have less : keycmp k r.key < 0 := keycmp_neg.mpr (gap.below r (by simp))
    simp [less]

end Fdfs2qq.Bpt
