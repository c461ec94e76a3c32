import Fdfs2qq.Bpt.BoundProofs
import Fdfs2qq.Bpt.InsertProofs

/-! The repairs of a leaf that lost a record: a record borrowed from either
neighbour, whoever its parent is, and a merge under one parent. -/
namespace Fdfs2qq.Bpt
open Lib

variable {t t' : BPlusTree} {A B : List (Cell Record)} {a b : Cell Record} {U V bounds : List Key}
  {u w : Key} {levels levels' : List (List (Cell Index))} {I J K : List Record} {j : Record}

/-- Two neighbouring leaves of a tree. -/
structure LeafPair (A : List (Cell Record)) (a b : Cell Record) (B : List (Cell Record))
    (U : List Key) (w u : Key) (V : List Key) : Prop where
  around : Around A B U V u
  sorted : SortedBy Record.key (a.items ++ b.items)
  routed : ∀ r ∈ a.items ++ b.items, Routes r.key U u V
  first : ∀ r ∈ a.items, Routes r.key U w (u :: V)
  ascending : Ascending (U ++ w :: u :: V)

theorem Fenced.pair (fenced : Fenced (A ++ a :: b :: B) (U ++ w :: u :: V))
    (len : U.length = A.length) : LeafPair A a b B U w u V := by
  obtain ⟨around, inner, routed⟩ := Fenced.around (M := [a, b]) (W := [w]) fenced len rfl
  obtain ⟨_, _, first⟩ := Fenced.around (A := A) (M := [a]) (B := b :: B) (U := U) (W := []) (u := w)
    (V := u :: V) fenced len rfl
  obtain ⟨_, sorted, _, apart⟩ := inner
  have bound := (List.pairwise_pair.mp apart)
  refine ⟨around, SortedBy.append_iff.mpr ⟨sorted a (by simp), sorted b (by simp), ?_⟩, ?_,
    first a (by simp), fenced.ascending⟩
  · exact fun r mem s mem' => (bound.1 r mem).trans_le (bound.2 s mem')
  · intro r mem
    rcases List.mem_append.mp mem with mem | mem
    · exact routed a (by simp) r mem
    · exact routed b (by simp) r mem

/-- Neighbours share their records anew, with a new bound between them. -/
theorem Shape.reshare (shape : Shape t (A ++ a :: b :: B) (U ++ w :: u :: V) levels)
    (pair : LeafPair A a b B U w u V)
    (tower : Tower t'.file t'.info.rootOffset (ids (A ++ a :: b :: B)) (U ++ j.key :: u :: V) levels')
    (offs : levelOffs levels' = levelOffs levels)
    (lengths : levels'.map List.length = levels.map List.length) (info : t'.info = t.info)
    (linked : LinkedRow t'.file (A ++ ⟨a.off, a.parent, I⟩ :: ⟨b.off, b.parent, j :: J⟩ :: B))
    (sorted : SortedBy Record.key (I ++ j :: J)) (routed : ∀ r ∈ I ++ j :: J, Routes r.key U u V)
    (leastI : bpOrder / 2 ≤ I.length) (leastJ : bpOrder / 2 ≤ (j :: J).length)
    (mostI : I.length ≤ bpOrder) (mostJ : (j :: J).length ≤ bpOrder) :
    Shape t' (A ++ ⟨a.off, a.parent, I⟩ :: ⟨b.off, b.parent, j :: J⟩ :: B) (U ++ j.key :: u :: V)
      levels' := by
  have same : ids (A ++ ⟨a.off, a.parent, I⟩ :: ⟨b.off, b.parent, j :: J⟩ :: B) =
      ids (A ++ a :: b :: B) := by simp
  have sameOffs : offsets (A ++ ⟨a.off, a.parent, I⟩ :: ⟨b.off, b.parent, j :: J⟩ :: B) =
      offsets (A ++ a :: b :: B) := by simp
  have filledI : I ≠ [] := fun vacant => by simp [vacant, bpOrder] at leastI
  have empty : levels' = [] ↔ levels = [] := by
    rw [← List.map_eq_nil_iff (f := List.length), lengths, List.map_eq_nil_iff]
  refine ⟨linked, same ▸ tower, fun vacant => shape.indexed (empty.mp vacant),
    (pair.around.split pair.ascending.skip filledI sorted routed _ _ _ _).2, ?_, ?_, info ▸ shape.order,
    ?_, ?_, ?_, ?_⟩
  · refine ⟨fun c mem => ?_, fun many c mem => ?_⟩ <;>
      simp only [List.mem_append, List.mem_cons] at mem <;> rcases mem with mem | rfl | rfl | mem
    · exact shape.filled.atMost c (by simp [mem])
    · exact mostI
    · exact mostJ
    · exact shape.filled.atMost c (by simp [mem])
    · exact shape.filled.atLeast (by simpa using many) c (by simp [mem])
    · exact leastI
    · exact leastJ
    · exact shape.filled.atLeast (by simpa using many) c (by simp [mem])
  · rw [sameOffs, offs, info]
    exact shape.placed
  · rw [info, shape.height, ← @List.length_map _ _ levels' List.length, lengths, List.length_map]
  · rw [info, shape.leafNodeNum]
    simp
  · rw [info, shape.internalNodeNum, countNodes, countNodes, lengths]
  · rw [info, shape.leafOffset]
    exact firstAddr_map sameOffs.symm

namespace BPlusTree

/-- The bound between two neighbours is moved, which leaves the leaves alone. -/
theorem changeParentChild_pair (shape : Shape t (A ++ a :: b :: B) (U ++ w :: u :: V) levels)
    (len : U.length = A.length) (pair : LeafPair A a b B U w u V) (route : Routes o U w (u :: V)) (n : Key) :
    ∃ t₁ levels', t.changeParentChild a.parent o n t.climbFuel = .ok t₁ ∧
      Rebound t t₁ (ids (A ++ a :: b :: B)) (U ++ n :: u :: V) levels levels' ∧
      LinkedRow t₁.file (A ++ a :: b :: B) := by
  obtain ⟨t₁, levels', run, rebound⟩ := changeParentChild_climb levels (A := ids A) (B := ids (b :: B))
    (x := a.off) (p := a.parent) (U := U) (V := u :: V) (u := w) (o := o) n
    (by simpa using shape.tower) (by simpa using len) (by simpa using pair.around.lenB) (by simp)
    pair.ascending route shape.placed.right.distinct
    (show levels.length ≤ t.climbFuel from shape.height_le_fuel.trans (Nat.le_succ _))
  refine ⟨t₁, levels', run, by simpa using rebound, ?_⟩
  exact linked_frame (fun o mem => rebound.frame o (shape.placed.apart mem)) shape.linked

theorem tower_unmap_leaves (shape : Shape t leaves bounds levels)
    (rebound : Rebound t t₁ (ids leaves) bounds' levels levels') {x y : Offset} (inX : x ∈ offsets leaves)
    (inY : y ∈ offsets leaves) (n m : Node Record) :
    Tower ((t₁.unmap n x).unmap m y).file t₁.info.rootOffset (ids leaves) bounds' levels' := by
  apply rebound.tower.frame
  intro o mem
  rw [rebound.offs] at mem
  exact get_unmap_two _ _ _ (ne_of_mem_of_not_mem mem (shape.placed.apart inX))
    (ne_of_mem_of_not_mem mem (shape.placed.apart inY))

theorem borrowRecord_left {lent : Record}
    (shape : Shape t (A ++ a :: b :: B) (U ++ w :: u :: V) levels) (len : U.length = A.length)
    (items : a.items = I ++ [lent]) (more : bpOrder / 2 < a.items.length)
    (sub : K.Sublist b.items) (short : K.length + 1 = bpOrder / 2) :
    ∃ i t₁ levels', a.items.head? = some i ∧
      t.changeParentChild a.parent i.key lent.key t.climbFuel = .ok t₁ ∧
      t.borrowRecord false ((⟨b.off, b.parent, K⟩ : Cell Record).node (firstOff B) a.off) =
        .ok (true, t₁.unmap ((⟨a.off, a.parent, I⟩ : Cell Record).node b.off (lastOff A)) a.off,
          (⟨b.off, b.parent, lent :: K⟩ : Cell Record).node (firstOff B) a.off) ∧
      Shape ((t₁.unmap ((⟨a.off, a.parent, I⟩ : Cell Record).node b.off (lastOff A)) a.off).unmap
          ((⟨b.off, b.parent, lent :: K⟩ : Cell Record).node (firstOff B) a.off) b.off)
        (A ++ ⟨a.off, a.parent, I⟩ :: ⟨b.off, b.parent, lent :: K⟩ :: B)
        (U ++ lent.key :: u :: V) levels' := by
  obtain ⟨pair, lenI⟩ : LeafPair A a b B U w u V ∧ a.items.length = I.length + 1 :=
    ⟨shape.fenced.pair len, by simp [items]⟩
  obtain ⟨i, I', rfl⟩ := List.exists_cons_of_ne_nil
    (show I ≠ [] from fun empty => by simp [lenI, empty, bpOrder] at more)
  obtain ⟨_, heldA, _⟩ := LinkedRow.at_iff.mp shape.linked
  obtain ⟨t₁, levels', run, rebound, linked₁⟩ := changeParentChild_pair shape len pair
    (pair.first i (by simp [items])) lent.key
  refine ⟨i, t₁, levels', by rw [items]; rfl, run, ?_, ?_⟩
  · have enough : bpOrder / 2 ≤ a.items.length := more.le
    have last : slotAt a.items (a.items.length - 1) = .ok lent := by
      rw [lenI, Nat.add_sub_cancel, items, slotAt_append_length]
    have head : slotAt a.items 0 = .ok i := by rw [items]; rfl
    have lost : a.items.eraseIdx (a.items.length - 1) = i :: I' := by
      rw [lenI, Nat.add_sub_cancel, items, eraseIdx_append_length, List.append_nil]
    have opened : openSlot K 0 lent = .ok (lent :: K) := by
      rw [openSlot, if_pos (by rw [bpOrder] at *; omega)]
      rfl
    simp only [borrowRecord, Bool.false_eq_true, if_false, Cell.node, heldA.map, bind, Except.bind,
      shape.order, enough, if_true, ne_eq, more.ne', not_false_eq_true, last, head, run, opened, lost,
      pure, Except.pure]
    rfl
  · have covers : ((i :: I') ++ lent :: K).Sublist (a.items ++ b.items) := by
      rw [items, List.append_assoc]
      exact (List.Sublist.refl _).append (sub.cons_cons lent)
    refine shape.reshare pair ?_ rebound.offs rebound.lengths rebound.info ?_
      (pair.sorted.sublist covers) (fun r mem => pair.routed r (covers.subset mem)) (by omega)
      (by rw [List.length_cons]; omega) ?_ (by rw [List.length_cons, short]; decide)
    · exact tower_unmap_leaves shape rebound (by simp) (by simp) _ _
    · exact unmap_neighbours linked₁ shape.placed.left.distinct (i :: I') (lent :: K)
    · have := shape.filled.atMost a (by simp)
      omega

theorem borrowRecord_right {lent : Record}
    (shape : Shape t (A ++ a :: b :: B) (U ++ w :: u :: V) levels) (len : U.length = A.length)
    (items : b.items = lent :: j :: J) (more : bpOrder / 2 < b.items.length)
    (sub : K.Sublist a.items) (short : K.length + 1 = bpOrder / 2) :
    ∃ k t₁ levels', K.head? = some k ∧
      t.changeParentChild a.parent k.key j.key t.climbFuel = .ok t₁ ∧
      t.borrowRecord true ((⟨a.off, a.parent, K⟩ : Cell Record).node b.off (lastOff A)) =
        .ok (true, t₁.unmap ((⟨b.off, b.parent, j :: J⟩ : Cell Record).node (firstOff B) a.off) b.off,
          (⟨a.off, a.parent, K ++ [lent]⟩ : Cell Record).node b.off (lastOff A)) ∧
      Shape ((t₁.unmap ((⟨b.off, b.parent, j :: J⟩ : Cell Record).node (firstOff B) a.off) b.off).unmap
          ((⟨a.off, a.parent, K ++ [lent]⟩ : Cell Record).node b.off (lastOff A)) a.off)
        (A ++ ⟨a.off, a.parent, K ++ [lent]⟩ :: ⟨b.off, b.parent, j :: J⟩ :: B)
        (U ++ j.key :: u :: V) levels' := by
  have pair := shape.fenced.pair len
  obtain ⟨k, K', rfl⟩ := List.exists_cons_of_ne_nil
    (show K ≠ [] from fun empty => by simp [empty, bpOrder] at short)
  obtain ⟨_, _, heldB, _⟩ := LinkedRow.at_iff.mp shape.linked
  obtain ⟨t₁, levels', run, rebound, linked₁⟩ := changeParentChild_pair shape len pair
    (pair.first k (sub.subset (by simp))) j.key
  refine ⟨k, t₁, levels', rfl, run, ?_, ?_⟩
  · have enough : bpOrder / 2 ≤ b.items.length := more.le
    have head : slotAt b.items 0 = .ok lent := by rw [items]; rfl
    have second : slotAt b.items 1 = .ok j := by rw [items]; rfl
    have first : slotAt (k :: K') 0 = .ok k := rfl
    have lost : b.items.eraseIdx 0 = j :: J := by rw [items]; rfl
    have opened : openSlot (k :: K') (k :: K').length lent = .ok ((k :: K') ++ [lent]) := by
      have room : ((k :: K') ++ []).length < bpOrder := by
        rw [List.append_nil]
        rw [bpOrder] at *
        omega
      have := openSlot_append_length room lent
      rwa [List.append_nil] at this
    simp only [borrowRecord, if_true, Cell.node, heldB.map, bind, Except.bind,
      shape.order, enough, ne_eq, more.ne', not_false_eq_true, head, second, first, run, opened, lost,
      pure, Except.pure]
  · have covers : (((k :: K') ++ [lent]) ++ j :: J).Sublist (a.items ++ b.items) := by
      rw [items, List.append_assoc]
      exact sub.append (List.Sublist.refl _)
    have lenB : b.items.length = (j :: J).length + 1 := by simp [items]
    have lenA : ((k :: K') ++ [lent]).length = bpOrder / 2 := by
      rw [List.length_append]
      exact short
    refine shape.reshare pair ?_ rebound.offs rebound.lengths rebound.info ?_
      (pair.sorted.sublist covers) (fun r mem => pair.routed r (covers.subset mem)) (by omega)
      (by omega) (by rw [lenA]; decide) ?_
    · exact tower_unmap_leaves shape rebound (by simp) (by simp) _ _
    · exact unmap_neighbours' linked₁ shape.placed.left.distinct ((k :: K') ++ [lent]) (j :: J)
    · have := shape.filled.atMost b (by simp)
      omega

theorem borrowRecord_none {borrower : Node Record} {fromRight : Bool} {d : Cell Record}
    (held : d.Holds t.file next prev)
    (lender : (if fromRight then borrower.next else borrower.prev) = d.off)
    (order : t.info.order = bpOrder) (len : d.items.length = bpOrder / 2) :
    t.borrowRecord fromRight borrower = .ok (false, t, borrower) := by
  simp only [borrowRecord, lender, held.map, bind, Except.bind, order, Cell.node, len, le_refl, if_true,
    ne_eq, not_true_eq_false, if_false, pure, Except.pure]

section Neighbours

variable {leaf leaf' : Node Record}

theorem borrowFromNeighbours_left (filled : leaf.prev ≠ 0)
    (borrowed : t.borrowRecord false leaf = .ok (true, t', leaf')) :
    t.borrowFromNeighbours leaf = .ok (true, t', leaf') := by
  simp only [borrowFromNeighbours, ne_eq, filled, not_false_eq_true, if_true, borrowed, bind,
    Except.bind, not_true_eq_false, false_and, if_false, pure, Except.pure]

theorem borrowFromNeighbours_right
    (left : leaf.prev = 0 ∨ t.borrowRecord false leaf = .ok (false, t, leaf)) (filled : leaf.next ≠ 0)
    (borrowed : t.borrowRecord true leaf = .ok (true, t', leaf')) :
    t.borrowFromNeighbours leaf = .ok (true, t', leaf') := by
  by_cases zero : leaf.prev = 0
  · simp only [borrowFromNeighbours, ne_eq, zero, not_true_eq_false, if_false, bind, Except.bind, pure,
      Except.pure, Bool.false_eq_true, not_false_eq_true, filled, and_self, if_true, borrowed]
  · simp only [borrowFromNeighbours, ne_eq, zero, not_false_eq_true, if_true, left.resolve_left zero,
      bind, Except.bind, Bool.false_eq_true, filled, and_self, borrowed]

theorem borrowFromNeighbours_none
    (left : leaf.prev = 0 ∨ t.borrowRecord false leaf = .ok (false, t, leaf))
    (right : leaf.next = 0 ∨ t.borrowRecord true leaf = .ok (false, t, leaf)) :
    t.borrowFromNeighbours leaf = .ok (false, t, leaf) := by
  have second : (if ¬ (false = true) ∧ leaf.next ≠ 0 then t.borrowRecord true leaf
      else .ok (false, t, leaf)) = .ok (false, t, leaf) := by
    by_cases zero : leaf.next = 0
    · rw [if_neg (by simp [zero])]
    · rw [if_pos (by simp [zero]), right.resolve_left zero]
  by_cases empty : leaf.prev = 0
  · simp only [borrowFromNeighbours, bind, Except.bind, pure, Except.pure, ne_eq, empty,
      not_true_eq_false, if_false]
    exact second
  · simp only [borrowFromNeighbours, bind, Except.bind, pure, Except.pure, ne_eq, empty,
      not_false_eq_true, if_true, left.resolve_left empty]
    exact second

end Neighbours

theorem mergeLeaf_left {i : Record} {I' : List Record} (linked : LinkedRow t.file (A ++ a :: b :: B))
    (placed : Placed t.info.slot (offsets (A ++ a :: b :: B))) (items : a.items = i :: I')
    (room : a.items.length + K.length ≤ bpOrder) :
    ∃ t', t.mergeLeaf ((⟨b.off, b.parent, K⟩ : Cell Record).node (firstOff B) a.off) b.off true =
        .ok (t', i.key) ∧
      t'.info = (t.unalloc Record).info ∧
      LinkedRow t'.file (A ++ ⟨a.off, a.parent, a.items ++ K⟩ :: B) ∧
      ∀ o ∉ offsets (A ++ a :: b :: B), t'.file.get o = t.file.get o := by
  obtain ⟨_, heldA, _⟩ := LinkedRow.at_iff.mp linked
  have nonzero : a.off ≠ 0 := fun zero => placed.positive (by simp [zero])
  obtain ⟨t₁, removed, info₁, t₂, written, info₂, linked₂, frame⟩ := nodeRemove_row linked
    placed.distinct placed.positive (a.items ++ K) K
  refine ⟨t₂, ?_, by rw [info₂, info₁], linked₂, frame⟩
  have head : slotAt a.items 0 = .ok i := by rw [items]; rfl
  have appended : appendSlots a.items K = .ok (a.items ++ K) := by rw [appendSlots, if_pos room]
  simp only [Cell.node] at removed written
  simp only [mergeLeaf, Cell.node, ne_eq, nonzero, not_false_eq_true, or_true, if_true, heldA.map, bind,
    Except.bind, head, mergeLeafs, appended, pure, Except.pure]
  simp only [firstAddr, removed, written]

theorem mergeLeaf_right {k : Record} {K' : List Record} (linked : LinkedRow t.file (A ++ a :: b :: B))
    (placed : Placed t.info.slot (offsets (A ++ a :: b :: B))) (items : K = k :: K')
    (room : K.length + b.items.length ≤ bpOrder) :
    ∃ t', t.mergeLeaf ((⟨a.off, a.parent, K⟩ : Cell Record).node b.off (lastOff A)) a.off false =
        .ok (t', k.key) ∧
      t'.info = (t.unalloc Record).info ∧
      LinkedRow t'.file (A ++ ⟨a.off, a.parent, K ++ b.items⟩ :: B) ∧
      ∀ o ∉ offsets (A ++ a :: b :: B), t'.file.get o = t.file.get o := by
  obtain ⟨_, _, heldB, _⟩ := LinkedRow.at_iff.mp linked
  have nonzero : b.off ≠ 0 := fun zero => placed.positive (by simp [zero])
  obtain ⟨t₁, removed, info₁, t₂, written, info₂, linked₂, frame⟩ := nodeRemove_row linked
    placed.distinct placed.positive (K ++ b.items) b.items
  refine ⟨t₂, ?_, by rw [info₂, info₁], linked₂, frame⟩
  have head : slotAt K 0 = .ok k := by rw [items]; rfl
  have appended : appendSlots K b.items = .ok (K ++ b.items) := by rw [appendSlots, if_pos room]
  simp only [Cell.node] at removed written
  simp only [mergeLeaf, Cell.node, ne_eq, nonzero, not_false_eq_true, true_or, if_true, heldB.map, bind,
    Except.bind, head, mergeLeafs, appended, pure, Except.pure, Bool.false_eq_true, if_false, removed,
    written]

end BPlusTree
end Fdfs2qq.Bpt
