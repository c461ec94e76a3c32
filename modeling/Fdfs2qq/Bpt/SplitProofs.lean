import Fdfs2qq.Bpt.Insert
import Fdfs2qq.Bpt.Tower
import Fdfs2qq.Lib.KeyedList

/-! Insertion into one node and the split of a full one: both halves together
are the node with the new slot in place, and both are at least half full. -/
namespace Fdfs2qq.Bpt
open Lib

theorem slotAt_append_length (A : List α) (x : α) (B : List α) :
    slotAt (A ++ x :: B) A.length = .ok x := by
  simp only [slotAt, getElem?_append_length_cons]

theorem slotAt_of_getElem? {slots : List α} (found : slots[i]? = some x) :
    slotAt slots i = .ok x := by
  simp only [slotAt, found]

theorem openSlot_append_length {A B : List α} (room : (A ++ B).length < bpOrder) (x : α) :
    openSlot (A ++ B) A.length x = .ok (A ++ x :: B) := by
  rw [openSlot, if_pos room, insertIdx_append_length]

/-- The records of a leaf around a position for `k`. -/
abbrev RecordGap (k : Key) (X Y : List Record) : Prop := Gap Record.key k X Y

/-- The slots of an internal node around the slot `k` displaces. -/
structure SlotGap (k : Key) (X : List Index) (e : Index) (Y : List Index) : Prop where
  above : ∀ x ∈ X, x.key < k
  below : ∀ y ∈ (e :: Y).dropLast, k < y.key

theorem SlotGap.displaced (gap : SlotGap k X e Y) (ne : Y ≠ []) : k < e.key :=
  gap.below e (by rw [List.dropLast_cons_of_ne_nil ne]; simp)

/-- Which side of the gap a live slot is on. -/
theorem SlotGap.side (gap : SlotGap k X e Y) (live : j + 1 < (X ++ e :: Y).length) :
    ∃ m, (X ++ e :: Y)[j]? = some m ∧ (j < X.length → m.key < k) ∧ (X.length ≤ j → k < m.key) := by
  simp only [List.length_append, List.length_cons] at live
  by_cases left : j < X.length
  · refine ⟨X[j], by rw [List.getElem?_append_left left]; exact List.getElem?_eq_getElem left,
      fun _ => gap.above _ (List.getElem_mem left), fun right => by omega⟩
  · have inside : j - X.length < (e :: Y).dropLast.length := by simp; omega
    refine ⟨(e :: Y).dropLast[j - X.length], ?_, fun right => by omega,
      fun _ => gap.below _ (List.getElem_mem inside)⟩
    rw [List.getElem?_append_right (by omega), List.getElem_dropLast]
    exact List.getElem?_eq_getElem (by simp at inside ⊢; omega)

theorem recordGap_side (gap : RecordGap k X Y) (live : j < (X ++ Y).length) :
    ∃ m, (X ++ Y)[j]? = some m ∧ (j < X.length → m.key < k) ∧ (X.length ≤ j → k < m.key) := by
  rw [List.length_append] at live
  by_cases left : j < X.length
  · refine ⟨X[j], by rw [List.getElem?_append_left left]; exact List.getElem?_eq_getElem left,
      fun _ => gap.above _ (List.getElem_mem left), fun right => by omega⟩
  · have inside : j - X.length < Y.length := by omega
    refine ⟨Y[j - X.length], ?_, fun right => by omega, fun _ => gap.below _ (List.getElem_mem inside)⟩
    rw [List.getElem?_append_right (by omega)]
    exact List.getElem?_eq_getElem inside

theorem upperBound_split {P S : List Record} (above : ∀ r ∈ P, r.key ≤ k)
    (below : ∀ r ∈ S.head?, k < r.key) : upperBound ((P ++ S).map Record.key) k = P.length := by
  rw [upperBound, List.map_append, ← @List.length_map _ _ P Record.key]
  apply findIdx_boundary
  · intro a mem
    obtain ⟨r, inside, rfl⟩ := List.mem_map.mp mem
    simpa [keycmp_neg] using above r inside
  · intro b mem
    cases S with
    | nil => simp at mem
    | cons r S =>
      simp only [List.map_cons, List.head?_cons, Option.mem_some_iff] at mem
      subst mem
      simpa [keycmp_neg] using below r (by simp)

theorem upperBound_gap (gap : RecordGap k X Y) :
    upperBound ((X ++ Y).map Record.key) k = X.length :=
  upperBound_split (fun r mem => (gap.above r mem).le)
    fun r mem => gap.below r (List.mem_of_mem_head? mem)

namespace BPlusTree

theorem climbFuel_eq (t : BPlusTree) : t.climbFuel = t.file.blocks.length + 1 := rfl

theorem insertRecordNoSplit_gap (leaf : Node Record) (gap : RecordGap k X Y)
    (slots : leaf.children = X ++ Y) (room : (X ++ Y).length < bpOrder) (v : Value) :
    insertRecordNoSplit leaf k v = .ok { leaf with children := X ++ ⟨k, v⟩ :: Y } := by
  simp only [insertRecordNoSplit, slots, upperBound_gap gap, openSlot_append_length room, bind,
    Except.bind, pure, Except.pure]

theorem insertKeyToIndexNoSplit_gap (node : Node Index) (before : ∀ x ∈ X, x.key < k)
    (after : Y ≠ [] → k < e.key) (slots : node.children = X ++ e :: Y)
    (room : (X ++ e :: Y).length < bpOrder) (v : Offset) :
    insertKeyToIndexNoSplit node k v =
      .ok { node with children := X ++ ⟨k, e.child⟩ :: { e with child := v } :: Y } := by
  have found := findIndex_at slots (fun x mem => (before x mem).le) after
  simp only [insertKeyToIndexNoSplit, found, slots, slotAt_append_length,
    openSlot_append_length room, modify_append_length_succ, bind, Except.bind, pure, Except.pure]

theorem splitLeaf_gap (leaf newLeaf : Node Record) (gap : RecordGap k X Y)
    (slots : leaf.children = X ++ Y) (full : (X ++ Y).length = bpOrder) (v : Value) :
    ∃ I J, splitLeaf leaf newLeaf k v =
        .ok ({ leaf with children := I }, { newLeaf with children := J }) ∧
      I ++ J = X ++ ⟨k, v⟩ :: Y ∧ bpOrder / 2 ≤ I.length ∧ bpOrder / 2 ≤ J.length ∧
      I.length ≤ bpOrder ∧ J.length ≤ bpOrder := by
  have total := full
  simp only [List.length_append, bpOrder] at total
  obtain ⟨m, middle, less, more⟩ := recordGap_side gap (j := 10) (by rw [full]; decide)
  have point : (X ++ Y).length / 2 = 10 := by rw [full]; rfl
  by_cases right : 10 < X.length
  · -- the new record goes behind the split point, eleven records stay
    have place : keycmp k m.key > 0 := keycmp_pos.mpr (less right)
    have take : (X ++ Y).take 11 = X.take 11 := List.take_append_of_le_length (by omega)
    have drop : (X ++ Y).drop 11 = X.drop 11 ++ Y := List.drop_append_of_le_length (by omega)
    have tail : RecordGap k (X.drop 11) Y :=
      ⟨fun r mem => gap.above r (List.mem_of_mem_drop mem), gap.below⟩
    refine ⟨X.take 11, X.drop 11 ++ ⟨k, v⟩ :: Y, ?_, by simp [← List.append_assoc], ?_⟩
    · simp only [splitLeaf, leafSplitPoint, slots, point, slotAt_of_getElem? middle, bind,
        Except.bind, pure, Except.pure, place, decide_true, if_true, take, drop]
      rw [insertRecordNoSplit_gap _ tail rfl
        (by simp only [List.length_append, List.length_drop, bpOrder]; omega)]
    · simp only [List.length_take, List.length_append, List.length_drop, List.length_cons, bpOrder]
      omega
  · have place : ¬ keycmp k m.key > 0 := fun h =>
      absurd (keycmp_pos.mp h) (not_lt.mpr (more (by omega)).le)
    have take : (X ++ Y).take 10 = X ++ Y.take (10 - X.length) := by
      rw [List.take_append, List.take_of_length_le (by omega)]
    have drop : (X ++ Y).drop 10 = Y.drop (10 - X.length) := by
      rw [List.drop_append, List.drop_of_length_le (by omega), List.nil_append]
    have head : RecordGap k X (Y.take (10 - X.length)) :=
      ⟨gap.above, fun r mem => gap.below r (List.mem_of_mem_take mem)⟩
    refine ⟨X ++ ⟨k, v⟩ :: Y.take (10 - X.length), Y.drop (10 - X.length), ?_, by simp, ?_⟩
    · simp only [splitLeaf, leafSplitPoint, slots, point, slotAt_of_getElem? middle, bind,
        Except.bind, pure, Except.pure, place, decide_false, Bool.false_eq_true, if_false, take, drop]
      rw [insertRecordNoSplit_gap _ head rfl
        (by simp only [List.length_append, List.length_take, bpOrder]; omega)]
    · simp only [List.length_take, List.length_append, List.length_drop, List.length_cons, bpOrder]
      omega

/-- The slots `X ++ e :: Y` with a new key for `e` and a new slot after it, cut
into two nodes, and the key between them. -/
def Halved (node newNode : Node Index) (k : Key) (v : Offset) (X : List Index) (e : Index)
    (Y : List Index) : Prop :=
  ∃ middle I J, splitIndex node newNode k v =
      .ok (middle, { node with children := I }, { newNode with children := J }) ∧
    I ++ J = X ++ ⟨k, e.child⟩ :: { e with child := v } :: Y ∧
    (I.map Index.key).getLast? = some middle ∧
    bpOrder / 2 ≤ I.length ∧ bpOrder / 2 ≤ J.length ∧ I.length ≤ bpOrder ∧ J.length ≤ bpOrder

theorem splitIndex_right (node newNode : Node Index) (gap : SlotGap k X e Y)
    (slots : node.children = X ++ e :: Y) (full : (X ++ e :: Y).length = bpOrder) (v : Offset)
    (inside : p < X.length) (choice : p = 9 ∨ p = 10) (found : (X ++ e :: Y)[p]? = some m)
    (chosen : indexSplitPoint node k = .ok (p, true)) : Halved node newNode k v X e Y := by
  simp only [List.length_append, List.length_cons, bpOrder] at full
  have take : (X ++ e :: Y).take (p + 1) = X.take (p + 1) :=
    List.take_append_of_le_length (by omega)
  have drop : (X ++ e :: Y).drop (p + 1) = X.drop (p + 1) ++ e :: Y :=
    List.drop_append_of_le_length (by omega)
  have last : (X.take (p + 1)).getLast? = some m := by
    rw [List.getLast?_take, if_neg (by omega), Nat.add_sub_cancel,
      List.getElem?_append_left inside] at *
    simp [found]
  refine ⟨m.key, X.take (p + 1), X.drop (p + 1) ++ ⟨k, e.child⟩ :: { e with child := v } :: Y, ?_,
    by simp [← List.append_assoc], by rw [List.getLast?_map, last]; rfl, ?_⟩
  · simp only [splitIndex, chosen, slots, slotAt_of_getElem? found, bind, Except.bind, pure,
      Except.pure, if_true, take, drop]
    rw [insertKeyToIndexNoSplit_gap _ (fun x mem => gap.above x (List.mem_of_mem_drop mem))
      gap.displaced rfl
      (by simp only [List.length_append, List.length_drop, List.length_cons, bpOrder]; omega)]
  · simp only [List.length_take, List.length_append, List.length_drop, List.length_cons, bpOrder]
    omega

theorem splitIndex_left (node newNode : Node Index) (gap : SlotGap k X e Y)
    (slots : node.children = X ++ e :: Y) (full : (X ++ e :: Y).length = bpOrder) (v : Offset)
    (outside : X.length ≤ 9) (found : (X ++ e :: Y)[9]? = some m)
    (chosen : indexSplitPoint node k = .ok (9, false)) : Halved node newNode k v X e Y := by
  simp only [List.length_append, List.length_cons, bpOrder] at full
  obtain ⟨n, hn⟩ : ∃ n, 10 = X.length + (n + 1) := ⟨9 - X.length, by omega⟩
  have take : (X ++ e :: Y).take (9 + 1) = X ++ e :: Y.take n := by
    rw [show 9 + 1 = X.length + (n + 1) from hn, List.take_length_add_append, List.take_succ_cons]
  have drop : (X ++ e :: Y).drop (9 + 1) = Y.drop n := by
    rw [show 9 + 1 = X.length + (n + 1) from hn, List.drop_length_add_append, List.drop_succ_cons]
  have last : ((X ++ e :: Y.take n).map Index.key).getLast? = some m.key := by
    rw [← take, List.getLast?_map, List.getLast?_take, if_neg (by omega)]
    simp [found]
  refine ⟨m.key, X ++ ⟨k, e.child⟩ :: { e with child := v } :: Y.take n, Y.drop n, ?_, by simp, ?_, ?_⟩
  · simp only [splitIndex, chosen, slots, slotAt_of_getElem? found, bind, Except.bind, pure, Except.pure,
      Bool.false_eq_true, if_false, take, drop]
    rw [insertKeyToIndexNoSplit_gap _ gap.above (fun ne => gap.displaced fun empty => ne (by simp [empty]))
      rfl (by simp only [List.length_append, List.length_take, List.length_cons, bpOrder]; omega)]
  · rw [← last]
    simp only [List.map_append, List.map_cons, List.getLast?_append, List.getLast?_cons]
    cases ((Y.take n).map Index.key).getLast? <;> rfl
  · simp only [List.length_take, List.length_append, List.length_drop, List.length_cons, bpOrder]
    omega

/-- The split of a full internal node. The middle key is the one in the last
slot of the left half. -/
theorem splitIndex_gap (node newNode : Node Index) (gap : SlotGap k X e Y)
    (slots : node.children = X ++ e :: Y) (full : (X ++ e :: Y).length = bpOrder) (v : Offset) :
    Halved node newNode k v X e Y := by
  have point : ((X ++ e :: Y).length - 1) / 2 = 9 := by rw [full]; rfl
  obtain ⟨m₉, at₉, less₉, more₉⟩ := gap.side (j := 9) (by rw [full]; decide)
  obtain ⟨m₁₀, at₁₀, less₁₀, more₁₀⟩ := gap.side (j := 10) (by rw [full]; decide)
  -- the three choices of the split point, by the position of the new key
  by_cases right : 9 < X.length
  · have place : keycmp k m₉.key > 0 := keycmp_pos.mpr (less₉ right)
    by_cases far : 10 < X.length
    · apply splitIndex_right node newNode gap slots full v far (Or.inr rfl) at₁₀
      have order : ¬ keycmp k m₁₀.key < 0 := fun h =>
        absurd (keycmp_neg.mp h) (not_lt.mpr (less₁₀ far).le)
      simp only [indexSplitPoint, slots, point, slotAt_of_getElem? at₉, slotAt_of_getElem? at₁₀, bind,
        Except.bind, pure, Except.pure, place, decide_true, if_true, order, if_false]
    · apply splitIndex_right node newNode gap slots full v right (Or.inl rfl) at₉
      have order : keycmp k m₁₀.key < 0 := keycmp_neg.mpr (more₁₀ (by omega))
      simp only [indexSplitPoint, slots, point, slotAt_of_getElem? at₉, slotAt_of_getElem? at₁₀, bind,
        Except.bind, pure, Except.pure, place, decide_true, if_true, order]
  · have outside : X.length ≤ 9 := not_lt.mp right
    have place : ¬ keycmp k m₉.key > 0 := fun h =>
      absurd (keycmp_pos.mp h) (not_lt.mpr (more₉ outside).le)
    apply splitIndex_left node newNode gap slots full v outside at₉
    simp only [indexSplitPoint, slots, point, slotAt_of_getElem? at₉, bind, Except.bind, pure, Except.pure,
      place, decide_false, Bool.false_eq_true, if_false]

end BPlusTree
end Fdfs2qq.Bpt
