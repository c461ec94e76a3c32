import Fdfs2qq.Bpt.Shape
import Fdfs2qq.Bpt.Insert

/-! What `search` and `update` answer on a tree with given rows, and the tree
after the records of one leaf changed. -/
namespace Fdfs2qq.Bpt
open Lib

/-- The leaf of `k` either has the record of `k` or a gap for it. -/
theorem Located.cases (at_ : Located t k A x B U u V L c R X e Y) :
    (∃ P r S, x.items = P ++ r :: S ∧ r.key = k ∧ RecordGap k P S) ∨
      ∃ P S, x.items = P ++ S ∧ RecordGap k P S := SortedBy.cases at_.sorted k

theorem LeafSized.refill {A B : List (Cell Record)} {x x' : Cell Record}
    (filled : LeafSized (A ++ x :: B)) (atMost : x'.items.length ≤ bpOrder)
    (atLeast : 2 ≤ (A ++ x :: B).length → bpOrder / 2 ≤ x'.items.length) :
    LeafSized (A ++ x' :: B) := by
  have others : ∀ d ∈ A ++ x' :: B, d = x' ∨ d ∈ A ++ x :: B := by
    intro d mem
    simp only [List.mem_append, List.mem_cons] at mem ⊢
    tauto
  have len : (A ++ x' :: B).length = (A ++ x :: B).length := by simp
  constructor
  · intro d mem
    rcases others d mem with rfl | mem
    · exact atMost
    · exact filled.atMost d mem
  · intro many d mem
    rw [len] at many
    rcases others d mem with rfl | mem
    · exact atLeast many
    · exact filled.atLeast many d mem

theorem Shape.refillLeaf {t : BPlusTree} {A B : List (Cell Record)} {x : Cell Record} {u : Key}
    {U V : List Key} (shape : Shape t (A ++ x :: B) (U ++ u :: V) levels) (around : Around A B U V u)
    (items : List Record) (sorted : SortedBy Record.key items)
    (routed : ∀ r ∈ items, Routes r.key U u V) (atMost : items.length ≤ bpOrder)
    (atLeast : 2 ≤ (A ++ x :: B).length → bpOrder / 2 ≤ items.length) :
    Shape (t.unmap ((⟨x.off, x.parent, items⟩ : Cell Record).node (firstOff B) (lastOff A)) x.off)
      (A ++ ⟨x.off, x.parent, items⟩ :: B) (U ++ u :: V) levels := by
  have same : ids (A ++ ⟨x.off, x.parent, items⟩ :: B) = ids (A ++ x :: B) := by simp
  have offs : offsets (A ++ ⟨x.off, x.parent, items⟩ :: B) = offsets (A ++ x :: B) := by simp
  have inside : x.off ∈ offsets (A ++ x :: B) := by simp
  refine ⟨BPlusTree.unmap_row shape.linked shape.placed.left.distinct items, ?_, shape.indexed, ?_,
    shape.filled.refill atMost atLeast, ?_, shape.order, shape.height, ?_, shape.internalNodeNum, ?_⟩
  · rw [same]
    refine shape.tower.frame fun o mem => BPlusTree.get_unmap_ne _ _ ?_
    exact ne_of_mem_of_not_mem mem (shape.placed.apart inside)
  · refine around.fill (M := [⟨x.off, x.parent, items⟩]) (W := []) ⟨rfl, by simpa using sorted, ?_, ?_⟩
      (by simpa using routed) shape.fenced.ascending
    · exact List.Pairwise.nil
    · exact List.pairwise_singleton _ _
  · rw [offs]
    exact shape.placed
  · rw [BPlusTree.unmap_info, shape.leafNodeNum]
    simp
  · rw [BPlusTree.unmap_info, shape.leafOffset]
    exact firstAddr_map offs.symm

theorem Shape.search_spec (shape : Shape t leaves bounds levels) (k : Key) :
    (∃ P r S, contents leaves = P ++ r :: S ∧ r.key = k ∧ RecordGap k P S ∧
        t.search k = .ok (0, some r.value)) ∨
      ∃ P S code found, contents leaves = P ++ S ∧ RecordGap k P S ∧
        t.search k = .ok (code, found) ∧ code ≠ 0 := by
  obtain ⟨A, x, B, U, u, V, L, c, R, rest, X, e, Y, rfl, rfl, rfl, at_⟩ := shape.locate k
  rcases at_.cases with ⟨P, r, S, items, rfl, gap⟩ | ⟨P, S, items, gap⟩
  · left
    refine ⟨contents A ++ P, r, S ++ contents B, by simp [items], rfl, at_.gap gap, ?_⟩
    have place := findRecord_found (x.node (firstOff B) (lastOff A)) items gap
    simp only [BPlusTree.search, at_.searchLeaf, bind, Except.bind, at_.leaf.map, place]
    simp only [Cell.node, items, getElem?_append_length_cons, keycmp_zero.mpr, pure, Except.pure]
  · right
    have place := findRecord_absent (x.node (firstOff B) (lastOff A)) items gap
    have split : contents (A ++ x :: B) = (contents A ++ P) ++ (S ++ contents B) := by simp [items]
    cases S with
    | nil =>
      refine ⟨_, _, -1, none, split, at_.gap gap, ?_, by decide⟩
      simp only [BPlusTree.search, at_.searchLeaf, bind, Except.bind, at_.leaf.map, place]
      simp [Cell.node, items, pure, Except.pure]
    | cons r S =>
      refine ⟨_, _, keycmp r.key k, some r.value, split, at_.gap gap, ?_, ?_⟩
      · simp only [BPlusTree.search, at_.searchLeaf, bind, Except.bind, at_.leaf.map, place]
        simp only [Cell.node, items, getElem?_append_length_cons, pure, Except.pure]
      · exact fun zero => (gap.below r (by simp)).ne' (keycmp_zero.mp zero)

theorem Shape.update_spec (shape : Shape t leaves bounds levels) (k : Key) (v : Value) :
    (∃ P r S t' leaves', contents leaves = P ++ r :: S ∧ r.key = k ∧ RecordGap k P S ∧
        t.update k v = .ok (0, t') ∧ Shape t' leaves' bounds levels ∧
        contents leaves' = P ++ ⟨k, v⟩ :: S) ∨
      ∃ P S code, contents leaves = P ++ S ∧ RecordGap k P S ∧ t.update k v = .ok (code, t) ∧
        code ≠ 0 := by
  obtain ⟨A, x, B, U, u, V, L, c, R, rest, X, e, Y, rfl, rfl, rfl, at_⟩ := shape.locate k
  rcases at_.cases with ⟨P, r, S, items, rfl, gap⟩ | ⟨P, S, items, gap⟩
  · left
    have sorted : SortedBy Record.key (P ++ (⟨r.key, v⟩ : Record) :: S) :=
      (show SortedBy Record.key (P ++ r :: S) from items ▸ at_.sorted).replace rfl
    have len : (P ++ (⟨r.key, v⟩ : Record) :: S).length = x.items.length := by simp [items]
    refine ⟨contents A ++ P, r, S ++ contents B, _, A ++ ⟨x.off, x.parent, P ++ ⟨r.key, v⟩ :: S⟩ :: B,
      by simp [items], rfl, at_.gap gap, ?_, shape.refillLeaf at_.around _ sorted ?_ ?_ ?_, by simp⟩
    · have place := findRecord_found (x.node (firstOff B) (lastOff A)) items gap
      simp only [BPlusTree.update, at_.searchLeaf, bind, Except.bind, at_.leaf.map, place]
      simp only [Cell.node, items, getElem?_append_length_cons, keycmp_zero.mpr, if_true,
        set_append_length, pure, Except.pure]
    · intro s mem
      rcases List.mem_append.mp mem with mem | mem
      · exact at_.routed s (by simp [items, mem])
      · rcases List.mem_cons.mp mem with rfl | mem
        · exact at_.routed r (by simp [items])
        · exact at_.routed s (by simp [items, mem])
    · exact len ▸ shape.filled.atMost x (by simp)
    · exact fun many => len ▸ shape.filled.atLeast many x (by simp)
  · right
    have place := findRecord_absent (x.node (firstOff B) (lastOff A)) items gap
    have split : contents (A ++ x :: B) = (contents A ++ P) ++ (S ++ contents B) := by simp [items]
    cases S with
    | nil =>
      refine ⟨_, _, -1, split, at_.gap gap, ?_, by decide⟩
      simp only [BPlusTree.update, at_.searchLeaf, bind, Except.bind, at_.leaf.map, place]
      simp [Cell.node, items, pure, Except.pure]
    | cons r S =>
      refine ⟨_, _, 1, split, at_.gap gap, ?_, by decide⟩
      have other : keycmp k r.key ≠ 0 := fun zero => (gap.below r (by simp)).ne (keycmp_zero.mp zero)
      simp only [BPlusTree.update, at_.searchLeaf, bind, Except.bind, at_.leaf.map, place]
      simp only [Cell.node, items, getElem?_append_length_cons, other, if_false, pure, Except.pure]

end Fdfs2qq.Bpt
