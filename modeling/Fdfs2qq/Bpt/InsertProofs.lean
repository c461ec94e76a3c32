import Fdfs2qq.Bpt.ClimbProofs
import Fdfs2qq.Bpt.SearchProofs
import Fdfs2qq.Bpt.WellFormedProofs
import Fdfs2qq.Bpt.EditProofs

/-! `insert` on a tree with given rows: the rows of the tree it leaves. -/
namespace Fdfs2qq.Bpt
open Lib

theorem Tower.length_le_blocks (tower : Tower f root lower bounds levels)
    (distinct : (levelOffs levels).Nodup) : levels.length ≤ f.blocks.length :=
  tower.length_le.trans (File.length_le_blocks distinct tower.written)

theorem LeafSized.of_bodies {row row' : List (Cell Record)} (same : bodies row = bodies row')
    (filled : LeafSized row) : LeafSized row' := by
  constructor
  · intro c mem
    obtain ⟨d, mem', eq⟩ := exists_of_bodies same mem
    exact eq ▸ filled.atMost d mem'
  · intro many c mem
    obtain ⟨d, mem', eq⟩ := exists_of_bodies same mem
    exact eq ▸ filled.atLeast (length_of_bodies same ▸ many) d mem'

theorem LeafSized.split {A B : List (Cell Record)} {x d d' : Cell Record}
    (filled : LeafSized (A ++ x :: B)) (least : bpOrder / 2 ≤ d.items.length)
    (least' : bpOrder / 2 ≤ d'.items.length) (most : d.items.length ≤ bpOrder)
    (most' : d'.items.length ≤ bpOrder) : LeafSized (A ++ d :: d' :: B) := by
  have half : ∀ e ∈ A ++ d :: d' :: B, bpOrder / 2 ≤ e.items.length ∧ e.items.length ≤ bpOrder := by
    intro e mem
    simp only [List.mem_append, List.mem_cons] at mem
    rcases mem with mem | rfl | rfl | mem
    · have nonempty := List.length_pos_of_mem mem
      refine ⟨filled.atLeast ?_ e (by simp [mem]), filled.atMost e (by simp [mem])⟩
      simp only [List.length_append, List.length_cons]
      omega
    · exact ⟨least, most⟩
    · exact ⟨least', most'⟩
    · have nonempty := List.length_pos_of_mem mem
      refine ⟨filled.atLeast ?_ e (by simp [mem]), filled.atMost e (by simp [mem])⟩
      simp only [List.length_append, List.length_cons]
      omega
  exact ⟨fun e mem => (half e mem).2, fun _ e mem => (half e mem).1⟩

theorem Ascending.insert {U V : List Key} (asc : Ascending (U ++ u :: V)) (above : ∀ a ∈ U, a < k)
    (below : V ≠ [] → k < u) : Ascending (U ++ k :: u :: V) := by
  rw [Ascending, List.dropLast_append_of_ne_nil (List.cons_ne_nil _ _), List.pairwise_append] at asc
  rw [Ascending, dropLast_append_cons_cons, List.pairwise_append, List.pairwise_cons]
  have after : ∀ v ∈ (u :: V).dropLast, k < v := by
    intro v mem
    by_cases empty : V = []
    · simp [empty] at mem
    · rw [List.dropLast_cons_of_ne_nil empty, List.mem_cons] at mem
      rcases mem with rfl | mem
      · exact below empty
      · rw [List.dropLast_cons_of_ne_nil empty, List.pairwise_cons] at asc
        exact (below empty).trans (asc.2.1.1 v mem)
  refine ⟨asc.1, ⟨after, asc.2.1⟩, ?_⟩
  intro a memA b memB
  rcases List.mem_cons.mp memB with rfl | memB
  · exact above a memA
  · exact (above a memA).trans (after b memB)

theorem Around.split {A B : List (Cell Record)} {U V : List Key} {u : Key} {I J : List Record}
    {j : Record} (around : Around A B U V u) (asc : Ascending (U ++ u :: V)) (filled : I ≠ [])
    (sorted : SortedBy Record.key (I ++ j :: J)) (routed : ∀ r ∈ I ++ j :: J, Routes r.key U u V)
    (o o' p p' : Offset) :
    Ascending (U ++ j.key :: u :: V) ∧
      Fenced (A ++ ⟨o, p, I⟩ :: ⟨o', p', j :: J⟩ :: B) (U ++ j.key :: u :: V) := by
  obtain ⟨sortedI, sortedJ, across⟩ := SortedBy.append_iff.mp sorted
  have firstJ := (List.pairwise_cons.mp sortedJ).1
  obtain ⟨i, I', rfl⟩ := List.exists_cons_of_ne_nil filled
  have above : ∀ a ∈ U, a < j.key := fun a mem =>
    ((routed i (by simp)).above a mem).trans_lt (across i (by simp) j (by simp))
  have asc' := asc.insert above (routed j (by simp)).below
  refine ⟨asc', ?_⟩
  refine around.fill (M := [⟨o, p, i :: I'⟩, ⟨o', p', j :: J⟩]) (W := [j.key]) ⟨rfl, ?_, ?_, ?_⟩ ?_ asc'
  · intro c mem
    simp only [List.mem_cons, List.not_mem_nil, or_false] at mem
    rcases mem with rfl | rfl
    · exact sortedI
    · exact sortedJ
  · exact List.pairwise_singleton _ _
  · refine List.pairwise_pair.mpr ⟨fun r mem => across r mem j (by simp), fun r mem => ?_⟩
    rcases List.mem_cons.mp mem with rfl | mem
    · exact le_rfl
    · exact (firstJ r mem).le
  · intro c mem r inside
    simp only [List.mem_cons, List.not_mem_nil, or_false] at mem
    rcases mem with rfl | rfl
    · exact routed r (List.mem_append_left _ inside)
    · exact routed r (List.mem_append_right _ inside)

theorem routed_insert {xs ys : List Record} (routed : ∀ r ∈ xs ++ ys, Routes r.key U u V)
    (route : Routes k U u V) : ∀ r ∈ xs ++ ⟨k, v⟩ :: ys, Routes r.key U u V := by
  intro r mem
  rcases List.mem_append.mp mem with mem | mem
  · exact routed r (List.mem_append_left _ mem)
  · rcases List.mem_cons.mp mem with rfl | mem
    · exact route
    · exact routed r (List.mem_append_right _ mem)

namespace BPlusTree

theorem insert_present {t : BPlusTree} (at_ : Located t k A x B U u V L c R X e Y)
    (items : x.items = P ++ r :: S) (found : r.key = k) (gap : RecordGap k P S) (v : Value) :
    t.insert k v = .ok (1, t) := by
  subst found
  have present := binarySearch_found (x.node (firstOff B) (lastOff A)) items gap
  simp only [insert, at_.searchIndex, at_.searchLeafFrom, at_.leaf.map, bind, Except.bind, present,
    if_true, pure, Except.pure]

theorem insert_room {t : BPlusTree} (at_ : Located t k A x B U u V L c R X e Y)
    (items : x.items = P ++ S) (gap : RecordGap k P S) (room : x.items.length < bpOrder)
    (order : t.info.order = bpOrder) (v : Value) :
    t.insert k v = .ok (0, t.unmap ((⟨x.off, x.parent, P ++ ⟨k, v⟩ :: S⟩ : Cell Record).node
      (firstOff B) (lastOff A)) x.off) := by
  have absent := binarySearch_absent (x.node (firstOff B) (lastOff A)) items gap
  have opened := insertRecordNoSplit_gap (x.node (firstOff B) (lastOff A)) gap items
    (items ▸ room) v
  have notFull : (x.node (firstOff B) (lastOff A)).children.length ≠ t.info.order := by
    rw [order]
    exact room.ne
  simp only [insert, at_.searchIndex, at_.searchLeafFrom, at_.leaf.map, bind, Except.bind, absent,
    Bool.false_eq_true, if_false, notFull, opened, pure, Except.pure]
  rfl

end BPlusTree

/-- `insert` of an absent key into a full leaf. -/
theorem Shape.insert_full {t : BPlusTree}
    (shape : Shape t (A ++ x :: B) (U ++ u :: V) levels)
    (at_ : Located t k A x B U u V L c R X e Y) (items : x.items = P ++ S) (gap : RecordGap k P S)
    (full : x.items.length = bpOrder) (v : Value) :
    ∃ t' leaves' bounds' levels', t.insert k v = .ok (0, t') ∧ Shape t' leaves' bounds' levels' ∧
      contents leaves' = (contents A ++ P) ++ ⟨k, v⟩ :: (S ++ contents B) := by
  have absent := binarySearch_absent (x.node (firstOff B) (lastOff A)) items gap
  have placed := shape.placed.left
  obtain ⟨I, J, split, joined, leastI, leastJ, mostI, mostJ⟩ := BPlusTree.splitLeaf_gap
    (x.node t.info.slot (lastOff A))
    ((⟨t.info.slot, x.parent, []⟩ : Cell Record).node (firstOff B) x.off) gap items
    (items ▸ full) v
  obtain ⟨t₁, created, info₁, halves⟩ :=
    BPlusTree.nodeCreate_row shape.linked placed.distinct placed.positive placed.fresh
  obtain ⟨t₂, written, info₂, linked₂, frame₂⟩ := halves I J
  have filledI : I ≠ [] := fun empty => by simp [empty, bpOrder] at leastI
  obtain ⟨j, J', rfl⟩ := List.exists_cons_of_ne_nil
    (show J ≠ [] from fun empty => by simp [empty, bpOrder] at leastJ)
  have sorted : SortedBy Record.key (I ++ j :: J') := by
    rw [joined]
    exact (show SortedBy Record.key (P ++ S) from items ▸ at_.sorted).insert gap
  have routed : ∀ r ∈ I ++ j :: J', Routes r.key U u V := by
    rw [joined]
    exact routed_insert (items ▸ at_.routed) at_.route
  obtain ⟨asc, fenced⟩ := at_.around.split shape.fenced.ascending filledI sorted routed x.off
    t.info.slot x.parent x.parent
  have info : t₂.info = (t.alloc Record).2.info := info₂.trans info₁
  have mark : t.info.slot < t₂.info.slot := by rw [info]; exact Nat.lt_add_of_pos_right (by decide)
  have placed₂ : Placed t₂.info.slot
      (offsets (A ++ ⟨x.off, x.parent, I⟩ :: ⟨t.info.slot, x.parent, j :: J'⟩ :: B) ++
        levelOffs levels) := by
    have old : Placed t.info.slot (offsets A ++ x.off :: (offsets B ++ levelOffs levels)) := by
      simpa using shape.placed
    simpa using old.grow mark
  have tower₂ : Tower t₂.file t₂.info.rootOffset (ids (A ++ ⟨x.off, x.parent, I⟩ :: B))
      (U ++ u :: V) levels := by
    have same : ids (A ++ ⟨x.off, x.parent, I⟩ :: B) = ids (A ++ x :: B) := by simp
    have root : t₂.info.rootOffset = t.info.rootOffset := by rw [info]; rfl
    rw [same, root]
    refine shape.tower.frame fun o mem => frame₂ o (shape.placed.apart' mem) ?_
    exact ne_of_mem_of_not_mem mem shape.placed.right.fresh
  obtain ⟨t', leaves', levels', run, up⟩ := BPlusTree.insertKeyToIndex_climb levels linked₂ rfl
    tower₂ at_.around.lenA at_.around.lenB asc placed₂ (by rw [info]; exact shape.order)
    (show levels.length ≤ t₂.climbFuel from
      (tower₂.length_le_blocks placed₂.right.distinct).trans (Nat.le_succ _))
  have offs := offsets_of_bodies up.same
  refine ⟨t', leaves', _, levels', ?_, ⟨up.row, up.tower, up.indexed, fenced.of_bodies up.same.symm,
    (shape.filled.split leastI leastJ mostI mostJ).of_bodies up.same.symm, ?_, ?_, ?_, ?_, ?_, ?_⟩, ?_⟩
  · simp only [Cell.node] at split written created
    simp only [BPlusTree.insert, at_.searchIndex, at_.searchLeafFrom, at_.leaf.map, bind, Except.bind,
      absent, Bool.false_eq_true, if_false]
    simp only [Cell.node, full, shape.order, if_true, created, split, written, slotAt,
      List.getElem?_cons_zero, at_.owner, run, pure, Except.pure]
  · exact up.joined placed₂
  · rw [up.order, info]
    exact shape.order
  · have height := up.height
    have stays : t₂.info.height = t.info.height := by rw [info]; rfl
    have := shape.height
    omega
  · have count := length_of_bodies up.same
    have one : t₂.info.leafNodeNum = t.info.leafNodeNum + 1 := by rw [info]; rfl
    rw [up.leafNodeNum, one, shape.leafNodeNum, count]
    simp only [List.length_append, List.length_cons]
    omega
  · have nodes := up.nodes
    have stays : t₂.info.internalNodeNum = t.info.internalNodeNum := by rw [info]; rfl
    have := shape.internalNodeNum
    omega
  · have stays : t₂.info.leafOffset = t.info.leafOffset := by rw [info]; rfl
    rw [up.leafOffset, stays, shape.leafOffset]
    have first : firstOff leaves' = firstOff
        (A ++ ⟨x.off, x.parent, I⟩ :: ⟨t.info.slot, x.parent, j :: J'⟩ :: B) := firstAddr_map offs
    rw [first]
    cases A <;> rfl
  · rw [contents_of_bodies up.same]
    simp only [contents_append, contents_cons, List.append_assoc]
    rw [← List.append_assoc I, joined]
    simp

theorem Shape.insert_spec (shape : Shape t leaves bounds levels) (k : Key) (v : Value) :
    (∃ P r S, contents leaves = P ++ r :: S ∧ r.key = k ∧ RecordGap k P S ∧
        t.insert k v = .ok (1, t)) ∨
      ∃ P S t' leaves' bounds' levels', contents leaves = P ++ S ∧ RecordGap k P S ∧
        t.insert k v = .ok (0, t') ∧ Shape t' leaves' bounds' levels' ∧
        contents leaves' = P ++ ⟨k, v⟩ :: S := by
  obtain ⟨A, x, B, U, u, V, L, c, R, rest, X, e, Y, rfl, rfl, rfl, at_⟩ := shape.locate k
  rcases at_.cases with ⟨P, r, S, items, found, gap⟩ | ⟨P, S, items, gap⟩
  · left
    exact ⟨contents A ++ P, r, S ++ contents B, by simp [items], found, at_.gap gap,
      BPlusTree.insert_present at_ items found gap v⟩
  · right
    have split : contents (A ++ x :: B) = (contents A ++ P) ++ (S ++ contents B) := by simp [items]
    rcases Nat.lt_or_ge x.items.length bpOrder with room | full
    · have sorted : SortedBy Record.key (P ++ (⟨k, v⟩ : Record) :: S) :=
        (show SortedBy Record.key (P ++ S) from items ▸ at_.sorted).insert gap
      have len : (P ++ (⟨k, v⟩ : Record) :: S).length = x.items.length + 1 := by simp [items]; omega
      refine ⟨_, _, _, _, _, _, split, at_.gap gap,
        BPlusTree.insert_room at_ items gap room shape.order v, shape.refillLeaf at_.around _ sorted
          (routed_insert (items ▸ at_.routed) at_.route) ?_ ?_, by simp⟩
      · rw [len]
        exact room
      · intro many
        rw [len]
        exact (shape.filled.atLeast many x (by simp)).trans (Nat.le_succ _)
    · have full : x.items.length = bpOrder := le_antisymm (shape.filled.atMost x (by simp)) full
      obtain ⟨t', leaves', bounds', levels', run, shape', eq⟩ := shape.insert_full at_ items gap full v
      exact ⟨_, _, t', leaves', bounds', levels', split, at_.gap gap, run, shape', eq⟩

namespace BPlusTree

theorem notMem_keys {P S : List Record} (gap : RecordGap k P S) : k ∉ (P ++ S).map Record.key := by
  intro mem
  obtain ⟨r, inside, same⟩ := List.mem_map.mp mem
  exact gap.notMem r inside same

/-- `insert` keeps well-formed trees and adds exactly one record, or finds the
key and changes nothing. -/
theorem insert_wellFormed (t : BPlusTree) (wf : t.WellFormed) (key : Key) (value : Value) :
    (key ∉ t.records.map Record.key →
      ∃ t', t.insert key value = .ok (0, t') ∧ t'.WellFormed ∧
        t'.records.Perm (⟨key, value⟩ :: t.records)) ∧
    (key ∈ t.records.map Record.key → t.insert key value = .ok (1, t)) := by
  obtain ⟨leaves, bounds, levels, shape⟩ := wf.shaped
  rw [shape.records_eq]
  rcases shape.insert_spec key value with ⟨P, r, S, split, found, gap, run⟩ |
    ⟨P, S, t', leaves', bounds', levels', split, gap, run, shape', split'⟩
  · rw [split]
    refine ⟨fun absent => absurd ?_ absent, fun _ => run⟩
    rw [← found]
    exact List.mem_map_of_mem (by simp)
  · rw [split]
    refine ⟨fun _ => ⟨t', run, shape'.wellFormed (wf.laid.insert _ run), ?_⟩, fun present => absurd present (notMem_keys gap)⟩
    rw [shape'.records_eq, split']
    exact List.perm_middle

theorem insert_wellFormed_packed : ∃ t', Packed.tree.insert (Packed.number 2000) 7 = .ok (0, t') ∧
    t'.WellFormed ∧ t'.records.Perm (⟨Packed.number 2000, 7⟩ :: Packed.tree.records) :=
  (insert_wellFormed Packed.tree packed_wellFormed (Packed.number 2000) 7).1 (by decide +kernel)

end BPlusTree

end Fdfs2qq.Bpt
