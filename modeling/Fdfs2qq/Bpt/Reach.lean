import Mathlib.Data.Set.Card
import Fdfs2qq.Bpt.CallProofs

/-! What can be reached from the root by child pointers, and back by parent
fields, in the states that runs of calls lead to. -/
namespace Fdfs2qq.Bpt
open Lib

namespace BPlusTree

/-- The block at `off` is reached from the root through `d` child pointers. -/
inductive Reaches (t : BPlusTree) : Nat → Offset → Prop where
  | root : t.Reaches 0 t.info.rootOffset
  | child : t.Reaches d off → t.map Index off = .ok node → e ∈ node.children →
      t.Reaches (d + 1) e.child

/-- Following parent fields from `off` until one reads 0 ends at `top`. -/
inductive ClimbsTo (t : BPlusTree) : Offset → Offset → Prop where
  | stop : t.file.get off = some b → b.parent = 0 → t.ClimbsTo off off
  | up : t.file.get off = some b → b.parent ≠ 0 → t.ClimbsTo b.parent top → t.ClimbsTo off top

/-- Parent fields lead back up the child pointers, and end at the root. -/
structure ParentsRight (t : BPlusTree) : Prop where
  root : ∃ b ∈ t.file.get t.info.rootOffset, b.parent = 0
  child : ∀ d off node, t.Reaches d off → t.map Index off = .ok node →
    ∀ e ∈ node.children, ∃ b ∈ t.file.get e.child, b.parent = off
  climbs : ∀ d off, t.Reaches d off → t.ClimbsTo off t.info.rootOffset

def internals (t : BPlusTree) : Set Offset :=
  {off | (∃ d, t.Reaches d off) ∧ ∃ node, t.map Index off = .ok node}

def leafs (t : BPlusTree) : Set Offset :=
  {off | (∃ d, t.Reaches d off) ∧ ∃ node, t.map Record off = .ok node}

/-- Depth, counters and occupancy are right, and no assertion fails next. -/
structure Balanced (t : BPlusTree) : Prop where
  depth : ∀ d off node, t.Reaches d off → t.map Record off = .ok node → d = t.info.height
  internalNodeNum : t.info.internalNodeNum = t.internals.ncard
  leafNodeNum : t.info.leafNodeNum = t.leafs.ncard
  internalSize : ∀ d off node, t.Reaches d off → t.map Index off = .ok node →
    off ≠ t.info.rootOffset → bpOrder / 2 ≤ node.children.length ∧ node.children.length ≤ bpOrder
  leafSize : 1 < t.leafs.ncard → ∀ d off node, t.Reaches d off → t.map Record off = .ok node →
    bpOrder / 2 ≤ node.children.length ∧ node.children.length ≤ bpOrder
  insertSafe : ∀ key value, t.insert key value ≠ .error .assertion
  removeSafe : ∀ key, t.remove key ≠ .error .assertion

theorem not_both {t : BPlusTree} {node : Node Index} {leaf : Node Record} (read : t.map Index off = .ok node)
    (read' : t.map Record off = .ok leaf) : False := by
  have internal := t.get_of_map_internal (show node ∈ _ by rw [read]; rfl)
  have same := t.get_of_map_leaf (show leaf ∈ _ by rw [read']; rfl)
  rw [internal] at same
  simp at same

theorem place_of_child {t : BPlusTree} {node : Node Index} (p : Place) (read : t.map Index p.off = .ok node)
    (mem : e ∈ node.children) : ∃ q ∈ t.file.childPlaces p, q.off = e.child ∧ q.parent = p.off := by
  have found := t.get_of_map_internal (show node ∈ (t.map Index p.off).toOption by rw [read]; rfl)
  have ids := placesBetween_ids p.hi p.lo (node.children.map fun slot => ((slot.child, p.off), slot.key))
  have inside : (e.child, p.off) ∈ (t.file.childPlaces p).map fun q => (q.off, q.parent) := by
    simp only [File.childPlaces, found, ids, List.map_map, List.mem_map]
    exact ⟨e, mem, rfl⟩
  obtain ⟨q, inRow, same⟩ := List.mem_map.mp inside
  obtain ⟨off, parent⟩ := Prod.mk.inj same
  exact ⟨q, inRow, off, parent⟩

theorem child_of_place {t : BPlusTree} {p q : Place} (mem : q ∈ t.file.childPlaces p) :
    ∃ node e, t.map Index p.off = .ok node ∧ e ∈ node.children ∧ e.child = q.off ∧ q.parent = p.off := by
  unfold File.childPlaces at mem
  split at mem
  next h slots found =>
    have inside : (q.off, q.parent) ∈ (slots.map fun slot => (slot.child, p.off)) := by
      have := List.mem_map_of_mem (f := fun q : Place => (q.off, q.parent)) mem
      rwa [placesBetween_ids, List.map_map] at this
    obtain ⟨e, inSlots, same⟩ := List.mem_map.mp inside
    obtain ⟨off, parent⟩ := Prod.mk.inj same
    exact ⟨⟨h, slots⟩, e, map_of_get found, inSlots, off, parent.symm⟩
  next => simp at mem

namespace WellFormed

variable {t : BPlusTree} (wf : t.WellFormed)
include wf

theorem place_of_reaches (reaches : t.Reaches d off) :
    d ≤ t.info.height ∧ ∃ p ∈ t.row d, p.off = off := by
  induction reaches with
  | root => exact ⟨Nat.zero_le _, _, List.mem_singleton.mpr rfl, rfl⟩
  | @child d off node e _ read mem ih =>
    obtain ⟨within, p, inRow, rfl⟩ := ih
    rcases within.lt_or_eq with less | rfl
    · obtain ⟨q, inside, off, _⟩ := place_of_child p read mem
      exact ⟨less, q, List.mem_flatMap.mpr ⟨p, inRow, inside⟩, off⟩
    · obtain ⟨leaf, found, _⟩ := wf.leaf p inRow
      exact (not_both read (map_of_get (t.get_of_map_leaf found))).elim

omit wf in
theorem reaches_of_place {p : Place} (mem : p ∈ t.row d) : t.Reaches d p.off := by
  induction d generalizing p with
  | zero =>
    obtain rfl := List.mem_singleton.mp mem
    exact .root
  | succ d ih =>
    obtain ⟨q, inRow, inside⟩ := List.mem_flatMap.mp mem
    obtain ⟨node, e, read, inSlots, same, _⟩ := child_of_place inside
    exact same ▸ .child (ih inRow) read inSlots

theorem internal_of_reaches {node : Node Index} (reaches : t.Reaches d off)
    (read : t.map Index off = .ok node) : d < t.info.height ∧ ∃ p ∈ t.row d, p.off = off := by
  obtain ⟨within, p, inRow, rfl⟩ := wf.place_of_reaches reaches
  refine ⟨within.lt_of_ne fun deep => ?_, p, inRow, rfl⟩
  subst deep
  obtain ⟨leaf, found, _⟩ := wf.leaf p inRow
  exact not_both read (map_of_get (t.get_of_map_leaf found))

theorem leaf_of_reaches {leaf : Node Record} (reaches : t.Reaches d off)
    (read : t.map Record off = .ok leaf) :
    d = t.info.height ∧ ∃ p ∈ t.row t.info.height, p.off = off := by
  obtain ⟨within, p, inRow, rfl⟩ := wf.place_of_reaches reaches
  rcases within.lt_or_eq with less | rfl
  · obtain ⟨node, found, _⟩ := wf.internal d less p inRow
    exact (not_both (map_of_get (t.get_of_map_internal found)) read).elim
  · exact ⟨rfl, p, inRow, rfl⟩

theorem parent_of_place {p : Place} (within : d ≤ t.info.height) (mem : p ∈ t.row d) :
    ∃ b ∈ t.file.get p.off, b.parent = p.parent := by
  rcases within.lt_or_eq with less | rfl
  · obtain ⟨node, found, owner, _⟩ := wf.internal d less p mem
    exact ⟨_, t.get_of_map_internal found, owner⟩
  · obtain ⟨leaf, found, owner, _⟩ := wf.leaf p mem
    exact ⟨_, t.get_of_map_leaf found, owner⟩

theorem off_pos {p : Place} (within : d ≤ t.info.height) (mem : p ∈ t.row d) : 0 < p.off := by
  refine (wf.allocated p.off (List.mem_flatMap.mpr ⟨d, ?_, List.mem_map_of_mem mem⟩)).1
  rw [List.mem_range]
  omega

theorem climbsTo {p : Place} (within : d ≤ t.info.height) (mem : p ∈ t.row d) :
    t.ClimbsTo p.off t.info.rootOffset := by
  induction d generalizing p with
  | zero =>
    obtain ⟨b, found, empty⟩ := wf.parent_of_place within mem
    obtain rfl := List.mem_singleton.mp mem
    exact .stop found empty
  | succ d ih =>
    obtain ⟨b, found, owner⟩ := wf.parent_of_place within mem
    obtain ⟨q, inRow, inside⟩ := List.mem_flatMap.mp mem
    obtain ⟨_, _, _, _, _, same⟩ := child_of_place inside
    have up := ih (by omega) inRow
    have positive := wf.off_pos (show d ≤ t.info.height by omega) inRow
    rw [← same, ← owner] at up positive
    exact .up found positive.ne' up

theorem parentsRight : t.ParentsRight := by
  refine ⟨?_, fun d off node reaches read e mem => ?_, fun d off reaches => ?_⟩
  · exact wf.parent_of_place (Nat.zero_le _)
      (show (⟨t.info.rootOffset, 0, none, none⟩ : Place) ∈ t.row 0 from List.mem_singleton.mpr rfl)
  · obtain ⟨less, p, inRow, rfl⟩ := wf.internal_of_reaches reaches read
    obtain ⟨q, inside, off, owner⟩ := place_of_child p read mem
    obtain ⟨b, found, same⟩ := wf.parent_of_place less (List.mem_flatMap.mpr ⟨p, inRow, inside⟩)
    exact ⟨b, off ▸ found, same.trans owner⟩
  · obtain ⟨within, p, inRow, rfl⟩ := wf.place_of_reaches reaches
    exact wf.climbsTo within inRow

theorem internals_eq : t.internals =
    {off | off ∈ (List.range t.info.height).flatMap fun d => (t.row d).map Place.off} := by
  ext off
  simp only [internals, Set.mem_ofPred_eq, List.mem_flatMap, List.mem_range, List.mem_map]
  constructor
  · rintro ⟨⟨d, reaches⟩, node, read⟩
    obtain ⟨less, p, inRow, rfl⟩ := wf.internal_of_reaches reaches read
    exact ⟨d, less, p, inRow, rfl⟩
  · rintro ⟨d, less, p, inRow, rfl⟩
    obtain ⟨node, found, _⟩ := wf.internal d less p inRow
    exact ⟨⟨d, reaches_of_place inRow⟩, node, map_of_get (t.get_of_map_internal found)⟩

theorem leafs_eq : t.leafs = {off | off ∈ (t.row t.info.height).map Place.off} := by
  ext off
  simp only [leafs, Set.mem_ofPred_eq, List.mem_map]
  constructor
  · rintro ⟨⟨d, reaches⟩, leaf, read⟩
    exact (wf.leaf_of_reaches reaches read).2
  · rintro ⟨p, inRow, rfl⟩
    obtain ⟨leaf, found, _⟩ := wf.leaf p inRow
    exact ⟨⟨_, reaches_of_place inRow⟩, leaf, map_of_get (t.get_of_map_leaf found)⟩

omit wf in
theorem ncard_nodup {xs : List Offset} (distinct : xs.Nodup) : {o | o ∈ xs}.ncard = xs.length := by
  rw [← List.toFinset_card_of_nodup distinct, ← Set.ncard_coe_finset]
  simp

theorem internals_ncard : t.info.internalNodeNum = t.internals.ncard := by
  have distinct := wf.distinct
  rw [offsetsTo, List.range_succ, List.flatMap_append, List.nodup_append] at distinct
  rw [wf.internals_eq, ncard_nodup distinct.1, List.length_flatMap, wf.internalNodeNum]
  simp

theorem leafs_ncard : t.info.leafNodeNum = t.leafs.ncard := by
  have distinct := wf.distinct
  rw [offsetsTo, List.range_succ, List.flatMap_append, List.nodup_append] at distinct
  rw [wf.leafs_eq, ncard_nodup (by simpa using distinct.2.1), List.length_map, wf.leafNodeNum]

theorem balanced : t.Balanced := by
  refine ⟨fun d off leaf reaches read => (wf.leaf_of_reaches reaches read).1, wf.internals_ncard,
    wf.leafs_ncard, fun d off node reaches read inner => ?_, fun many d off leaf reaches read => ?_,
    fun key value fault => ?_, fun key fault => ?_⟩
  · obtain ⟨less, p, inRow, rfl⟩ := wf.internal_of_reaches reaches read
    obtain ⟨node', found, _, _, _, _, atMost, atLeast⟩ := wf.internal d less p inRow
    rw [read] at found
    obtain rfl := Option.some.inj found
    have below : d ≠ 0 := by
      rintro rfl
      obtain rfl := List.mem_singleton.mp inRow
      exact inner rfl
    rw [if_neg below] at atLeast
    exact ⟨atLeast, atMost⟩
  · obtain ⟨_, p, inRow, rfl⟩ := wf.leaf_of_reaches reaches read
    obtain ⟨leaf', found, _, _, _, atMost, atLeast⟩ := wf.leaf p inRow
    rw [read] at found
    obtain rfl := Option.some.inj found
    rw [← wf.leafs_ncard] at many
    exact ⟨atLeast.resolve_left (by omega), atMost⟩
  · obtain ⟨leaves, bounds, levels, shape⟩ := wf.shaped
    rcases shape.insert_spec key value with ⟨_, _, _, _, _, _, run⟩ | ⟨_, _, _, _, _, _, _, _, run, _⟩ <;>
      rw [run] at fault <;> cases fault
  · obtain ⟨leaves, bounds, levels, shape⟩ := wf.shaped
    rcases shape.remove_spec key with ⟨_, _, _, _, run, _⟩ | ⟨_, _, _, _, _, _, removed⟩
    · rw [run] at fault
      cases fault
    · by_cases overrun : .overrun ∈ t.removeDefects key
      · rw [removed.fault overrun] at fault
        cases fault
      · obtain ⟨t', _, run, _⟩ := removed.fine overrun
        rw [run] at fault
        cases fault

end WellFormed

/-- A call without a defect that returns. The defects that spoil keys only are among
them: behind a wrong separator `change_parent_child` may find its key in the last slot
of every node up to the root, and goes on with the node at offset 0. -/
def CleanStep (t : BPlusTree) (c : Call) (t' : BPlusTree) : Prop := t.Clean c ∧ Returns call t c t'

theorem wellFormed_of_run (run : Run CleanStep initFromEmpty calls t) : t.WellFormed := by
  have preserves : ∀ {s : BPlusTree} {c : Call} {t' : BPlusTree},
      (∃ m, Represents s m) → BPlusTree.CleanStep s c t' → ∃ m, Represents t' m := by
    rintro s c t' ⟨m, represents⟩ ⟨clean, answer, returned⟩
    obtain ⟨_, _, returned', _, represents'⟩ := represents.call clean
    rw [returned] at returned'
    cases returned'
    exact ⟨_, represents'⟩
  obtain ⟨m, represents⟩ :=
    Run.invariant (P := fun t => ∃ m, Represents t m) preserves run ⟨_, represents_empty⟩
  exact represents.wellFormed

/-- Clean runs keep the parent fields right. -/
theorem parentsRight_of_run (calls : List Call) (t : BPlusTree)
    (run : Run CleanStep initFromEmpty calls t) : t.ParentsRight :=
  (wellFormed_of_run run).parentsRight

theorem parentsRight_trimmed : ∃ t, Run CleanStep initFromEmpty (Grown.calls ++ Grown.trimming) t ∧ t.ParentsRight := by
  obtain ⟨t, played⟩ := exists_trimmed
  have run : Run CleanStep initFromEmpty (Grown.calls ++ Grown.trimming) t := trimming_clean.run played
  exact ⟨t, run, parentsRight_of_run _ t run⟩

/-- Seven removals after which the left internal node of the grown tree is the
only one. -/
def shrinking : List Call := [0, 11, 1, 33, 44, 55, 45].map fun i => .remove (Packed.number i)

/-- The new root keeps the dropped one as its parent. -/
theorem not_parentsRight_shrunk : ∃ t,
    Run (Returns call) initFromEmpty (Grown.calls ++ shrinking) t ∧ ¬ t.ParentsRight := by
  apply grown_run
  have shrunk : ∃ t ∈ (play call Grown.tree shrinking).toOption,
      ∀ b ∈ t.file.get t.info.rootOffset, b.parent ≠ 0 := by decide +kernel
  obtain ⟨t, last, orphan⟩ := shrunk
  refine ⟨t, last, fun right => ?_⟩
  obtain ⟨b, found, empty⟩ := right.root
  exact orphan b found empty

/-- Clean runs keep the tree balanced and accounted for. -/
theorem balanced_of_run (calls : List Call) (t : BPlusTree)
    (run : Run CleanStep initFromEmpty calls t) : t.Balanced :=
  (wellFormed_of_run run).balanced

theorem balanced_trimmed : ∃ t, Run CleanStep initFromEmpty (Grown.calls ++ Grown.trimming) t ∧ t.Balanced := by
  obtain ⟨t, played⟩ := exists_trimmed
  have run : Run CleanStep initFromEmpty (Grown.calls ++ Grown.trimming) t := trimming_clean.run played
  exact ⟨t, run, balanced_of_run _ t run⟩

/-- Enough insertions on the right to split the root of the shrunk tree. -/
def regrowing : List Call := (List.range 21).map fun i => .insert (Packed.number (231 + i)) 0

def Flat (t : BPlusTree) : Prop :=
  ∃ node ∈ (t.map Index t.info.rootOffset).toOption,
    ∀ e ∈ node.children, (t.map Record e.child).toOption.isSome

instance (t : BPlusTree) : Decidable t.Flat :=
  inferInstanceAs (Decidable (∃ node ∈ (t.map Index t.info.rootOffset).toOption, _))

theorem Flat.internals {t : BPlusTree} (flat : t.Flat) : t.internals.ncard ≤ 1 := by
  obtain ⟨root, read, below⟩ := flat
  have reached : ∀ d off, t.Reaches d off →
      off = t.info.rootOffset ∨ ∃ leaf, t.map Record off = .ok leaf := by
    intro d off reaches
    induction reaches with
    | root => exact .inl rfl
    | child _ read' mem ih =>
      rcases ih with rfl | ⟨leaf, read''⟩
      · rw [read'] at read
        cases read
        obtain ⟨leaf, found⟩ := Option.isSome_iff_exists.mp (below _ mem)
        exact .inr ⟨leaf, map_of_get (t.get_of_map_leaf found)⟩
      · exact (not_both read' read'').elim
  refine (Set.ncard_le_ncard (t := {t.info.rootOffset}) ?_).trans (Set.ncard_singleton _).le
  rintro off ⟨⟨d, reaches⟩, node, read'⟩
  rcases reached d off reaches with rfl | ⟨leaf, read''⟩
  · rfl
  · exact (not_both read' read'').elim

/-- The split of the new root goes to the dropped one, and the new internal node
is counted but not reached. -/
theorem not_balanced_regrown : ∃ t,
    Run (Returns call) initFromEmpty (Grown.calls ++ (shrinking ++ regrowing)) t ∧ ¬ t.Balanced := by
  apply grown_run
  have regrown : ∃ t ∈ (play call Grown.tree (shrinking ++ regrowing)).toOption,
      t.Flat ∧ t.info.internalNodeNum = 2 := by decide +kernel
  obtain ⟨t, last, flat, counted⟩ := regrown
  refine ⟨t, last, fun balanced => ?_⟩
  have few := flat.internals
  rw [← balanced.internalNodeNum, counted] at few
  exact absurd few (by decide)

end BPlusTree
end Fdfs2qq.Bpt
