import Fdfs2qq.Bpt.CallProofs
import Fdfs2qq.Bpt.LastSlotClimb

/-! Which calls keep the last-slot law. -/
namespace Fdfs2qq.Bpt
open Lib

namespace BPlusTree

/-- The call returns, and the tree it leaves has the separator after each node in
its last slot. -/
def KeepsLastSlots (t : BPlusTree) (c : Call) : Prop :=
  ∃ answer t', t.call c = .ok (answer, t') ∧ t'.LastSlots

/-- The node over the leaf itself borrows from the left. No internal node lies
below it. -/
def ParentBorrows (t : BPlusTree) : Call → Prop
  | .remove key => ∃ off ∈ (t.searchIndex key).toOption, t.lossDefects off false 1 = [.lostSeparator]
  | _ => False

variable {t t' : BPlusTree} {key : Key}

theorem keepsLastSlots_remove (run : t.remove key = .ok (code, t')) :
    t.KeepsLastSlots (.remove key) ↔ t'.LastSlots := by
  have called : t.call (.remove key) = .ok ((code, none), t') := by simp only [call, run]; rfl
  constructor
  · rintro ⟨answer, u, ok, law⟩
    rw [called] at ok
    cases ok
    exact law
  · intro law
    exact ⟨_, t', called, law⟩

theorem not_keepsLastSlots_of_overrun (run : t.remove key = .error .bounds) :
    ¬ t.KeepsLastSlots (.remove key) := by
  rintro ⟨answer, u, ok, -⟩
  simp only [call, run] at ok
  cases ok

/-- Exactly these calls on a well-formed tree keep the last-slot law. -/
theorem keepsLastSlots_iff (t : BPlusTree) (wf : t.WellFormed) (c : Call) : t.KeepsLastSlots c ↔
    .overrun ∉ t.callDefects c ∧ (Unspoilt (t.callDefects c) ∨ t.ParentBorrows c) := by
  obtain ⟨leaves, bounds, levels, shape⟩ := wf.shaped
  have represents : Represents t (dictionary Record.key Record.value (contents leaves)) :=
    ⟨wf.laid, leaves, bounds, levels, shape, rfl⟩
  by_cases clean : t.Clean c
  · obtain ⟨answer, t', run, -, represents'⟩ := represents.call clean
    have empty : t.callDefects c = [] := clean
    exact iff_of_true ⟨answer, t', run, represents'.wellFormed.lastSlots⟩ (by simp [empty, Unspoilt])
  cases c with
  | insert | update | search => exact absurd rfl clean
  | remove key =>
    obtain ⟨A, a, b, B, L, c, R, rest, X, ea, eb, Y, items, r, t', st, joined, rfl, fuel, fuel₀, parent,
      defects, run⟩ := shape.remove_climbs key clean
    have height : t'.info.height = rest.length + 1 := by
      rw [joined.info]
      exact shape.height
    rw [show t.callDefects (.remove key) = _ from defects]
    by_cases overrun : .overrun ∈ t.lossDefects c.off false t.climbFuel
    · have faults := (st.climbsThrough rest fuel fuel₀).fault overrun
      refine iff_of_false (not_keepsLastSlots_of_overrun ?_) fun fine => fine.1 overrun
      rw [run, climbFuel_eq, faults]
      rfl
    · obtain ⟨u, levels', ok, relaid⟩ := st.lawClimbs rest (by omega) fuel fuel₀ overrun
      have ran : t.remove key = .ok (0, u) := by
        rw [run, climbFuel_eq, ok]
        rfl
      have tall := relaid.height
      rw [List.length_cons] at tall
      have law : u.LastSlots ↔ Lawful levels' := by
        rw [← relaid.stack.lastSlots_iff, LastSlots, show u.info.height = levels'.length by omega]
      have borrows : t.ParentBorrows (.remove key) ↔ t.lossDefects c.off false 1 = [.lostSeparator] := by
        simp [ParentBorrows, parent, Except.toOption]
      rw [keepsLastSlots_remove ran, law, relaid.alone rfl, borrows]
      exact (and_iff_right overrun).symm

theorem keepsLastSlots_packed : Packed.tree.KeepsLastSlots (.remove (Packed.number 5)) :=
  (keepsLastSlots_iff Packed.tree packed_wellFormed (.remove (Packed.number 5))).mpr
    ⟨by decide +kernel, .inl (by decide +kernel)⟩

end BPlusTree

namespace Tall
open Packed (number innerOff leafOff leaf)

/-- The nodes between the root and those, behind the leaves. -/
def upperOff (i : Nat) : Offset := 309384 + 1472 * i

def inner (i : Nat) : Block := { Packed.inner i with parent := upperOff (i / 10) }

def upper (i : Nat) : Block where
  parent := 72
  next := if i = 0 then upperOff 1 else 0
  prev := if i = 0 then 0 else upperOff 0
  body := .internal ((List.range 10).map fun j =>
    ⟨number (100 * (10 * i + j + 1)), innerOff (10 * i + j)⟩)

def root : Block where
  parent := 0
  next := 0
  prev := 0
  body := .internal [⟨number 1000, upperOff 0⟩, ⟨Key.empty, upperOff 1⟩]

def info : Meta := { Packed.info with internalNodeNum := 23, height := 3, slot := 312328 }

/-- The leaves of the packed tree under two nodes of ten children with ten leaves each. -/
def tree : BPlusTree where
  info := info
  file :=
    { stored := some info
      blocks := (72, root) :: (upperOff 0, upper 0) :: (upperOff 1, upper 1) ::
        ((List.range 20).map fun i => (innerOff i, inner i)) ++
        (List.range 200).map fun i => (leafOff i, leaf i) }

end Tall

namespace BPlusTree

theorem tall_wellFormed : Tall.tree.WellFormed := by decide +kernel

/-- The last leaf under the left node goes: the node loses its last entry, and the
root on top of both is dropped. -/
theorem not_keepsLastSlots_tall : Tall.tree.WellFormed ∧
    ¬ Tall.tree.KeepsLastSlots (.remove (Packed.number 999)) := by
  refine ⟨tall_wellFormed, fun ⟨answer, t', run, law⟩ => ?_⟩
  have spoilt : ∃ r ∈ (Tall.tree.call (.remove (Packed.number 999))).toOption, ¬ r.2.LastSlots := by
    decide +kernel
  rw [run] at spoilt
  obtain ⟨r, last, not⟩ := spoilt
  obtain rfl : (answer, t') = r := Option.some.inj last
  exact not law

end BPlusTree
end Fdfs2qq.Bpt
