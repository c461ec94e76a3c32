import Fdfs2qq.Bpt.Defects
import Fdfs2qq.Lib.Machine

/-! The tree as an object that answers calls, and the finite map it stands for. -/
namespace Fdfs2qq.Bpt
open Lib

inductive Call where
  | insert (key : Key) (value : Value)
  | update (key : Key) (value : Value)
  | remove (key : Key)
  | search (key : Key)
deriving DecidableEq

abbrev Answer := Int × Option Value

namespace BPlusTree

variable {F : Type} [BlockFile F]

def call (t : BPlusTree F) : Call → Except Fault (Answer × BPlusTree F)
  | .insert key value => do
    let (code, t) ← t.insert key value
    return ((code, none), t)
  | .update key value => do
    let (code, t) ← t.update key value
    return ((code, none), t)
  | .remove key => do
    let (code, t) ← t.remove key
    return ((code, none), t)
  | .search key => do
    let answer ← t.search key
    return (answer, t)

def callDefects (t : BPlusTree F) : Call → List Defect
  | .remove key => t.removeDefects key
  | _ => []

def Clean (t : BPlusTree F) (c : Call) : Prop := t.callDefects c = []

instance (t : BPlusTree F) (c : Call) : Decidable (t.Clean c) :=
  inferInstanceAs (Decidable (t.callDefects c = []))

end BPlusTree

def mapAfter (m : Key → Option Value) : Call → Key → Option Value
  | .insert key value => if (m key).isSome then m else Function.update m key (some value)
  | .update key value => if (m key).isSome then Function.update m key (some value) else m
  | .remove key => Function.update m key none
  | .search _ => m

/-- A key that was inserted and never removed is there. -/
theorem stored_of_inserted {m : Key → Option Value} {key : Key} {calls : List Call}
    (inserted : (m key).isSome ∨ ∃ value, .insert key value ∈ calls) (kept : .remove key ∉ calls) :
    (calls.foldl mapAfter m key).isSome := by
  induction calls generalizing m with
  | nil => simpa using inserted
  | cons c rest ih =>
    rw [List.mem_cons, not_or] at kept
    refine ih ?_ kept.2
    rcases inserted with present | ⟨value, mem⟩
    · left
      cases c with
      | insert other _ | update other _ =>
        simp only [mapAfter]
        split
        all_goals by_cases same : key = other <;> simp_all
      | remove other => rwa [mapAfter, Function.update_of_ne (fun same => kept.1 (by rw [same]))]
      | search => exact present
    · rcases List.mem_cons.mp mem with rfl | later
      · left
        simp only [mapAfter]
        split
        next present => exact present
        next => simp
      · exact .inr ⟨value, later⟩

def MapAnswers (m : Key → Option Value) : Call → Answer → Prop
  | .insert key _, (code, _) => code = if (m key).isSome then 1 else 0
  | .update key _, (code, _) => code = 0 ↔ (m key).isSome
  | .remove key, (code, _) => code = if (m key).isSome then 0 else -1
  | .search key, (code, found) => (code = 0 ↔ (m key).isSome) ∧ (code = 0 → found = m key)

end Fdfs2qq.Bpt
