import Mathlib.Data.Multiset.AddSub
import Mathlib.Data.Multiset.ZeroCons

/-! What a program holds of the system, each thing at most once. To give back or use
what is not held is misuse. -/
namespace Lib

structure Ledger (R : Type*) where
  live : List R := []
  misused : Bool := false
deriving DecidableEq

namespace Ledger

variable {R : Type*} {l : Ledger R} {r : R} {m : Multiset R}

def acquire (l : Ledger R) (r : R) : Ledger R := { l with live := r :: l.live }

/-- Nothing was misused, and these things are held. -/
structure Holds (l : Ledger R) (m : Multiset R) : Prop where
  sound : l.misused = false
  live : (l.live : Multiset R) = m
  distinct : m.Nodup

theorem Holds.mem (holds : l.Holds (r ::ₘ m)) : r ∈ l.live := by
  rw [← Multiset.mem_coe, holds.live]
  exact Multiset.mem_cons_self r m

theorem Holds.acquire (holds : l.Holds m) (fresh : r ∉ m) : (l.acquire r).Holds (r ::ₘ m) := by
  refine ⟨holds.sound, ?_, Multiset.nodup_cons.mpr ⟨fresh, holds.distinct⟩⟩
  rw [← holds.live]
  rfl

variable [DecidableEq R]

def release (l : Ledger R) (r : R) : Ledger R :=
  if r ∈ l.live then { l with live := l.live.erase r } else { l with misused := true }

def use (l : Ledger R) (r : R) : Ledger R :=
  if r ∈ l.live then l else { l with misused := true }

theorem Holds.release (holds : l.Holds (r ::ₘ m)) : (l.release r).Holds m := by
  rw [Ledger.release, if_pos holds.mem]
  refine ⟨holds.sound, ?_, (Multiset.nodup_cons.mp holds.distinct).2⟩
  rw [← Multiset.coe_erase, holds.live, Multiset.erase_cons_head]

end Ledger

end Lib
