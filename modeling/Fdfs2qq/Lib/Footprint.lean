import Mathlib.Data.List.Basic

/-! How many places of a store a computation reads, told from outside: which places may
not change for its result to stay the same. -/
namespace Lib

universe u

/-- A store with one part that is always known and a value at each place. -/
structure View (σ ι β μ : Type*) where
  base : σ → μ
  look : σ → ι → β

variable {σ ι β μ E : Type*} {A B : Type u}

namespace View

/-- The second store has the base of the first and its values at these places. -/
structure Agree (view : View σ ι β μ) (places : List ι) (s s' : σ) : Prop where
  base : view.base s' = view.base s
  look : ∀ i ∈ places, view.look s' i = view.look s i

/-- Some `count` places settle the result that the computation has at `s`. -/
def Reads (view : View σ ι β μ) (s : σ) (count : Nat) (call : σ → A) : Prop :=
  ∃ places : List ι, places.length ≤ count ∧ ∀ s', view.Agree places s s' → call s' = call s

variable {view : View σ ι β μ} {s s' : σ} {P Q : List ι} {m n : Nat} {call call' : σ → A}

theorem Agree.mono (agree : view.Agree Q s s') (part : P ⊆ Q) : view.Agree P s s' :=
  ⟨agree.base, fun i mem => agree.look i (part mem)⟩

namespace Reads

theorem mono (reads : view.Reads s m call) (more : m ≤ n) : view.Reads s n call := by
  obtain ⟨places, few, same⟩ := reads
  exact ⟨places, Nat.le_trans few more, same⟩

theorem congr (reads : view.Reads s n call) (same : ∀ s, call s = call' s) : view.Reads s n call' := by
  rwa [← show call = call' from funext same]

theorem const (a : A) : view.Reads s 0 fun _ => a := ⟨[], Nat.le_refl _, fun _ _ => rfl⟩

/-- Where the base decides how the computation goes on. -/
theorem afterBase {f : μ → σ → A} (reads : view.Reads s n (f (view.base s))) :
    view.Reads s n fun s => f (view.base s) s := by
  obtain ⟨places, few, same⟩ := reads
  refine ⟨places, few, fun s' agree => ?_⟩
  change f (view.base s') s' = f (view.base s) s
  rw [agree.base]
  exact same s' agree

/-- What is read after the first computation depends on its result. -/
theorem bind {call : σ → Except E A} {next : A → σ → Except E B} (first : view.Reads s m call)
    (second : ∀ a, call s = .ok a → view.Reads s n (next a)) :
    view.Reads s (m + n) fun s => call s >>= fun a => next a s := by
  obtain ⟨P, few, same⟩ := first
  cases result : call s with
  | error e =>
    refine ⟨P, Nat.le_trans few (Nat.le_add_right m n), fun s' agree => ?_⟩
    simp only [same s' agree, result]
    rfl
  | ok a =>
    obtain ⟨Q, few', same'⟩ := second a result
    refine ⟨P ++ Q, ?_, fun s' agree => ?_⟩
    · rw [List.length_append]
      exact Nat.add_le_add few few'
    · simp only [same s' (agree.mono (List.subset_append_left P Q)), result]
      exact same' s' (agree.mono (List.subset_append_right P Q))

end Reads
end View
end Lib
