import Mathlib.Logic.Basic

/-! What a computation that may fail ensures of its result when it returns. -/
namespace Lib

universe u

variable {E : Type*} {A B : Type u} {x y : Except E A} {f : A → Except E B} {P Q : A → Prop} {R : B → Prop}

/-- When the computation returns, its result has the property. -/
def Ensures (x : Except E A) (P : A → Prop) : Prop := ∀ a, x = .ok a → P a

namespace Ensures

theorem trivial : Ensures x fun _ => True := fun _ _ => .intro

theorem ok (holds : P a) : Ensures (.ok a : Except E A) P := by
  rintro _ ⟨⟩
  exact holds

theorem pure (holds : P a) : Ensures (Pure.pure a : Except E A) P := ok holds

theorem error {e : E} : Ensures (.error e) P := fun _ fails => nomatch fails

theorem mono (ensures : Ensures x P) (weaker : ∀ a, P a → Q a) : Ensures x Q :=
  fun a returned => weaker a (ensures a returned)

theorem and (first : Ensures x P) (second : Ensures x Q) : Ensures x fun a => P a ∧ Q a :=
  fun a returned => ⟨first a returned, second a returned⟩

theorem bind (first : Ensures x P) (second : ∀ a, P a → Ensures (f a) R) : Ensures (x >>= f) R := by
  intro b returned
  cases x with
  | error => contradiction
  | ok a => exact second a (first a rfl) b returned

theorem after (second : ∀ a, Ensures (f a) R) : Ensures (x >>= f) R :=
  trivial.bind fun a _ => second a

theorem ite {c : Prop} [Decidable c] (yes : c → Ensures x P) (no : ¬ c → Ensures y P) :
    Ensures (if c then x else y) P := by
  split
  next holds => exact yes holds
  next fails => exact no fails

end Ensures
end Lib
