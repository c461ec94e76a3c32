import Fdfs2qq.Lib.Ensures

/-! Forward simulation of computations that may fail. -/
namespace Lib

universe u

variable {E E' : Type*} {A A' B B' : Type u} {x x' : Except E A} {y y' : Except E' B}
  {f : A → Except E A'} {g : B → Except E' B'} {P Q : A → B → Prop} {R : A' → B' → Prop}

/-- Whatever the first computation returns, the second one returns something that is related to it. -/
def Mirrors (x : Except E A) (y : Except E' B) (P : A → B → Prop) : Prop := ∀ a, x = .ok a → ∃ b, y = .ok b ∧ P a b

namespace Mirrors

theorem ok (holds : P a b) : Mirrors (.ok a : Except E A) (.ok b : Except E' B) P := by
  rintro _ ⟨⟩
  exact ⟨b, rfl, holds⟩

theorem pure (holds : P a b) : Mirrors (Pure.pure a : Except E A) (Pure.pure b : Except E' B) P := ok holds

theorem error {e : E} : Mirrors (.error e) y P := fun _ fails => nomatch fails

theorem mono (mirrors : Mirrors x y P) (weaker : ∀ a b, P a b → Q a b) : Mirrors x y Q := by
  intro a returned
  obtain ⟨b, returned', holds⟩ := mirrors a returned
  exact ⟨b, returned', weaker a b holds⟩

theorem and {S : A → Prop} (mirrors : Mirrors x y P) (ensures : Ensures x S) :
    Mirrors x y fun a b => P a b ∧ S a := by
  intro a returned
  obtain ⟨b, returned', holds⟩ := mirrors a returned
  exact ⟨b, returned', holds, ensures a returned⟩

theorem bind (first : Mirrors x y P) (second : ∀ a b, P a b → Mirrors (f a) (g b) R) :
    Mirrors (x >>= f) (y >>= g) R := by
  intro a' returned
  cases x with
  | error => contradiction
  | ok a =>
    obtain ⟨b, rfl, holds⟩ := first a rfl
    exact second a b holds a' returned

/-- Both go on from one computation. -/
theorem same {C : Type u} {z : Except E C} {f : C → Except E A'} {g : C → Except E B'} {S : C → Prop}
    (first : Ensures z S) (second : ∀ c, S c → Mirrors (f c) (g c) R) : Mirrors (z >>= f) (z >>= g) R := by
  intro a' returned
  cases z with
  | error => contradiction
  | ok c => exact second c (first c rfl) a' returned

theorem ite {c : Prop} [Decidable c] (yes : c → Mirrors x y P) (no : ¬ c → Mirrors x' y' P) :
    Mirrors (if c then x else x') (if c then y else y') P := by
  split
  next holds => exact yes holds
  next fails => exact no fails

end Mirrors
end Lib
