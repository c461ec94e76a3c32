import Mathlib.Data.List.Flatten
import Mathlib.Algebra.Order.Group.Nat

/-! A stream of bits, the high bit of each number first, and the same stream cut
into groups of another width. -/
namespace Lib

def bits : Nat → Nat → List Bool
  | 0, _ => []
  | w + 1, n => n.testBit w :: bits w n

/-- The number with these bits. -/
def ofBits (bs : List Bool) : Nat := bs.foldl (fun n b => 2 * n + b.toNat) 0

/-- The whole groups of `w` bits; fewer bits at the end are dropped. -/
def groups (w : Nat) (bs : List Bool) : List Nat :=
  (List.range (bs.length / w)).map fun i => ofBits ((bs.drop (w * i)).take w)

@[simp] theorem length_bits (w n : Nat) : (bits w n).length = w := by
  induction w with
  | zero => rfl
  | succ w ih => rw [bits, List.length_cons, ih]

/-- Bits above the width do not count. -/
theorem bits_mod (n : Nat) (narrow : w ≤ m) : bits w (n % 2 ^ m) = bits w n := by
  induction w with
  | zero => rfl
  | succ w ih => rw [bits, bits, ih (by omega), Nat.testBit_mod_two_pow, decide_eq_true (by omega), Bool.true_and]

/-- The bits of a number are those above a place and those below it. -/
theorem bits_add (v w n : Nat) : bits (v + w) n = bits v (n / 2 ^ w) ++ bits w n := by
  induction v with
  | zero => rw [Nat.zero_add]; rfl
  | succ v ih => rw [Nat.add_right_comm, bits, bits, ih, Nat.testBit_div_two_pow, List.cons_append]

/-- A number that is shifted in comes behind the bits that are there. -/
theorem bits_push (v n : Nat) (small : x < 2 ^ w) : bits (v + w) (n * 2 ^ w + x) = bits v n ++ bits w x := by
  have high : (n * 2 ^ w + x) / 2 ^ w = n := by
    rw [Nat.mul_comm, Nat.mul_add_div (Nat.two_pow_pos w), Nat.div_eq_of_lt small, Nat.add_zero]
  rw [bits_add, high, ← bits_mod (n * 2 ^ w + x) le_rfl, Nat.mul_add_mod_self_right, Nat.mod_eq_of_lt small]

theorem bits_zero (w : Nat) : bits w 0 = List.replicate w false := by
  induction w with
  | zero => rfl
  | succ w ih => rw [bits, ih, Nat.zero_testBit, List.replicate_succ]

theorem foldl_bits (w n init : Nat) :
    (bits w n).foldl (fun n b => 2 * n + b.toNat) init = init * 2 ^ w + n % 2 ^ w := by
  induction w generalizing init with
  | zero => simp [bits, Nat.mod_one]
  | succ w ih =>
    rw [bits, List.foldl_cons, ih, Nat.toNat_testBit, Nat.mod_pow_succ, Nat.add_mul, Nat.pow_succ',
      Nat.mul_assoc, Nat.mul_left_comm, Nat.add_assoc, Nat.mul_comm (2 ^ w) (n / 2 ^ w % 2),
      Nat.add_comm (n % 2 ^ w)]

theorem ofBits_bits (w n : Nat) : ofBits (bits w n) = n % 2 ^ w := by
  rw [ofBits, foldl_bits, Nat.zero_mul, Nat.zero_add]

theorem length_flatMap_bits (xs : List α) (f : α → Nat) :
    (xs.flatMap fun x => bits w (f x)).length = w * xs.length := by
  induction xs with
  | nil => rfl
  | cons x xs ih => rw [List.flatMap_cons, List.length_append, ih, length_bits, List.length_cons, Nat.mul_succ, Nat.add_comm]

/-- The first numbers make the first bits. -/
theorem flatMap_bits_take (xs : List α) (f : α → Nat) (k : Nat) :
    ((xs.take k).flatMap fun x => bits w (f x)) = (xs.flatMap fun x => bits w (f x)).take (w * k) := by
  induction k generalizing xs with
  | zero => rfl
  | succ k ih =>
    cases xs with
    | nil => simp
    | cons x xs =>
      have behind : w * (k + 1) = (bits w (f x)).length + w * k := by rw [length_bits, Nat.mul_succ, Nat.add_comm]
      rw [List.take_succ_cons, List.flatMap_cons, List.flatMap_cons, ih, behind, List.take_length_add_append]

theorem groups_append {g : List Bool} (bs : List Bool) (positive : 0 < w) (whole : g.length = w) :
    groups w (g ++ bs) = ofBits g :: groups w bs := by
  have count : (g ++ bs).length / w = bs.length / w + 1 := by
    rw [List.length_append, whole, Nat.add_div_left _ positive]
  rw [groups, count, List.range_succ_eq_map, List.map_cons, List.map_map, Nat.mul_zero, List.drop_zero,
    List.take_left' whole]
  congr 1
  apply List.map_congr_left
  intro i _
  have behind : w * i.succ = g.length + w * i := by rw [whole, Nat.mul_succ, Nat.add_comm]
  rw [Function.comp, behind, List.drop_length_add_append]

theorem groups_short {bs : List Bool} (short : bs.length < w) : groups w bs = [] := by
  rw [groups, Nat.div_eq_of_lt short, List.range_zero, List.map_nil]

/-- Numbers written with `w` bits each are read back. -/
theorem groups_flatMap {xs : List α} {f : α → Nat} {bs : List Bool} (small : ∀ x ∈ xs, f x < 2 ^ w)
    (short : bs.length < w) : groups w ((xs.flatMap fun x => bits w (f x)) ++ bs) = xs.map f := by
  induction xs with
  | nil => exact groups_short short
  | cons x xs ih =>
    obtain ⟨here, later⟩ := List.forall_mem_cons.mp small
    rw [List.flatMap_cons, List.append_assoc, groups_append _ (by omega) (length_bits w (f x)), ih later,
      ofBits_bits, Nat.mod_eq_of_lt here, List.map_cons]

end Lib
