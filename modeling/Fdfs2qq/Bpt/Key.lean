import Mathlib.Data.FinEnum
import Mathlib.Data.List.Lex
import Mathlib.Data.Prod.Lex

/-! Keys of the B+ tree: NUL-terminated strings in a 64-byte array, compared by
length first and then by `strcmp`. The bytes after the terminator are never
looked at, so a key is its C string. -/
namespace Fdfs2qq.Bpt

/-- `key_t`: at most 63 bytes before the terminating NUL. -/
structure Key where
  bytes : List UInt8
  nulFree : ∀ b ∈ bytes, b ≠ 0
  fits : bytes.length ≤ 63
deriving DecidableEq

abbrev Value := Int32

namespace Key

def empty : Key := ⟨[], by simp, by simp⟩

/-- `key_t(str)`, defined on the strings the array can hold. -/
def ofBytes (str : List UInt8) : Option Key :=
  if h : (∀ b ∈ str, b ≠ 0) ∧ str.length ≤ 63 then some ⟨str, h.1, h.2⟩ else none

@[ext] theorem ext {a b : Key} (same : a.bytes = b.bytes) : a = b := by
  cases a; cases b; cases same; rfl

def strlen (k : Key) : Nat := k.bytes.length

end Key

/-- The first differing bytes decide, read as unsigned; the terminator is 0. -/
def strcmp : List UInt8 → List UInt8 → Int
  | [], [] => 0
  | [], b :: _ => 0 - b.toNat
  | a :: _, [] => a.toNat
  | a :: as, b :: bs => if a.toNat = b.toNat then strcmp as bs else (a.toNat : Int) - b.toNat

def keycmp (a b : Key) : Int :=
  let x : Int := (a.strlen : Int) - b.strlen
  if x = 0 then strcmp a.bytes b.bytes else x

namespace Key

def rank (k : Key) : Lex (Nat × List Nat) := toLex (k.strlen, k.bytes.map UInt8.toNat)

theorem rank_injective : Function.Injective rank := by
  intro a b same
  have bytes : a.bytes.map UInt8.toNat = b.bytes.map UInt8.toNat := congrArg (fun p => (ofLex p).2) same
  apply Key.ext
  exact List.map_injective_iff.mpr (fun _ _ h => UInt8.toNat_inj.mp h) bytes

end Key

theorem strcmp_neg (as bs : List UInt8) (len : as.length = bs.length) :
    strcmp as bs < 0 ↔ as.map UInt8.toNat < bs.map UInt8.toNat := by
  induction as generalizing bs with
  | nil =>
    cases bs with
    | nil => simp [strcmp]
    | cons b bs => simp at len
  | cons a as ih =>
    cases bs with
    | nil => simp at len
    | cons b bs =>
      have tails := ih bs (by simpa using len)
      simp only [strcmp, List.map_cons, List.cons_lt_cons_iff]
      by_cases same : a.toNat = b.toNat
      · simp [same, tails]
      · rw [if_neg same]
        simp only [same, false_and, or_false]
        omega

theorem strcmp_swap (as bs : List UInt8) : strcmp bs as = - strcmp as bs := by
  induction as generalizing bs with
  | nil => cases bs <;> simp [strcmp]
  | cons a as ih =>
    cases bs with
    | nil => simp [strcmp]
    | cons b bs =>
      simp only [strcmp]
      by_cases same : a.toNat = b.toNat
      · simp only [same, if_true, ih bs]
      · rw [if_neg same, if_neg (fun h => same h.symm)]
        omega

theorem keycmp_swap (a b : Key) : keycmp b a = - keycmp a b := by
  simp only [keycmp]
  by_cases same : (a.strlen : Int) - b.strlen = 0
  · rw [if_pos same, if_pos (by omega), strcmp_swap]
  · rw [if_neg same, if_neg (by omega)]
    omega

theorem keycmp_rank {a b : Key} : keycmp a b < 0 ↔ a.rank < b.rank := by
  rw [Key.rank, Key.rank, Prod.Lex.toLex_lt_toLex]
  simp only [keycmp]
  by_cases same : (a.strlen : Int) - b.strlen = 0
  · have len : a.strlen = b.strlen := by omega
    rw [if_pos same, strcmp_neg _ _ len]
    simp [len]
  · have len : a.strlen ≠ b.strlen := by omega
    rw [if_neg same]
    simp only [len, false_and, or_false]
    omega

theorem keycmp_rank_le {a b : Key} : ¬ keycmp b a < 0 ↔ a.rank ≤ b.rank := by
  rw [keycmp_rank, not_lt]

instance : LinearOrder Key where
  le a b := a.rank ≤ b.rank
  lt a b := a.rank < b.rank
  le_refl a := le_refl a.rank
  le_trans a b c := le_trans (a := a.rank)
  lt_iff_le_not_ge a b := lt_iff_le_not_ge (a := a.rank)
  le_antisymm a b le ge := Key.rank_injective (le_antisymm le ge)
  le_total a b := le_total a.rank b.rank
  toDecidableEq := inferInstance
  toDecidableLE _ _ := decidable_of_iff _ keycmp_rank_le
  toDecidableLT _ _ := decidable_of_iff _ keycmp_rank

theorem keycmp_neg {a b : Key} : keycmp a b < 0 ↔ a < b := keycmp_rank

theorem keycmp_pos {a b : Key} : 0 < keycmp a b ↔ b < a := by
  rw [← keycmp_neg, keycmp_swap a b]
  omega

theorem keycmp_zero {a b : Key} : keycmp a b = 0 ↔ a = b := by
  constructor
  · intro zero
    apply le_antisymm
    · exact not_lt.mp fun more => by have := keycmp_pos.mpr more; omega
    · exact not_lt.mp fun less => by have := keycmp_neg.mpr less; omega
  · rintro rfl
    have swap := keycmp_swap a a
    omega

theorem keycmp_nonpos {a b : Key} : keycmp a b ≤ 0 ↔ a ≤ b := by
  rw [← not_lt, keycmp_pos, not_lt]

/-- Lengths are compared first. -/
theorem Key.le_of_strlen_lt {a b : Key} (shorter : a.strlen < b.strlen) : a ≤ b := by
  have negative : (a.strlen : Int) - b.strlen < 0 := by omega
  refine (keycmp_neg.mp ?_).le
  rw [keycmp, if_neg (by omega)]
  exact negative

end Fdfs2qq.Bpt
