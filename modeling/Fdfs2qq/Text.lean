import Mathlib.Algebra.GroupWithZero.Nat
import Mathlib.Algebra.Group.Int.Defs
import Mathlib.Data.List.TakeWhile
import Fdfs2qq.Lib.Lines

/-! C and C++ strings as lists of bytes, and the string helpers of `tools.cc`. -/
namespace Fdfs2qq

abbrev Bytes := List UInt8

/-- A string literal of the source, which is ASCII. -/
def ascii (s : String) : Bytes := s.toList.map Char.toUInt8

/-- A string as a C function reads it: the bytes before the first NUL. -/
def cStr (s : Bytes) : Bytes := s.takeWhile (· ≠ 0)

def newline : UInt8 := 10

def slash : UInt8 := 47

/-- `BOX_KV_SEPERATOR`, which is also the delimiter of queue messages. -/
def boxKvSeperator : UInt8 := 9

def boxRecordSeperator : UInt8 := 1

def boxFieldSeperator : UInt8 := 2

def boxMsgSeperator : UInt8 := 3

/-- `fdfs2qq::to_string` of a number that is not negative. -/
def decimal (n : Nat) : Bytes := (Nat.toDigits 10 n).map Char.toUInt8

def find (text : Bytes) (sep : UInt8) (start : Nat) : Option Nat :=
  ((text.drop start).idxOf? sep).map (start + ·)

theorem lt_length_of_find {text : Bytes} (found : find text sep start = some stop) :
    start ≤ stop ∧ stop < text.length := by
  obtain ⟨k, inside, rfl⟩ := Option.map_eq_some_iff.mp found
  have := (List.idxOf?_eq_some_iff.mp inside).1
  rw [List.length_drop] at this
  omega

def pushToken (tokens : List Bytes) (temp : Bytes) : List Bytes :=
  if temp ≠ [] then tokens ++ [temp] else tokens

/-- The loop of `fdfs2qq::split(text, sep)` from a position on. -/
def splitLoop (text : Bytes) (sep : UInt8) (start : Nat) (tokens : List Bytes) : List Bytes :=
  match _found : find text sep start with
  | some stop => splitLoop text sep (stop + 1) (pushToken tokens ((text.drop start).take (stop - start)))
  | none => pushToken tokens (text.drop start)
termination_by text.length - start
decreasing_by
  have := lt_length_of_find _found
  omega

/-- `fdfs2qq::split(text, sep)`: the pieces between separators, without empty ones. -/
def split (text : Bytes) (sep : UInt8) : List Bytes := (text.splitOn sep).filter (· ≠ [])

def implode (delim : UInt8) : List Bytes → Bytes
  | [] => []
  | [s] => s
  | s :: rest => s ++ delim :: implode delim rest

/-- A value where the source has an `int`. -/
@[irreducible] def toInt (value : Int) : Int := Int.bmod value (2 ^ 32)

theorem toInt_of_lt {value : Int} (least : -2 ^ 31 ≤ value) (less : value < 2 ^ 31) : toInt value = value := by
  rw [toInt]
  exact Int.bmod_eq_of_le (by omega) (by omega)

@[simp] theorem toInt_zero : toInt 0 = 0 := toInt_of_lt (by decide) (by decide)

theorem toInt_pos {value : Int} (positive : 0 < value) (less : value < 2 ^ 31) : 0 < toInt value := by
  rw [toInt_of_lt (by omega) less]
  exact positive

theorem toInt_lt (value : Int) : toInt value < 2 ^ 31 := by
  rw [toInt]
  exact Int.bmod_lt (by decide)

def isDigit (c : UInt8) : Bool := 48 ≤ c ∧ c ≤ 57

/-- `atoi` of a string of digits: `strtol` saturates, and the cast to `int` wraps. -/
def atoi (digits : Bytes) : Int :=
  toInt (min (digits.foldl (fun n c => 10 * n + (c.toNat - 48)) 0) (2 ^ 63 - 1))

/-- `fdfs2qq::String2int(str)`: all that is not a digit is dropped first. -/
def string2int (str : Bytes) : Int := atoi (str.filter isDigit)

def digitsValue (digits : Bytes) : Int := digits.foldl (fun n c => 10 * n + (c.toNat - 48)) 0

def isSpace (c : UInt8) : Bool := c = 32 ∨ 9 ≤ c ∧ c ≤ 13

/-- `atoi(text.c_str())`: after blanks and a sign, the digits before any other
character. -/
def atoiText (text : Bytes) : Int :=
  match (cStr text).dropWhile isSpace with
  | 45 :: rest => toInt (-min (digitsValue (rest.takeWhile isDigit)) (2 ^ 63))
  | 43 :: rest => atoi (rest.takeWhile isDigit)
  | digits => atoi (digits.takeWhile isDigit)

@[simp] theorem cStr_nil : cStr [] = [] := rfl

theorem cStr_of_notMem {s : Bytes} (free : 0 ∉ s) : cStr s = s := Lib.takeWhile_ne_self free

theorem cStr_append {s rest : Bytes} (free : 0 ∉ s) : cStr (s ++ 0 :: rest) = s :=
  Lib.takeWhile_ne_append free

theorem cStr_append_of_notMem {s : Bytes} (free : 0 ∉ s) (rest : Bytes) : cStr (s ++ rest) = s ++ cStr rest := by
  rw [cStr, List.takeWhile_append_of_pos]
  · rfl
  · intro c mem
    exact decide_eq_true fun zero => free (zero ▸ mem)

theorem zero_notMem_cStr (s : Bytes) : 0 ∉ cStr s := by
  intro mem
  simpa using List.mem_takeWhile_imp mem

theorem implode_cons (delim : UInt8) (piece next : Bytes) (rest : List Bytes) :
    implode delim (piece :: next :: rest) = piece ++ delim :: implode delim (next :: rest) := rfl

/-- Pieces that are joined are read back one by one. -/
theorem getlines_implode {delim : UInt8} {pieces : List Bytes}
    (each : ∀ piece ∈ pieces, delim ∉ piece ∧ piece ≠ []) :
    Lib.getlines delim (implode delim pieces) = pieces := by
  induction pieces with
  | nil => rfl
  | cons piece rest ih =>
    obtain ⟨⟨free, filled⟩, each⟩ := List.forall_mem_cons.mp each
    cases rest with
    | nil => exact Lib.getlines_last free filled
    | cons next rest => rw [implode_cons, Lib.getlines_append free, ih each]

theorem notMem_implode {delim c : UInt8} {pieces : List Bytes} (other : c ≠ delim)
    (each : ∀ piece ∈ pieces, c ∉ piece) : c ∉ implode delim pieces := by
  induction pieces with
  | nil => exact List.not_mem_nil
  | cons piece rest ih =>
    obtain ⟨free, each⟩ := List.forall_mem_cons.mp each
    cases rest with
    | nil => exact free
    | cons next rest =>
      rw [implode_cons, List.mem_append, List.mem_cons, not_or, not_or]
      exact ⟨free, other, ih each⟩

theorem length_implode_le {delim : UInt8} {pieces : List Bytes} {bound : Nat}
    (each : ∀ piece ∈ pieces, piece.length < bound) :
    (implode delim pieces).length ≤ pieces.length * bound := by
  induction pieces with
  | nil => exact Nat.zero_le _
  | cons piece rest ih =>
    obtain ⟨short, each⟩ := List.forall_mem_cons.mp each
    have later := ih each
    rw [List.length_cons, Nat.succ_mul]
    cases rest with
    | nil =>
      rw [implode]
      omega
    | cons next rest =>
      rw [implode_cons, List.length_append, List.length_cons]
      omega

theorem isDigit_of_mem_decimal (mem : c ∈ decimal n) : isDigit c := by
  obtain ⟨d, inside, rfl⟩ := List.mem_map.mp mem
  have digit := Char.isDigit_iff_toNat.mp (Nat.isDigit_of_mem_toDigits (by decide) (by decide) inside)
  have value : d.toUInt8.toNat = d.toNat := by
    have : d.toUInt8.toNat = d.toNat % 256 := rfl
    have upper : d.toNat ≤ 57 := digit.2
    omega
  simp only [isDigit, UInt8.le_iff_toNat_le, value]
  simpa using digit

theorem decimal_ne_nil (n : Nat) : decimal n ≠ [] := by simp [decimal]

theorem foldl_digits {digits : List Char} (all : ∀ d ∈ digits, d.isDigit) (init : Nat) :
    (digits.map Char.toUInt8).foldl (fun (n : Int) c => 10 * n + (c.toNat - 48)) init =
      Nat.ofDigitChars 10 digits init := by
  induction digits generalizing init with
  | nil => simp
  | cons d digits ih =>
    obtain ⟨digit, all⟩ := List.forall_mem_cons.mp all
    obtain ⟨lower, upper⟩ := Char.isDigit_iff_toNat.mp digit
    have value : d.toUInt8.toNat = d.toNat % 256 := rfl
    have next : 10 * (init : Int) + (d.toUInt8.toNat - 48) = (10 * init + (d.toNat - '0'.toNat) : Nat) := by
      simp only [Char.reduceToNat] at lower upper ⊢
      omega
    rw [List.map_cons, List.foldl_cons, Nat.ofDigitChars_cons, next, ih all]

/-- The digits of a number are read back. -/
theorem digitsValue_decimal (n : Nat) : digitsValue (decimal n) = n := by
  have all : ∀ d ∈ Nat.toDigits 10 n, d.isDigit := fun d mem =>
    Nat.isDigit_of_mem_toDigits (by decide) (by decide) mem
  rw [digitsValue, decimal]
  exact (foldl_digits all 0).trans (congrArg _ Nat.ofDigitChars_ten_toDigits)

theorem digitsValue_zero_cons (digits : Bytes) : digitsValue (48 :: digits) = digitsValue digits := rfl

/-- A number that fits an `int` is converted without loss. -/
theorem atoi_eq {digits : Bytes} (positive : 0 ≤ digitsValue digits) (fits : digitsValue digits < 2 ^ 31) :
    atoi digits = digitsValue digits := by
  have saturated : min (digitsValue digits) (2 ^ 63 - 1) = digitsValue digits := by omega
  rw [digitsValue] at *
  rw [atoi, saturated]
  exact toInt_of_lt (by omega) (by omega)

/-- A string of digits is read whole. -/
theorem atoiText_of_digits {digits : Bytes} (all : ∀ c ∈ digits, isDigit c) : atoiText digits = atoi digits := by
  have free : 0 ∉ digits := fun mem => absurd (all 0 mem) (by decide)
  rw [atoiText, cStr_of_notMem free]
  cases digits with
  | nil => rfl
  | cons d rest =>
    have digit := all d List.mem_cons_self
    have notBlank : isSpace d = false := by
      simp only [isDigit, isSpace, decide_eq_true_eq, decide_eq_false_iff_not, UInt8.le_iff_toNat_le,
        ← UInt8.toNat_inj] at digit ⊢
      simp only [UInt8.reduceToNat] at digit ⊢
      omega
    have notMinus : d ≠ 45 := by
      rintro rfl
      exact absurd digit (by decide)
    have notPlus : d ≠ 43 := by
      rintro rfl
      exact absurd digit (by decide)
    rw [List.dropWhile_cons_of_neg (by simp [notBlank])]
    split
    next same => exact absurd (List.cons.inj same).1 notMinus
    next same => exact absurd (List.cons.inj same).1 notPlus
    next => rw [List.takeWhile_eq_self_iff.mpr all]

theorem split_cons {piece rest : Bytes} {sep : UInt8} (filled : piece ≠ []) (free : sep ∉ piece) :
    split (piece ++ sep :: rest) sep = piece :: split rest sep := by
  rw [split, List.splitOn_append_cons_self_of_not_mem free, List.filter_cons_of_pos (by simpa using filled)]
  rfl

theorem pushToken_eq (tokens : List Bytes) (temp : Bytes) :
    pushToken tokens temp = tokens ++ [temp].filter (· ≠ []) := by
  unfold pushToken
  split <;> simp_all

theorem splitLoop_eq_append (text : Bytes) (sep : UInt8) (start : Nat) (tokens : List Bytes) :
    splitLoop text sep start tokens = tokens ++ split (text.drop start) sep := by
  fun_induction splitLoop text sep start tokens with
  | case1 start tokens stop found ih =>
    obtain ⟨k, inside, rfl⟩ := Option.map_eq_some_iff.mp found
    obtain ⟨bound, here, earlier⟩ := List.idxOf?_eq_some_iff.mp inside
    have free : sep ∉ (text.drop start).take k := by
      intro mem
      obtain ⟨j, below, same⟩ := List.mem_take_iff_getElem.mp mem
      exact earlier j (by omega) same
    have pieces : text.drop start = (text.drop start).take k ++ sep :: text.drop (start + k + 1) := by
      conv_lhs => rw [← List.take_append_drop k (text.drop start)]
      rw [List.drop_eq_getElem_cons bound, here, List.drop_drop, Nat.add_assoc start k 1]
    rw [ih, pushToken_eq, Nat.add_sub_cancel_left, List.append_assoc]
    conv_rhs => rw [pieces]
    rw [split, split, List.splitOn_append_cons_self_of_not_mem free, ← List.filter_append,
      List.singleton_append]
  | case2 start tokens absent =>
    have free : sep ∉ text.drop start := by simpa [find] using absent
    rw [pushToken_eq, split, List.splitOn_eq_singleton free]

theorem splitLoop_eq (text : Bytes) (sep : UInt8) : splitLoop text sep 0 [] = split text sep := by
  rw [splitLoop_eq_append, List.drop_zero, List.nil_append]

theorem implode_eq_intercalate (delim : UInt8) (pieces : List Bytes) :
    implode delim pieces = [delim].intercalate pieces := by
  induction pieces with
  | nil => rfl
  | cons piece rest ih =>
    cases rest with
    | nil => simp [implode]
    | cons next rest => rw [implode_cons, ih, List.intercalate_cons_cons]; simp

theorem split_implode {delim : UInt8} {pieces : List Bytes} (each : ∀ piece ∈ pieces, delim ∉ piece) :
    split (implode delim pieces) delim = pieces.filter (· ≠ []) := by
  cases pieces with
  | nil => simp [split, implode]
  | cons piece rest =>
    rw [split, implode_eq_intercalate, List.splitOn_intercalate delim each (List.cons_ne_nil piece rest)]

/-- Each piece is followed by a separator or by the end. -/
theorem sum_splitOn (text : Bytes) (sep : UInt8) :
    ((text.splitOn sep).map fun piece => piece.length + 1).sum = text.length + 1 := by
  induction text with
  | nil => simp
  | cons c rest ih =>
    rw [List.splitOn_cons_eq_if_modifyHead]
    split
    · rw [List.map_cons, List.sum_cons, ih, List.length_nil, List.length_cons, Nat.zero_add, Nat.add_comm]
    · obtain ⟨first, pieces, split⟩ := List.exists_cons_of_ne_nil (List.splitOn_ne_nil sep rest)
      rw [split, List.map_cons, List.sum_cons] at ih
      simp only [split, List.modifyHead_cons, List.map_cons, List.sum_cons, List.length_cons]
      omega

theorem sum_filter_le (pieces : List Bytes) :
    ((pieces.filter (· ≠ [])).map fun piece => piece.length + 1).sum ≤
      (pieces.map fun piece => piece.length + 1).sum := by
  induction pieces with
  | nil => exact Nat.le_refl 0
  | cons piece rest ih =>
    rw [List.filter_cons]
    split
    all_goals
      simp only [List.map_cons, List.sum_cons]
      omega

/-- A piece that is left out is missed in the sum. -/
theorem filter_eq_self_of_sum {pieces : List Bytes}
    (all : (pieces.map fun piece => piece.length + 1).sum ≤
      ((pieces.filter (· ≠ [])).map fun piece => piece.length + 1).sum) : pieces.filter (· ≠ []) = pieces := by
  induction pieces with
  | nil => rfl
  | cons piece rest ih =>
    rw [List.filter_cons] at all ⊢
    split at all
    next filled =>
      simp only [List.map_cons, List.sum_cons] at all
      rw [if_pos filled, ih (by omega)]
    next =>
      have fewer := sum_filter_le rest
      simp only [List.map_cons, List.sum_cons] at all
      omega

theorem sum_split_le (text : Bytes) (sep : UInt8) :
    ((split text sep).map fun piece => piece.length + 1).sum ≤ text.length + 1 :=
  (sum_filter_le _).trans_eq (sum_splitOn text sep)

/-- A text that is as long as its pieces with one separator after each has no
separator at an end or next to another. -/
theorem implode_split {text : Bytes} {sep : UInt8}
    (all : text.length + 1 ≤ ((split text sep).map fun piece => piece.length + 1).sum) :
    implode sep (split text sep) = text := by
  rw [← sum_splitOn text sep] at all
  rw [split, filter_eq_self_of_sum all, implode_eq_intercalate, List.intercalate_splitOn]

theorem split_single {piece : Bytes} {sep : UInt8} (filled : piece ≠ []) (free : sep ∉ piece) :
    split piece sep = [piece] := by
  rw [split, List.splitOn_eq_singleton free, List.filter_cons_of_pos (by simpa using filled)]
  rfl

/-- A separator parts the pieces before it from those behind it. -/
theorem split_append_cons (s t : Bytes) (sep : UInt8) :
    split (s ++ sep :: t) sep = split s sep ++ split t sep := by
  induction h : s.length using Nat.strong_induction_on generalizing s with
  | _ n ih =>
    by_cases more : sep ∈ s
    · obtain ⟨piece, rest, rfl, free⟩ := List.eq_append_cons_of_mem more
      have fewer : rest.length < n := by
        rw [← h, List.length_append, List.length_cons]
        omega
      rw [List.append_assoc, List.cons_append, split, split, List.splitOn_append_cons_self_of_not_mem free,
        List.splitOn_append_cons_self_of_not_mem free, List.filter_cons, List.filter_cons, ← split, ← split,
        ih _ fewer rest rfl]
      split <;> rfl
    · rw [split, split, List.splitOn_append_cons_self_of_not_mem more, List.splitOn_eq_singleton more,
        ← List.singleton_append, List.filter_append]
      rfl

theorem split_ne_nil {s : Bytes} (mem : c ∈ s) (other : c ≠ sep) : split s sep ≠ [] := by
  intro vacant
  have empty : ∀ piece ∈ s.splitOn sep, c ∉ piece := by
    intro piece inside
    have nothing : piece = [] := by simpa using List.filter_eq_nil_iff.mp vacant piece inside
    rw [nothing]
    exact List.not_mem_nil
  have absent := notMem_implode other empty
  rw [implode_eq_intercalate, List.intercalate_splitOn] at absent
  exact absent mem

end Fdfs2qq
