import Mathlib.Data.Nat.Bitwise
import Fdfs2qq.Bpt.BlockBytes
import Fdfs2qq.Bpt.Image

/-! What is written into the bytes of the file is read back, and the bytes beside it stay. -/
namespace Fdfs2qq.Bpt

theorem testBit_stack (low high i j : Nat) : (low % 2 ^ i + 2 ^ i * high).testBit j =
    if j < i then low.testBit j else high.testBit (j - i) := by
  have small := Nat.mod_lt low (Nat.two_pow_pos i)
  rw [Nat.add_comm, Nat.testBit_two_pow_mul_add _ small]
  split
  next below => rw [Nat.testBit_mod_two_pow, decide_eq_true below, Bool.true_and]
  next => rfl

@[simp] theorem testBit_bytesAt (x off len j : Nat) :
    (bytesAt x off len).testBit j = (decide (j < 8 * len) && x.testBit (8 * off + j)) := by
  rw [bytesAt, Nat.testBit_mod_two_pow, Nat.testBit_div_two_pow, Nat.add_comm]

theorem bytesAt_bytesAt {x off len a l : Nat} (inside : a + l ≤ len) :
    bytesAt (bytesAt x off len) a l = bytesAt x (off + a) l := by
  apply Nat.eq_of_testBit_eq
  intro j
  simp only [testBit_bytesAt]
  by_cases below : j < 8 * l
  · have within : 8 * a + j < 8 * len := by omega
    simp only [below, within, decide_true, Bool.true_and, Nat.mul_add, Nat.add_assoc]
  · simp only [below, decide_false, Bool.false_and]

theorem bytesAt_div {x off a l : Nat} : bytesAt (x / 2 ^ (8 * off)) a l = bytesAt x (off + a) l := by
  apply Nat.eq_of_testBit_eq
  intro j
  simp only [testBit_bytesAt, Nat.testBit_div_two_pow]
  rw [show 8 * a + j + 8 * off = 8 * (off + a) + j by omega]

theorem bytesAt_of_lt {x len : Nat} (small : x < 2 ^ (8 * len)) : bytesAt x 0 len = x := by
  rw [bytesAt, Nat.mul_zero, Nat.pow_zero, Nat.div_one, Nat.mod_eq_of_lt small]

theorem bytesAt_high {low high i a l : Nat} (small : low < 2 ^ (8 * i)) :
    bytesAt (low + 2 ^ (8 * i) * high) (i + a) l = bytesAt high a l := by
  conv_lhs => rw [← Nat.mod_eq_of_lt small]
  apply Nat.eq_of_testBit_eq
  intro j
  simp only [testBit_bytesAt, testBit_stack]
  rw [if_neg (by omega), show 8 * (i + a) + j - 8 * i = 8 * a + j by omega]

namespace Image

theorem testBit_write (f : Image) (off len new j : Nat) : (f.write off len new).bytes.testBit j =
    if 8 * off ≤ j ∧ j < 8 * (off + len) then new.testBit (j - 8 * off) else f.bytes.testBit j := by
  show (f.bytes % 2 ^ (8 * off) + 2 ^ (8 * off) * _).testBit j = _
  rw [testBit_stack, testBit_stack, Nat.testBit_div_two_pow]
  split
  next below => rw [if_neg (by omega)]
  next above =>
    split
    next within => rw [if_pos (by omega)]
    next behind => rw [if_neg (by omega), show j - 8 * off - 8 * len + 8 * (off + len) = j by omega]

theorem bytesAt_write_inside {f : Image} {off len new a l : Nat} (inside : a + l ≤ len) :
    bytesAt (f.write off len new).bytes (off + a) l = bytesAt new a l := by
  apply Nat.eq_of_testBit_eq
  intro j
  simp only [testBit_bytesAt, testBit_write]
  by_cases below : j < 8 * l
  · rw [if_pos (by omega), show 8 * (off + a) + j - 8 * off = 8 * a + j by omega]
  · simp only [below, decide_false, Bool.false_and]

theorem bytesAt_write_apart {f : Image} {off len new a l : Nat} (apart : a + l ≤ off ∨ off + len ≤ a) :
    bytesAt (f.write off len new).bytes a l = bytesAt f.bytes a l := by
  apply Nat.eq_of_testBit_eq
  intro j
  simp only [testBit_bytesAt, testBit_write]
  by_cases below : j < 8 * l
  · rw [if_neg (by omega)]
  · simp only [below, decide_false, Bool.false_and]

end Image

theorem field_fieldBytes {fields : List Nat} (fits : ∀ n ∈ fields, n < 2 ^ 64) {i : Nat} (inside : i < fields.length) :
    field (fieldBytes fields) i = fields[i] := by
  induction fields generalizing i with
  | nil => cases inside
  | cons n rest ih =>
    obtain ⟨small, fits⟩ := List.forall_mem_cons.mp fits
    have front : fieldBytes (n :: rest) = n + 2 ^ 64 * fieldBytes rest := by
      rw [fieldBytes, List.foldr_cons, Nat.mod_eq_of_lt small]
      rfl
    cases i with
    | zero =>
      rw [front, field, bytesAt, Nat.pow_zero, Nat.div_one, Nat.add_mul_mod_self_left, Nat.mod_eq_of_lt small]
      rfl
    | succ i =>
      have shift : 8 * (8 * (i + 1)) = 64 + 8 * (8 * i) := by omega
      rw [front, field, bytesAt, shift, Nat.pow_add, ← Nat.div_div_eq_div_mul, Nat.add_mul_div_left _ _ (by decide),
        Nat.div_eq_of_lt small, Nat.zero_add]
      exact ih fits (Nat.lt_of_succ_lt_succ inside)

theorem metaOf_fieldBytes {m : Meta} (fits : m.Fits) : metaOf (fieldBytes m.fields) = m := by
  have at_ (i : Nat) (inside : i < 9) : field (fieldBytes m.fields) i = m.fields.get ⟨i, inside⟩ :=
    field_fieldBytes fits inside
  simp only [metaOf, at_ 0 (by decide), at_ 1 (by decide), at_ 2 (by decide), at_ 3 (by decide), at_ 4 (by decide),
    at_ 5 (by decide), at_ 6 (by decide), at_ 7 (by decide), at_ 8 (by decide)]
  rfl

theorem fieldBytes_lt (fields : List Nat) : fieldBytes fields < 2 ^ (64 * fields.length) := by
  induction fields with
  | nil => decide
  | cons n rest ih =>
    have small := Nat.mod_lt n (Nat.two_pow_pos 64)
    rw [List.length_cons, Nat.mul_succ, Nat.add_comm, Nat.pow_add]
    show n % 2 ^ 64 + 2 ^ 64 * fieldBytes rest < 2 ^ 64 * 2 ^ (64 * rest.length)
    exact Nat.lt_of_lt_of_le (Nat.add_lt_add_right small _)
      ((Nat.mul_succ ..).symm.trans_le (Nat.mul_le_mul_left _ ih) |>.trans' (by rw [Nat.add_comm]))

theorem bytesAt_fieldBytes {fields : List Nat} {len : Nat} (size : 8 * fields.length = len) :
    bytesAt (fieldBytes fields) 0 len = fieldBytes fields := by
  have small := fieldBytes_lt fields
  rw [show 64 * fields.length = 8 * len by omega] at small
  exact bytesAt_of_lt small

theorem stringOf_littleEndian {s : List UInt8} (free : ∀ b ∈ s, b ≠ 0) {len n : Nat} (fits : s.length ≤ len)
    (behind : s.length < n) (rest : Nat) : stringOf len (littleEndian s + 2 ^ (8 * n) * rest) = s := by
  induction s generalizing len n with
  | nil =>
    cases len with
    | zero => rfl
    | succ len =>
      obtain ⟨n, rfl⟩ := Nat.exists_eq_add_one_of_ne_zero behind.ne'
      have zero : (littleEndian [] + 2 ^ (8 * (n + 1)) * rest) % 256 = 0 := by
        rw [Nat.mul_succ, Nat.pow_add, Nat.mul_comm (2 ^ (8 * n)), Nat.mul_assoc]
        show (0 + 256 * (2 ^ (8 * n) * rest)) % 256 = 0
        rw [Nat.zero_add, Nat.mul_mod_right]
      rw [stringOf, if_pos zero]
  | cons b s ih =>
    obtain ⟨len, rfl⟩ := Nat.exists_eq_succ_of_ne_zero (Nat.ne_zero_of_lt fits)
    obtain ⟨n, rfl⟩ := Nat.exists_eq_succ_of_ne_zero (Nat.ne_zero_of_lt behind)
    obtain ⟨nonzero, free⟩ := List.forall_mem_cons.mp free
    have split : littleEndian (b :: s) + 2 ^ (8 * (n + 1)) * rest =
        b.toNat + 256 * (littleEndian s + 2 ^ (8 * n) * rest) := by
      have pow : 2 ^ (8 * (n + 1)) = 256 * 2 ^ (8 * n) := by rw [Nat.mul_succ, Nat.pow_add, Nat.mul_comm]
      show b.toNat + 256 * littleEndian s + _ = _
      rw [pow, Nat.mul_add, Nat.add_assoc, Nat.mul_assoc]
    have small := b.toNat_lt
    have low : (littleEndian (b :: s) + 2 ^ (8 * (n + 1)) * rest) % 256 = b.toNat := by omega
    have high : (littleEndian (b :: s) + 2 ^ (8 * (n + 1)) * rest) / 256 = littleEndian s + 2 ^ (8 * n) * rest := by
      omega
    have other : b.toNat ≠ 0 := fun zero => nonzero (UInt8.toNat_inj.mp zero)
    rw [stringOf, low, high, if_neg other, ih free (Nat.le_of_succ_le_succ fits) (Nat.lt_of_succ_lt_succ behind)]
    rw [UInt8.ofNat_toNat]

theorem keyAt_of_string {bytes : Nat} {key : Key} (string : stringOf 63 bytes = key.bytes) : keyAt bytes = key :=
  Key.ext string

theorem terminated_of_string {bytes : Nat} {s : List UInt8} (string : stringOf 64 bytes = s) (short : s.length < 64) :
    terminated bytes := by
  rw [terminated, string]
  exact decide_eq_true short

theorem keyAt_bytes (key : Key) (rest : Nat) :
    keyAt (littleEndian key.bytes + 2 ^ (8 * 64) * rest) = key ∧
      terminated (littleEndian key.bytes + 2 ^ (8 * 64) * rest) := by
  have short : key.bytes.length < 64 := Nat.lt_succ_of_le key.fits
  exact ⟨keyAt_of_string (stringOf_littleEndian key.nulFree key.fits short rest),
    terminated_of_string (stringOf_littleEndian key.nulFree short.le short rest) short⟩

theorem lt_pow_of_lt {x i j : Nat} (small : x < 2 ^ i) (longer : i ≤ j) : x < 2 ^ j :=
  small.trans_le (Nat.pow_le_pow_right Nat.two_pos longer)

theorem keyBytes_lt (key : Key) : littleEndian key.bytes < 2 ^ (8 * 64) :=
  lt_pow_of_lt (littleEndian_lt key.bytes) (Nat.mul_le_mul_left 8 (Nat.le_succ_of_le key.fits))

theorem stack_lt {low high i j : Nat} (small : low < 2 ^ i) (small' : high < 2 ^ j) :
    low + 2 ^ i * high < 2 ^ (i + j) :=
  calc low + 2 ^ i * high
      < 2 ^ i + 2 ^ i * high := Nat.add_lt_add_right small _
    _ = 2 ^ i * (high + 1) := by rw [Nat.mul_add, Nat.mul_one, Nat.add_comm]
    _ ≤ 2 ^ i * 2 ^ j := Nat.mul_le_mul_left _ small'
    _ = 2 ^ (i + j) := (Nat.pow_add ..).symm

/-- A slot is read from these bytes, which are of its width. -/
structure Decodes (decode : Nat → α) (width : Nat) (slot : α) (bytes : Nat) : Prop where
  slot : decode bytes = slot
  ends : terminated bytes
  small : bytes < 2 ^ (8 * width)

theorem indexOf_bytes {slot : Index} (fits : slot.child < 2 ^ 64) : Decodes indexOf 72 slot slot.bytes := by
  obtain ⟨key, ends⟩ := keyAt_bytes slot.key (slot.child % 2 ^ 64)
  have child : field slot.bytes 8 = slot.child := by
    rw [field, Index.bytes, bytesAt_high (i := 64) (a := 0) (keyBytes_lt slot.key), Nat.mod_eq_of_lt fits]
    have small : slot.child < 2 ^ (8 * 8) := fits
    exact bytesAt_of_lt small
  have width : 8 * 72 = 8 * 64 + 64 := rfl
  refine ⟨?_, ends, ?_⟩
  · rw [indexOf, child, Index.bytes, key]
  · rw [width, Index.bytes]
    exact stack_lt (keyBytes_lt slot.key) (Nat.mod_lt _ (Nat.two_pow_pos 64))

theorem recordOf_bytes (slot : Record) : Decodes recordOf 68 slot slot.bytes := by
  obtain ⟨key, ends⟩ := keyAt_bytes slot.key slot.value.toBitVec.toNat
  have small : slot.value.toBitVec.toNat < 2 ^ (8 * 4) := slot.value.toBitVec.isLt
  have value : bytesAt slot.bytes 64 4 = slot.value.toBitVec.toNat := by
    rw [Record.bytes, bytesAt_high (i := 64) (a := 0) (keyBytes_lt slot.key)]
    exact bytesAt_of_lt small
  have width : 8 * 68 = 8 * 64 + 32 := rfl
  refine ⟨?_, ends, ?_⟩
  · rw [recordOf, value, Record.bytes, key, BitVec.ofNat_toNat, BitVec.setWidth_eq,
      Int32.ofBitVec_toBitVec]
  · rw [width, Record.bytes]
    exact stack_lt (keyBytes_lt slot.key) small

section Slots

variable {decode : Nat → α} {encode : α → Nat} {width : Nat} {slot : α} {slots : List α}
  (again : ∀ x, decode (encode (decode x)) = decode x)
include again

theorem slotsOver_cons (good : Decodes decode width slot (encode slot)) (old : Nat) (rest : List α) :
    ∃ low, Decodes decode width slot low ∧ slotsOver decode encode width old (slot :: rest) =
      low + 2 ^ (8 * width) * slotsOver decode encode width (old / 2 ^ (8 * width)) rest := by
  rw [slotsOver]
  generalize kept : old % 2 ^ (8 * width) = was
  have small : was < 2 ^ (8 * width) := kept ▸ Nat.mod_lt old (Nat.two_pow_pos _)
  split
  next same => exact ⟨was, ⟨by rw [← again, same.2, good.slot], same.1, small⟩, rfl⟩
  next => exact ⟨encode slot, good, rfl⟩

/-- The slots in use are read back. -/
theorem slotsOver_slots (good : ∀ slot ∈ slots, Decodes decode width slot (encode slot)) (old : Nat) {i : Nat}
    (inside : i < slots.length) :
    Decodes decode width slots[i] (bytesAt (slotsOver decode encode width old slots) (width * i) width) := by
  induction slots generalizing old i with
  | nil => cases inside
  | cons slot rest ih =>
    obtain ⟨here, good⟩ := List.forall_mem_cons.mp good
    obtain ⟨low, decodes, split⟩ := slotsOver_cons again here old rest
    rw [split]
    cases i with
    | zero =>
      rw [Nat.mul_zero, bytesAt_add (Nat.zero_add width).le, bytesAt_of_lt decodes.small]
      exact decodes
    | succ i =>
      rw [Nat.mul_succ, Nat.add_comm (width * i), bytesAt_high decodes.small]
      exact ih good _ (Nat.lt_of_succ_lt_succ inside)

theorem slotsAt_slotsOver (good : ∀ slot ∈ slots, Decodes decode width slot (encode slot)) {old bytes : Nat}
    (same : ∀ i < slots.length, bytesAt bytes (width * i) width =
      bytesAt (slotsOver decode encode width old slots) (width * i) width) :
    (slotsAt width slots.length bytes).map decode = slots ∧ (slotsAt width slots.length bytes).all terminated := by
  constructor
  · apply List.ext_getElem
    · simp [slotsAt]
    · intro i _ inside
      simp only [slotsAt, List.map_map, List.getElem_map, List.getElem_range, Function.comp_apply, same i inside]
      exact (slotsOver_slots again good old inside).slot
  · simp only [slotsAt, List.all_map, List.all_eq_true, List.mem_range, Function.comp_apply]
    intro i inside
    rw [same i inside]
    exact (slotsOver_slots again good old inside).ends

end Slots

end Fdfs2qq.Bpt
