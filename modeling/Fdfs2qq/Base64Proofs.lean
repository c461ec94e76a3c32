import Mathlib.Data.List.GetD
import Fdfs2qq.Base64

/-! Base64 as one stream of bits, cut into bytes on one side and into the values
of characters on the other. The encoder fills the stream up with zeros, and the
decoder drops what is less than a byte. -/
namespace Fdfs2qq
open Lib

def stream (s : Bytes) : List Bool := s.flatMap fun byte => bits 8 byte.toNat

def sixBits (c : UInt8) : List Bool := bits 6 (base64Chars.idxOf c)

/-- The longest prefix of characters of the alphabet. -/
def base64Prefix (t : Bytes) : Bytes := t.takeWhile (· ∈ base64Chars)

def base64Rest (t : Bytes) : Bytes := t.dropWhile (· ∈ base64Chars)

def wholeBytes (t : Bytes) : Bytes := (groups 8 ((base64Prefix t).flatMap sixBits)).map UInt8.ofNat

theorem groups_stream {s : Bytes} {bs : List Bool} (short : bs.length < 8) :
    (groups 8 (stream s ++ bs)).map UInt8.ofNat = s := by
  rw [stream, groups_flatMap (fun byte _ => byte.toNat_lt) short, List.map_map]
  have same : UInt8.ofNat ∘ UInt8.toNat = id := funext fun byte => UInt8.ofNat_toNat
  rw [same, List.map_id]

theorem stream_append (s t : Bytes) : stream (s ++ t) = stream s ++ stream t := List.flatMap_append

theorem stream_zeros (k : Nat) : stream (List.replicate k 0) = List.replicate (8 * k) false := by
  induction k with
  | zero => rfl
  | succ k ih =>
    rw [List.replicate_succ, Nat.mul_succ, Nat.add_comm, List.replicate_add, ← ih, ← bits_zero 8]
    rfl

theorem base64Char_mem (small : v.toNat < 64) : base64Char v ∈ base64Chars := by
  rw [base64Char, List.getD_eq_getElem _ _ (show v.toNat < base64Chars.length from small)]
  exact List.getElem_mem _

theorem idxOf_base64Char (small : v.toNat < 64) : base64Chars.idxOf (base64Char v) = v.toNat := by
  have distinct : base64Chars.Nodup := by decide +kernel
  rw [base64Char, List.getD_eq_getElem _ _ (show v.toNat < base64Chars.length from small)]
  exact distinct.idxOf_getElem _ _

theorem sixBits_base64Char (small : v.toNat < 64) : sixBits (base64Char v) = bits 6 v.toNat := by
  rw [sixBits, idxOf_base64Char small]

theorem tableAt_eq (c : UInt8) : tableAt c =
    if 128 ≤ c then .error .index
    else if c ∈ base64Chars then .ok (base64Chars.idxOf c) else .ok (-1) := by
  have all : ∀ n : Fin 256, tableAt (.ofNat n) =
      if 128 ≤ UInt8.ofNat n then .error .index
      else if .ofNat n ∈ base64Chars then .ok (base64Chars.idxOf (.ofNat n)) else .ok (-1) := by
    decide +kernel
  simpa only [UInt8.ofNat_toNat] using all ⟨c.toNat, c.toNat_lt⟩

theorem masks (a : UInt8) :
    ((a &&& 0xfc) >>> 2).toNat = a.toNat / 2 ^ 2 ∧ ((a &&& 0x03) <<< 4).toNat = a.toNat % 2 ^ 2 * 2 ^ 4 ∧
      ((a &&& 0xf0) >>> 4).toNat = a.toNat / 2 ^ 4 ∧ ((a &&& 0x0f) <<< 2).toNat = a.toNat % 2 ^ 4 * 2 ^ 2 ∧
        ((a &&& 0xc0) >>> 6).toNat = a.toNat / 2 ^ 6 ∧ (a &&& 0x3f).toNat = a.toNat % 2 ^ 6 := by
  have all : ∀ n : Fin 256, let a := UInt8.ofNat n
      ((a &&& 0xfc) >>> 2).toNat = a.toNat / 2 ^ 2 ∧ ((a &&& 0x03) <<< 4).toNat = a.toNat % 2 ^ 2 * 2 ^ 4 ∧
        ((a &&& 0xf0) >>> 4).toNat = a.toNat / 2 ^ 4 ∧ ((a &&& 0x0f) <<< 2).toNat = a.toNat % 2 ^ 4 * 2 ^ 2 ∧
          ((a &&& 0xc0) >>> 6).toNat = a.toNat / 2 ^ 6 ∧ (a &&& 0x3f).toNat = a.toNat % 2 ^ 6 := by
    decide +kernel
  simpa only [UInt8.ofNat_toNat] using all ⟨a.toNat, a.toNat_lt⟩

theorem charArray4_toNat (a b c : UInt8) : (charArray4 [a, b, c]).map UInt8.toNat =
    [a.toNat / 2 ^ 2, a.toNat % 2 ^ 2 * 2 ^ 4 + b.toNat / 2 ^ 4,
      b.toNat % 2 ^ 4 * 2 ^ 2 + c.toNat / 2 ^ 6, c.toNat % 2 ^ 6] := by
  have smallA := a.toNat_lt
  have smallB := b.toNat_lt
  have smallC := c.toNat_lt
  obtain ⟨first, second, -, -, -, -⟩ := masks a
  obtain ⟨-, -, second', third, -, -⟩ := masks b
  obtain ⟨-, -, -, -, third', fourth⟩ := masks c
  simp only [charArray4, List.getD_cons_zero, List.getD_cons_succ, List.map_cons, List.map_nil, UInt8.toNat_add,
    first, second, second', third, third', fourth, List.cons.injEq, and_true, true_and]
  omega

theorem charArray4_bits (a b c : UInt8) :
    ((charArray4 [a, b, c]).flatMap fun v => bits 6 v.toNat) = stream [a, b, c] := by
  have mapped : ((charArray4 [a, b, c]).flatMap fun v => bits 6 v.toNat) =
      ((charArray4 [a, b, c]).map UInt8.toNat).flatMap (bits 6) := by rw [List.flatMap_map]
  have splitA : bits 8 a.toNat = bits 6 (a.toNat / 2 ^ 2) ++ bits 2 (a.toNat % 2 ^ 2) := by
    rw [bits_mod _ le_rfl, ← bits_add]
  have splitB : bits 8 b.toNat = bits 4 (b.toNat / 2 ^ 4) ++ bits 4 (b.toNat % 2 ^ 4) := by
    rw [bits_mod _ le_rfl, ← bits_add]
  have splitC : bits 8 c.toNat = bits 2 (c.toNat / 2 ^ 6) ++ bits 6 (c.toNat % 2 ^ 6) := by
    rw [bits_mod _ le_rfl, ← bits_add]
  have second := bits_push 2 (a.toNat % 2 ^ 2) (show b.toNat / 2 ^ 4 < 2 ^ 4 by have := b.toNat_lt; omega)
  have third := bits_push 4 (b.toNat % 2 ^ 4) (show c.toNat / 2 ^ 6 < 2 ^ 2 by have := c.toNat_lt; omega)
  rw [mapped, charArray4_toNat]
  simp only [stream, List.flatMap_cons, List.flatMap_nil, List.append_nil, splitA, splitB, splitC, second, third,
    List.append_assoc]

theorem charArray4_small (a b c : UInt8) : ∀ v ∈ charArray4 [a, b, c], v.toNat < 64 := by
  have smallA := a.toNat_lt
  have smallB := b.toNat_lt
  have smallC := c.toNat_lt
  intro v mem
  have mem' : v.toNat ∈ (charArray4 [a, b, c]).map UInt8.toNat := List.mem_map_of_mem mem
  rw [charArray4_toNat] at mem'
  simp only [List.mem_cons, List.not_mem_nil, or_false] at mem'
  omega

/-- The characters that the loop appends and the bytes it keeps have the bits of
what it read. -/
theorem encodeLoop_spec (bytes : Bytes) {charArray3 : Bytes} (short : charArray3.length < 3) (ret : Bytes) :
    ∃ (values : Bytes) (kept : Bytes), encodeLoop bytes charArray3 ret = (kept, ret ++ values.map base64Char) ∧ kept.length < 3 ∧
      (∀ v ∈ values, v.toNat < 64) ∧
        (values.flatMap fun v => bits 6 v.toNat) ++ stream kept = stream (charArray3 ++ bytes) := by
  induction bytes generalizing charArray3 ret with
  | nil => exact ⟨[], charArray3, by simp [encodeLoop], short, by simp, by simp⟩
  | cons byte bytes ih =>
    rw [encodeLoop]
    split
    next full =>
      obtain ⟨a, b, rfl⟩ : ∃ a b, charArray3 = [a, b] :=
        List.length_eq_two.mp (by simpa using full)
      obtain ⟨values, kept, run, fewer, small, same⟩ := ih (show ([] : Bytes).length < 3 by decide)
        (ret ++ (charArray4 [a, b, byte]).map base64Char)
      refine ⟨charArray4 [a, b, byte] ++ values, kept, ?_, fewer, ?_, ?_⟩
      · simpa using run
      · intro v mem
        exact (List.mem_append.mp mem).elim (charArray4_small a b byte v) (small v)
      · rw [List.flatMap_append, charArray4_bits, List.append_assoc, same, ← stream_append]
        rfl
    next room =>
      have fewer : (charArray3 ++ [byte]).length < 3 := by
        rw [List.length_append, List.length_singleton] at room ⊢
        omega
      obtain ⟨values, kept, run, fewer, small, same⟩ := ih fewer ret
      exact ⟨values, kept, run, fewer, small, by simpa using same⟩

/-- The text of the bytes that are read spells their bits, with less than a
character of zeros behind. -/
theorem _bast64Encode_spec (s : Bytes) : ∃ (values : Bytes) (zeros pads : Nat),
    _bast64Encode s = values.map base64Char ++ List.replicate pads base64Pad ∧ (∀ v ∈ values, v.toNat < 64) ∧
      zeros < 6 ∧ (values.flatMap fun v => bits 6 v.toNat) =
        stream (s.take (s.length % 2 ^ 32)) ++ List.replicate zeros false := by
  obtain ⟨values, kept, run, fewer, small, same⟩ :=
    encodeLoop_spec (s.take (s.length % 2 ^ 32)) (show [].length < 3 by decide) []
  rw [_bast64Encode, run]
  by_cases zero : kept.length = 0
  · obtain rfl := List.eq_nil_of_length_eq_zero zero
    exact ⟨values, 0, 0, by simp, small, by decide, by simpa [stream] using same⟩
  · obtain ⟨a, b, c, full⟩ : ∃ a b c, kept ++ List.replicate (3 - kept.length) 0 = [a, b, c] :=
      List.length_eq_three.mp (by rw [List.length_append, List.length_replicate]; omega)
    refine ⟨values ++ (charArray4 [a, b, c]).take (kept.length + 1), 6 * (kept.length + 1) - 8 * kept.length,
      3 - kept.length, ?_, ?_, by omega, ?_⟩
    · simp [zero, full]
    · intro v mem
      exact (List.mem_append.mp mem).elim (small v) fun mem => charArray4_small a b c v (List.mem_of_mem_take mem)
    · have length : (stream kept).length = 8 * kept.length := length_flatMap_bits kept UInt8.toNat
      rw [List.flatMap_append, flatMap_bits_take, charArray4_bits, ← full, stream_append, stream_zeros,
        List.take_append, List.take_of_length_le (by omega), List.take_replicate, length, ← List.append_assoc, same,
        List.nil_append, Nat.min_eq_left (by omega)]

/-- The accumulator ends with the bits that are not out yet. -/
structure Holding (val : BitVec 32) (valb : Int) (pending : List Bool) : Prop where
  short : pending.length < 8
  count : valb = pending.length - 8
  low : bits pending.length val.toNat = pending

theorem charOf_eq {k : Nat} (val : BitVec 32) (low : k ≤ 24) :
    charOf val k = UInt8.ofNat (ofBits (bits 8 (val.toNat / 2 ^ k))) := by
  rw [charOf, ofBits_bits, Int.toNat_natCast]
  apply UInt8.toBitVec_inj.mp
  apply BitVec.eq_of_getLsbD_eq
  intro i inside
  have below : k + i < 32 := by omega
  have wide : i < 32 := by omega
  have mask : (0xFF#32).getLsbD i = true := by
    have ones : Nat.testBit (2 ^ 8 - 1) i = true := by
      rw [Nat.testBit_two_pow_sub_one]
      exact decide_eq_true inside
    exact ones
  have right : (UInt8.ofNat (val.toNat / 2 ^ k % 2 ^ 8)).toBitVec.getLsbD i = val.toNat.testBit (k + i) := by
    change (BitVec.ofNat 8 _).getLsbD i = _
    rw [BitVec.getLsbD_ofNat, Nat.testBit_mod_two_pow, Nat.testBit_div_two_pow, decide_eq_true inside,
      Bool.true_and, Bool.true_and, Nat.add_comm]
  rw [right, BitVec.testBit_toNat, BitVec.getLsbD_setWidth, BitVec.getLsbD_and, mask,
    BitVec.getLsbD_sshiftRight]
  simp [inside, below, wide]

theorem bits_accumulated (val : BitVec 32) (mem : c ∈ base64Chars) (narrow : w + 6 ≤ 32) :
    bits (w + 6) ((val <<< 6) + BitVec.ofInt 32 (base64Chars.idxOf c)).toNat = bits w val.toNat ++ sixBits c := by
  have small : base64Chars.idxOf c < 2 ^ 6 := List.idxOf_lt_length_of_mem mem
  rw [BitVec.ofInt_natCast, BitVec.toNat_add, BitVec.toNat_shiftLeft, BitVec.toNat_ofNat, Nat.shiftLeft_eq,
    ← Nat.add_mod, bits_mod _ narrow, bits_push w val.toNat small, sixBits]

/-- One character: its bits are put behind those that are there, and eight bits
are written as soon as there are eight. -/
theorem Holding.step {val : BitVec 32} {valb : Int} {pending : List Bool} (holding : Holding val valb pending)
    (mem : c ∈ base64Chars) : ∃ (val' : BitVec 32) (valb' : Int) (pending' : List Bool) (whole : Bytes),
      Holding val' valb' pending' ∧
        (∀ i out p, decodeLoop i val valb out (c :: p) =
          if i = 2 ^ 31 - 1 then .error .overflow else decodeLoop (i + 1) val' valb' (out ++ whole) p) ∧
        ∀ bs, (groups 8 (pending ++ (sixBits c ++ bs))).map UInt8.ofNat =
          whole ++ (groups 8 (pending' ++ bs)).map UInt8.ofNat := by
  obtain ⟨short, rfl, low⟩ := holding
  have ascii : ¬ 128 ≤ c := by
    have all : ∀ c ∈ base64Chars, ¬ 128 ≤ c := by decide +kernel
    exact all c mem
  have known : (base64Chars.idxOf c : Int) ≠ -1 := by omega
  obtain ⟨val', val'_eq⟩ : ∃ v : BitVec 32, v = (val <<< 6) + BitVec.ofInt 32 (base64Chars.idxOf c) := ⟨_, rfl⟩
  have joined : bits (pending.length + 6) val'.toNat = pending ++ sixBits c := by
    rw [val'_eq, bits_accumulated val mem (by omega), low]
  have turn (i : Nat) (out p : Bytes) : decodeLoop i val (pending.length - 8) out (c :: p) =
      if i = 2 ^ 31 - 1 then .error .overflow
      else if (0 : Int) ≤ pending.length - 8 + 6
        then decodeLoop (i + 1) val' (pending.length - 8 + 6 - 8) (out ++ [charOf val' (pending.length - 8 + 6)]) p
        else decodeLoop (i + 1) val' (pending.length - 8 + 6) out p := by
    rw [val'_eq]
    simp only [decodeLoop, tableAt_eq, ascii, mem, known, if_true, if_false, bind, Except.bind, throw,
      throwThe, MonadExceptOf.throw]
    split
    · rfl
    · split <;> rfl
  by_cases enough : 2 ≤ pending.length
  · obtain ⟨k, length⟩ : ∃ k, pending.length + 6 = 8 + k := ⟨pending.length - 2, by omega⟩
    have places : (pending.length : Int) - 8 + 6 = k := by omega
    rw [length, bits_add] at joined
    refine ⟨val', k - 8, bits k val'.toNat, [charOf val' k], ⟨?_, ?_, ?_⟩, fun i out p => ?_, fun bs => ?_⟩
    · rw [length_bits]
      omega
    · rw [length_bits]
    · rw [length_bits]
    · rw [turn, places, if_pos (Int.natCast_nonneg k)]
    · rw [← List.append_assoc, ← joined, List.append_assoc, groups_append _ (by decide) (length_bits 8 _),
        charOf_eq val' (by omega)]
      rfl
  · refine ⟨val', pending.length - 8 + 6, pending ++ sixBits c, [], ⟨?_, ?_, ?_⟩, fun i out p => ?_, fun bs => ?_⟩
    all_goals have six : (sixBits c).length = 6 := length_bits 6 _
    · rw [List.length_append]
      omega
    · rw [List.length_append, six]
      omega
    · rw [List.length_append, six, joined]
    · rw [turn, if_neg (show ¬ (0 : Int) ≤ pending.length - 8 + 6 by omega), List.append_nil]
    · rw [List.append_assoc, List.nil_append]

/-- The loop from any place on: characters of the alphabet, and then the end or
a character that is not one of them. -/
theorem decodeLoop_eq {val : BitVec 32} {valb : Int} {pending : List Bool} {cs rest : Bytes}
    (holding : Holding val valb pending) (chars : ∀ c ∈ cs, c ∈ base64Chars)
    (stop : ∀ c ∈ rest.head?, c ∉ base64Chars) (room : i < 2 ^ 31) (out : Bytes) :
    decodeLoop i val valb out (cs ++ rest) =
      if 2 ^ 31 ≤ i + cs.length then .error .overflow
      else if rest.head?.any (128 ≤ ·) then .error .index
      else .ok (out ++ (groups 8 (pending ++ cs.flatMap sixBits)).map UInt8.ofNat) := by
  induction cs generalizing i val valb pending out with
  | nil =>
    have left : (groups 8 (pending ++ [].flatMap sixBits)).map UInt8.ofNat = [] := by
      rw [List.flatMap_nil, List.append_nil, groups_short holding.short, List.map_nil]
    rw [left, List.append_nil, List.nil_append, List.length_nil, Nat.add_zero, if_neg (by omega)]
    cases rest with
    | nil => rfl
    | cons c p =>
      have other := stop c rfl
      simp only [decodeLoop, tableAt_eq, other, if_false, List.head?_cons, Option.any_some, decide_eq_true_eq]
      split <;> rfl
  | cons c cs ih =>
    obtain ⟨mem, chars⟩ := List.forall_mem_cons.mp chars
    obtain ⟨val', valb', pending', whole, holding', turn, same⟩ := holding.step mem
    rw [List.cons_append, turn, List.length_cons, List.flatMap_cons, same]
    split
    next last => rw [if_pos (by omega)]
    next more =>
      rw [ih holding' chars (by omega), List.append_assoc, Nat.add_right_comm i 1, Nat.add_assoc]

theorem copied (t memory : Bytes) : ∃ rest,
    (cStr t ++ 0 :: memory).take t.length = base64Prefix t ++ rest ∧ rest.head? = (base64Rest t).head? := by
  have parts : base64Prefix t ++ base64Rest t = t := List.takeWhile_append_dropWhile
  have free : ∀ c ∈ base64Prefix t, c ≠ 0 := by
    rintro c mem rfl
    have inside : (0 : UInt8) ∈ base64Chars := by simpa using List.mem_takeWhile_imp mem
    exact absurd inside (by decide)
  have text : cStr t = base64Prefix t ++ cStr (base64Rest t) := by
    conv_lhs => rw [← parts]
    rw [cStr, List.takeWhile_append_of_pos (by simpa using free), cStr]
  have length : t.length = (base64Prefix t).length + (base64Rest t).length := by
    rw [← List.length_append, parts]
  rw [text, length, List.append_assoc, List.take_length_add_append]
  refine ⟨_, rfl, ?_⟩
  cases base64Rest t with
  | nil => rfl
  | cons c r =>
    by_cases nul : c = 0
    · simp [cStr, nul]
    · simp [cStr, nul]

theorem _bast64Decode_eq (t memory : Bytes) : _bast64Decode t memory =
    if 2 ^ 31 ≤ (base64Prefix t).length then .error .overflow
    else if (base64Rest t).head?.any (128 ≤ ·) then .error .index
    else .ok (wholeBytes t) := by
  obtain ⟨rest, seen, same⟩ := copied t memory
  have chars : ∀ c ∈ base64Prefix t, c ∈ base64Chars := fun c mem => by
    simpa using List.mem_takeWhile_imp mem
  have stop : ∀ c ∈ rest.head?, c ∉ base64Chars := by
    intro c mem
    have other := List.head?_dropWhile_not (· ∈ base64Chars) t
    rw [show (t.dropWhile (· ∈ base64Chars)).head? = some c from same ▸ mem] at other
    simpa using other
  have start : Holding 0 (-8) [] := ⟨by decide, rfl, rfl⟩
  rw [_bast64Decode, seen, decodeLoop_eq start chars stop (by decide), same, Nat.zero_add]
  rfl

/-- Only the first byte after the prefix is looked up besides those of the prefix,
and it may be outside of the table. -/
theorem _bast64Decode_iff (t memory : Bytes) : _bast64Decode t memory = .ok (wholeBytes t) ↔
    (base64Prefix t).length < 2 ^ 31 ∧ ∀ c ∈ (base64Rest t).head?, c < 128 := by
  have low : (base64Rest t).head?.any (128 ≤ ·) = false ↔ ∀ c ∈ (base64Rest t).head?, c < 128 := by
    cases (base64Rest t).head? <;> simp
  rw [_bast64Decode_eq, ← low]
  split
  next long => exact iff_of_false nofun fun both => absurd both.1 (not_lt.mpr long)
  next short =>
    split
    next high => exact iff_of_false nofun fun both => absurd high (by simp [both.2])
    next ascii => exact iff_of_true rfl ⟨not_le.mp short, Bool.eq_false_of_not_eq_true ascii⟩

/-- A byte that is negative as a `char`. -/
theorem _bast64Decode_high : _bast64Decode [0x80] [] ≠ .ok (wholeBytes [0x80]) := by decide

/-- The text of the encoder is read back as the bytes that it read. -/
theorem _bast64Decode_encode (s memory : Bytes) : _bast64Decode (_bast64Encode s) memory =
    if 3 * 2 ^ 29 ≤ s.length % 2 ^ 32 then .error .overflow else .ok (s.take (s.length % 2 ^ 32)) := by
  obtain ⟨values, zeros, pads, text, small, few, same⟩ := _bast64Encode_spec s
  have chars : ∀ c ∈ values.map base64Char, decide (c ∈ base64Chars) = true := by
    intro c mem
    obtain ⟨v, inside, rfl⟩ := List.mem_map.mp mem
    exact decide_eq_true (base64Char_mem (small v inside))
  have pad : base64Pad ∉ base64Chars := by decide
  have before : base64Prefix (_bast64Encode s) = values.map base64Char := by
    rw [base64Prefix, text, List.takeWhile_append_of_pos chars]
    cases pads <;> simp [List.replicate_succ, pad]
  have behind : base64Rest (_bast64Encode s) = List.replicate pads base64Pad := by
    rw [base64Rest, text, List.dropWhile_append_of_pos chars]
    cases pads <;> simp [List.replicate_succ, pad]
  have spelled : (values.map base64Char).flatMap sixBits = values.flatMap fun v => bits 6 v.toNat := by
    rw [List.flatMap_map]
    exact List.flatMap_congr fun v mem => sixBits_base64Char (small v mem)
  have count : 6 * values.length = 8 * (s.length % 2 ^ 32) + zeros := by
    have lengths := congrArg List.length same
    have read : s.length % 2 ^ 32 ≤ s.length := Nat.mod_le _ _
    rw [length_flatMap_bits, List.length_append, stream, length_flatMap_bits, List.length_replicate, List.length_take,
      Nat.min_eq_left read] at lengths
    exact lengths
  have ended : (List.replicate pads base64Pad).head?.any (128 ≤ ·) = false := by
    cases pads
    · rfl
    · rfl
  rw [_bast64Decode_eq, behind, ended, before, wholeBytes, before, spelled, same, groups_stream]
  · have bound : 2 ^ 31 ≤ (values.map base64Char).length ↔ 3 * 2 ^ 29 ≤ s.length % 2 ^ 32 := by
      rw [List.length_map]
      omega
    simp only [bound, Bool.false_eq_true, if_false]
  · rw [List.length_replicate]
    omega

/-- Strings come back while the characters of their text can be counted. -/
theorem _bast64Decode_encode_iff (s memory : Bytes) :
    _bast64Decode (_bast64Encode s) memory = .ok s ↔ s.length < 3 * 2 ^ 29 := by
  rw [_bast64Decode_encode]
  constructor
  · intro back
    split at back
    · cases back
    next room =>
      have length := congrArg List.length (Except.ok.inj back)
      rw [List.length_take] at length
      omega
  · intro short
    rw [Nat.mod_eq_of_lt (by omega), if_neg (by omega), List.take_length]

/-- `in_len` of a string of 4 GiB is 0. -/
theorem _bast64Decode_encode_long :
    _bast64Decode (_bast64Encode (List.replicate (2 ^ 32) 0)) [] ≠ .ok (List.replicate (2 ^ 32) 0) := by
  have length : (List.replicate (2 ^ 32) (0 : UInt8)).length = 2 ^ 32 := List.length_replicate
  rw [_bast64Decode_encode, length]
  intro back
  have empty := congrArg List.length (Except.ok.inj back)
  rw [length, List.length_take, Nat.mod_self, Nat.zero_min] at empty
  omega

end Fdfs2qq
