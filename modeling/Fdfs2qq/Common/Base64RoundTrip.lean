import Mathlib.Data.List.GetD
import Mathlib.Data.List.TakeDrop
import Fdfs2qq.Common.Base64

/-! What is encoded is decoded again, with any alphabet and any separator of lines that
the decoder ignores. -/
namespace Fdfs2qq.Common

theorem combined_eq (a b c : UInt8) :
    a.toNat <<< 16 ||| b.toNat <<< 8 ||| c.toNat = a.toNat * 2 ^ 16 + b.toNat * 2 ^ 8 + c.toNat := by
  have smallB : b.toNat <<< 8 < 2 ^ 16 := by
    have := b.toNat_lt
    rw [Nat.shiftLeft_eq]
    omega
  have shifted : a.toNat <<< 16 + b.toNat <<< 8 = (a.toNat <<< 8 + b.toNat) <<< 8 := by
    simp only [Nat.shiftLeft_eq]
    omega
  rw [← Nat.shiftLeft_add_eq_or_of_lt smallB, shifted, ← Nat.shiftLeft_add_eq_or_of_lt c.toNat_lt]
  simp only [Nat.shiftLeft_eq]
  omega

theorem sixBitValues_eq (a b c : UInt8) : Base64Context.sixBitValues a b c =
    [a.toNat / 2 ^ 2, a.toNat % 2 ^ 2 * 2 ^ 4 + b.toNat / 2 ^ 4, b.toNat % 2 ^ 4 * 2 ^ 2 + c.toNat / 2 ^ 6,
      c.toNat % 2 ^ 6] := by
  have smallA := a.toNat_lt
  have smallB := b.toNat_lt
  have smallC := c.toNat_lt
  have mask (n : Nat) : n &&& 0x3f = n % 2 ^ 6 := Nat.and_two_pow_sub_one_eq_mod n 6
  simp only [Base64Context.sixBitValues, combined_eq, mask, Nat.shiftRight_eq_div_pow, List.cons.injEq, and_true]
  omega

theorem bytes_combined (a b c : UInt8) :
    let combined := a.toNat * 2 ^ 16 + b.toNat * 2 ^ 8 + c.toNat
    [UInt8.ofNat (combined >>> 16), .ofNat ((combined &&& 0x0000FF00) >>> 8), .ofNat (combined &&& 0x000000FF)] =
      [a, b, c] := by
  intro combined
  have smallB := b.toNat_lt
  have smallC := c.toNat_lt
  have mask (n : Nat) : n &&& 0xFF = n % 2 ^ 8 := Nat.and_two_pow_sub_one_eq_mod n 8
  have first : combined >>> 16 = a.toNat := by
    rw [Nat.shiftRight_eq_div_pow]
    omega
  have second : (combined &&& 0x0000FF00) >>> 8 = b.toNat := by
    rw [Nat.shiftRight_and_distrib, show 0x0000FF00 >>> 8 = 0xFF from rfl, mask, Nat.shiftRight_eq_div_pow]
    omega
  have third : combined &&& 0x000000FF = c.toNat := by
    rw [mask]
    omega
  rw [first, second, third, UInt8.ofNat_toNat, UInt8.ofNat_toNat, UInt8.ofNat_toNat]

theorem push_four (s : Decoding) (start : s.cycle = 0) (a b c : UInt8) : ∃ combined,
    (Base64Context.sixBitValues a b c).foldl Decoding.push s =
      { s with combined := combined, dest := s.dest ++ [a, b, c] } := by
  obtain ⟨cycle, combined, dummies, dest⟩ := s
  cases start
  have smallA := a.toNat_lt
  have smallB := b.toNat_lt
  have smallC := c.toNat_lt
  rw [sixBitValues_eq]
  generalize first : a.toNat / 2 ^ 2 = v₀
  generalize second : a.toNat % 2 ^ 2 * 2 ^ 4 + b.toNat / 2 ^ 4 = v₁
  generalize third : b.toNat % 2 ^ 4 * 2 ^ 2 + c.toNat / 2 ^ 6 = v₂
  generalize fourth : c.toNat % 2 ^ 6 = v₃
  have whole : ((v₀ <<< 6 ||| v₁) <<< 6 ||| v₂) <<< 6 ||| v₃ =
      a.toNat * 2 ^ 16 + b.toNat * 2 ^ 8 + c.toNat := by
    rw [← Nat.shiftLeft_add_eq_or_of_lt (show v₁ < 2 ^ 6 by omega),
      ← Nat.shiftLeft_add_eq_or_of_lt (show v₂ < 2 ^ 6 by omega),
      ← Nat.shiftLeft_add_eq_or_of_lt (show v₃ < 2 ^ 6 by omega)]
    simp only [Nat.shiftLeft_eq]
    omega
  refine ⟨a.toNat * 2 ^ 16 + b.toNat * 2 ^ 8 + c.toNat, ?_⟩
  simp only [List.foldl_cons, List.foldl_nil, Decoding.push, whole, bytes_combined]

namespace Base64Context

/-- A context whose tables belong together, with a separator that is not in them. -/
structure Usable (context : Base64Context) : Prop where
  alphabet : ∀ v < 64, context.valueOf (context.valueToChar.getD v 0) = v
  pad : context.valueOf context.padCh = base64PadMark
  ignored : ∀ c ∈ context.separator, context.valueOf c = base64Ignore
  whole : context.separator.length = context.lineSepLen

variable {context : Base64Context}

theorem length_base64Values (chars : Bytes) (n : Nat) : (base64Values chars n).length = 256 := by
  induction n with
  | zero => exact List.length_replicate
  | succ n ih => rw [base64Values, List.length_set, ih]

/-- The first `n` characters have their places for values. -/
theorem getD_base64Values {chars : Bytes} (distinct : chars.Nodup) {n : Nat} (inside : n ≤ chars.length) (c : UInt8)
    (d : Int) : (base64Values chars n).getD c.toNat d =
      if c ∈ chars.take n then (chars.idxOf c : Int) else base64Ignore := by
  induction n with
  | zero => exact List.getD_replicate _ c.toNat_lt
  | succ n ih =>
    have here : chars.getD n 0 = chars[n] := List.getD_eq_getElem _ _ _
    have front : chars.take (n + 1) = chars.take n ++ [chars[n]] := (List.take_append_getElem inside).symm
    rw [base64Values, here, front]
    by_cases same : chars[n] = c
    · subst same
      have bound : chars[n].toNat < ((base64Values chars n).set chars[n].toNat n).length := by
        rw [List.length_set, length_base64Values]
        exact chars[n].toNat_lt
      rw [List.getD_eq_getElem _ _ bound, List.getElem_set_self, distinct.idxOf_getElem,
        if_pos (List.mem_append_right _ List.mem_cons_self)]
    · have other : chars[n].toNat ≠ c.toNat := fun eq => same (UInt8.toNat_inj.mp eq)
      have kept : c ∈ chars.take n ++ [chars[n]] ↔ c ∈ chars.take n := by
        rw [List.mem_append, List.mem_singleton]
        exact or_iff_left (Ne.symm same)
      rw [List.getD_eq_getElem?_getD, List.getElem?_set_ne other, ← List.getD_eq_getElem?_getD, ih (by omega)]
      simp only [kept]

theorem valueOf_base64InitEx {chPlus chSplash chPad : UInt8} (nLineLength : Int)
    (distinct : (chPad :: base64Alphabet chPlus chSplash).Nodup) (c : UInt8) :
    (base64InitEx nLineLength chPlus chSplash chPad).valueOf c =
      if c = chPad then base64PadMark
      else if c ∈ base64Alphabet chPlus chSplash then (base64Alphabet chPlus chSplash).idxOf c else base64Ignore := by
  have all : (base64Alphabet chPlus chSplash).length = 64 := rfl
  have entry := getD_base64Values (List.nodup_cons.mp distinct).2 all.ge c 0
  have size := length_base64Values (base64Alphabet chPlus chSplash) 64
  have put : (base64InitEx nLineLength chPlus chSplash chPad).charToValue =
      (base64Values (base64Alphabet chPlus chSplash) 64).set chPad.toNat base64PadMark := by simp only [base64InitEx]
  rw [valueOf, put]
  generalize base64Values (base64Alphabet chPlus chSplash) 64 = table at entry size
  by_cases isPad : c = chPad
  · subst isPad
    have inside : c.toNat < (table.set c.toNat base64PadMark).length := by
      rw [List.length_set, size]
      exact c.toNat_lt
    rw [if_pos rfl, List.getD_eq_getElem _ _ inside, List.getElem_set_self]
  · have other : chPad.toNat ≠ c.toNat := fun same => isPad (UInt8.toNat_inj.mp same.symm)
    rw [if_neg isPad, List.getD_eq_getElem?_getD, List.getElem?_set_ne other, ← List.getD_eq_getElem?_getD, entry,
      List.take_of_length_le all.le]

/-- What `base64_init_ex` and `base64_set_line_separator` make of characters that differ. -/
theorem usable_base64InitEx {chPlus chSplash chPad : UInt8} {pLineSeparator : Bytes} (nLineLength : Int)
    (distinct : (chPad :: base64Alphabet chPlus chSplash).Nodup) (short : pLineSeparator.length < 16)
    (apart : ∀ c ∈ pLineSeparator, c ∉ chPad :: base64Alphabet chPlus chSplash) :
    ((base64InitEx nLineLength chPlus chSplash chPad).setLineSeparator pLineSeparator).Usable := by
  obtain ⟨padApart, distinct'⟩ := List.nodup_cons.mp distinct
  have entry := valueOf_base64InitEx nLineLength distinct
  have size : (base64Alphabet chPlus chSplash).length = 64 := rfl
  have alphabet : (base64InitEx nLineLength chPlus chSplash chPad).valueToChar = base64Alphabet chPlus chSplash := rfl
  have padCh : (base64InitEx nLineLength chPlus chSplash chPad).padCh = chPad := rfl
  generalize base64InitEx nLineLength chPlus chSplash chPad = context at entry alphabet padCh
  generalize base64Alphabet chPlus chSplash = chars at *
  have separator : (context.setLineSeparator pLineSeparator).separator = pLineSeparator := by
    simp only [Base64Context.separator, setLineSeparator, List.take_of_length_le (Nat.le_of_lt_succ short),
      List.append_assoc, List.take_left]
  refine ⟨fun v small => ?_, ?_, fun c mem => ?_, ?_⟩
  · have inside : v < chars.length := size.symm ▸ small
    have mem := List.getElem_mem inside
    change context.valueOf (context.valueToChar.getD v 0) = v
    have notPad : chars[v] ≠ chPad := fun same => padApart (same ▸ mem)
    rw [alphabet, List.getD_eq_getElem _ _ inside, entry, if_neg notPad, if_pos mem, distinct'.idxOf_getElem]
  · change context.valueOf context.padCh = base64PadMark
    rw [padCh, entry, if_pos rfl]
  · rw [separator] at mem
    obtain ⟨notPad, outside⟩ := not_or.mp (List.mem_cons.not.mp (apart c mem))
    change context.valueOf c = base64Ignore
    rw [entry, if_neg notPad, if_neg outside]
  · rw [separator]
    rfl

theorem Usable.setLineLength (usable : context.Usable) (length : Int) : (context.setLineLength length).Usable :=
  ⟨usable.alphabet, usable.pad, usable.ignored, usable.whole⟩

theorem four_dvd_setLineLength (context : Base64Context) (length : Int) :
    4 ∣ (context.setLineLength length).lineLength := Int.dvd_mul_left _ _

theorem decode_ignored {piece : Bytes} (ignored : ∀ c ∈ piece, context.valueOf c = base64Ignore) (s : Decoding) :
    piece.foldl context.decodeChar s = s := by
  induction piece with
  | nil => rfl
  | cons c piece ih =>
    have here : context.decodeChar s c = s := by
      rw [decodeChar, ignored c List.mem_cons_self]
      rfl
    rw [List.foldl_cons, here, ih fun d mem => ignored d (List.mem_cons_of_mem c mem)]

theorem decodeChar_value (usable : context.Usable) {v : Nat} (small : v < 64) (s : Decoding) :
    context.decodeChar s (context.valueToChar.getD v 0) = s.push v := by
  have notIgnored : (v : Int) ≠ base64Ignore := by
    unfold base64Ignore
    omega
  have notPad : (v : Int) ≠ base64PadMark := by
    unfold base64PadMark
    omega
  simp only [decodeChar, usable.alphabet v small, notIgnored, notPad, if_false, Int.toNat_natCast]

theorem decodeChar_pad (usable : context.Usable) (s : Decoding) :
    context.decodeChar s context.padCh = { s with dummies := s.dummies + 1 }.push 0 := by
  rw [decodeChar, usable.pad]
  rfl

theorem sixBitValues_lt (a b c : UInt8) : ∀ v ∈ sixBitValues a b c, v < 64 := by
  have smallA := a.toNat_lt
  have smallB := b.toNat_lt
  have smallC := c.toNat_lt
  rw [sixBitValues_eq]
  intro v mem
  simp only [List.mem_cons, List.not_mem_nil, or_false] at mem
  omega

theorem decode_values (usable : context.Usable) {values : List Nat} (small : ∀ v ∈ values, v < 64) (s : Decoding) :
    (values.map fun v => context.valueToChar.getD v 0).foldl context.decodeChar s = values.foldl Decoding.push s := by
  induction values generalizing s with
  | nil => rfl
  | cons v values ih =>
    rw [List.map_cons, List.foldl_cons, List.foldl_cons, decodeChar_value usable (small v List.mem_cons_self),
      ih fun u mem => small u (List.mem_cons_of_mem v mem)]

/-- Decoding `text` adds `raw` to what is decoded. -/
def Decodes (context : Base64Context) (text raw : Bytes) : Prop :=
  ∀ s : Decoding, s.cycle = 0 → ∃ combined,
    text.foldl context.decodeChar s = { s with combined := combined, dest := s.dest ++ raw }

theorem decodes_quad (usable : context.Usable) (a b c : UInt8) : context.Decodes (context.quad a b c) [a, b, c] := by
  intro s start
  rw [quad, decode_values usable (sixBitValues_lt a b c)]
  exact push_four s start a b c

theorem decodes_ignored {piece : Bytes} (ignored : ∀ c ∈ piece, context.valueOf c = base64Ignore) :
    context.Decodes piece [] := fun s _ =>
  ⟨s.combined, by rw [decode_ignored ignored, List.append_nil]⟩

theorem Decodes.append {text text' raw raw' : Bytes} (first : context.Decodes text raw)
    (second : context.Decodes text' raw') : context.Decodes (text ++ text') (raw ++ raw') := by
  intro s start
  obtain ⟨combined, run⟩ := first s start
  obtain ⟨combined', run'⟩ := second { s with combined := combined, dest := s.dest ++ raw } start
  refine ⟨combined', ?_⟩
  rw [List.foldl_append, run, run', List.append_assoc]

/-- The characters that the decoder does not pass over. -/
def dataCount (context : Base64Context) (text : Bytes) : Nat :=
  text.countP fun c => context.valueOf c ≠ base64Ignore

theorem dataCount_append (context : Base64Context) (text text' : Bytes) :
    context.dataCount (text ++ text') = context.dataCount text + context.dataCount text' := List.countP_append

theorem dataCount_ignored {piece : Bytes} (ignored : ∀ c ∈ piece, context.valueOf c = base64Ignore) :
    context.dataCount piece = 0 := by
  apply List.countP_eq_zero.mpr
  intro c mem
  simp [ignored c mem]

theorem dataCount_values (usable : context.Usable) {values : List Nat} (small : ∀ v ∈ values, v < 64) :
    context.dataCount (values.map fun v => context.valueToChar.getD v 0) = values.length := by
  have all : (values.map fun v => context.valueToChar.getD v 0).length = values.length := List.length_map _
  rw [← all]
  apply List.countP_eq_length.mpr
  intro c mem
  obtain ⟨v, inside, rfl⟩ := List.mem_map.mp mem
  rw [usable.alphabet v (small v inside)]
  unfold base64Ignore
  simp only [decide_eq_true_eq]
  omega

theorem nextLine_ignored (usable : context.Usable) (linePos : Int) :
    ∀ c ∈ (context.nextLine linePos).1, context.valueOf c = base64Ignore := by
  intro c mem
  unfold nextLine at mem
  split at mem
  · split at mem
    · exact usable.ignored c mem
    · exact absurd mem List.not_mem_nil
  · exact absurd mem List.not_mem_nil

theorem encodeGroups_cons (context : Base64Context) (a b c : UInt8) (raw : Bytes) (linePos : Int) (dest : Bytes) :
    context.encodeGroups (a :: b :: c :: raw) linePos dest = context.encodeGroups raw (context.nextLine linePos).2
      (dest ++ ((context.nextLine linePos).1 ++ context.quad a b c)) := by
  rw [encodeGroups, ← List.append_assoc]

theorem exists_three {raw : Bytes} {n : Nat} (whole : raw.length = 3 * (n + 1)) :
    ∃ a b c rest, raw = a :: b :: c :: rest ∧ rest.length = 3 * n := by
  match raw with
  | a :: b :: c :: rest =>
    refine ⟨a, b, c, rest, rfl, ?_⟩
    simp only [List.length_cons] at whole
    omega
  | [] | [_] | [_, _] =>
    simp only [List.length_cons, List.length_nil] at whole
    omega

theorem encodeGroups_decodes (usable : context.Usable) {n : Nat} {raw : Bytes} (whole : raw.length = 3 * n)
    (linePos : Int) (dest : Bytes) : ∃ text, (context.encodeGroups raw linePos dest).2 = dest ++ text ∧
      context.Decodes text raw ∧ context.dataCount text = 4 * n := by
  induction n generalizing raw linePos dest with
  | zero =>
    obtain rfl := List.length_eq_zero_iff.mp whole
    exact ⟨[], by rw [List.append_nil]; rfl, decodes_ignored (by simp), rfl⟩
  | succ n ih =>
    obtain ⟨a, b, c, rest, rfl, fewer⟩ := exists_three whole
    rw [encodeGroups_cons]
    obtain ⟨text, run, decodes, count⟩ := ih fewer (context.nextLine linePos).2
      (dest ++ ((context.nextLine linePos).1 ++ context.quad a b c))
    have ignored := nextLine_ignored usable linePos
    refine ⟨(context.nextLine linePos).1 ++ context.quad a b c ++ text, ?_, ?_, ?_⟩
    · rw [run]
      simp only [List.append_assoc]
    · exact ((decodes_ignored ignored).append (decodes_quad usable a b c)).append decodes
    · rw [dataCount_append, dataCount_append, dataCount_ignored ignored, count, quad,
        dataCount_values usable (sixBitValues_lt a b c)]
      simp only [sixBitValues, List.length_cons, List.length_nil]
      omega

theorem encodeGroups_append (context : Base64Context) {n : Nat} {raw : Bytes} (whole : raw.length = 3 * n)
    (raw' : Bytes) (linePos : Int) (dest : Bytes) : context.encodeGroups (raw ++ raw') linePos dest =
      context.encodeGroups raw' (context.encodeGroups raw linePos dest).1 (context.encodeGroups raw linePos dest).2 := by
  induction n generalizing raw linePos dest with
  | zero =>
    obtain rfl := List.length_eq_zero_iff.mp whole
    rfl
  | succ n ih =>
    obtain ⟨a, b, c, rest, rfl, fewer⟩ := exists_three whole
    rw [List.cons_append, List.cons_append, List.cons_append, encodeGroups_cons, encodeGroups_cons, ih fewer]

/-- The separators in the text of some groups, with `j` groups on the line before them. -/
def breaksFrom (context : Base64Context) (j groups : Nat) : Nat :=
  if context.lineLength = 0 then 0
  else if context.lineLength < 4 then groups
  else (j + groups - 1) / (context.lineLength.toNat / 4)

def lineBreaks (context : Base64Context) (groups : Nat) : Nat := context.breaksFrom 0 groups

theorem lineBreaks_zero (context : Base64Context) : context.lineBreaks 0 = 0 := by
  unfold lineBreaks breaksFrom
  split
  · rfl
  · split
    · rfl
    · exact Nat.zero_div _

theorem nextLine_breaks (usable : context.Usable) {j : Nat}
    (fits : 4 ≤ context.lineLength → j ≤ context.lineLength.toNat / 4) (n : Nat) :
    ∃ j' : Nat, (context.nextLine (4 * j : Nat)).2 = (4 * j' : Nat) ∧
      (4 ≤ context.lineLength → j' ≤ context.lineLength.toNat / 4) ∧
        (context.nextLine (4 * j : Nat)).1.length + context.breaksFrom j' n * context.lineSepLen =
          context.breaksFrom j (n + 1) * context.lineSepLen := by
  unfold nextLine breaksFrom
  by_cases zero : context.lineLength = 0
  · have past : context.lineLength < (4 * j : Nat) + 4 := by omega
    refine ⟨1, ?_, fun long => by omega, ?_⟩
    · rw [if_pos past]
      rfl
    · rw [if_pos past]
      simp [zero]
  by_cases short : context.lineLength < 4
  · have past : context.lineLength < (4 * j : Nat) + 4 := by omega
    refine ⟨1, ?_, fun long => by omega, ?_⟩
    · rw [if_pos past]
      rfl
    · simp only [past, zero, short, if_true, if_false, ne_eq, not_false_eq_true, usable.whole]
      rw [Nat.succ_mul, Nat.add_comm]
  · have long : 4 ≤ context.lineLength := by omega
    have filled := fits long
    generalize perLine : context.lineLength.toNat / 4 = p at filled
    by_cases full : j = p
    · have past : context.lineLength < (4 * j : Nat) + 4 := by omega
      refine ⟨1, ?_, fun _ => by omega, ?_⟩
      · rw [if_pos past]
        rfl
      · have more : j + (n + 1) - 1 = n + p := by omega
        have fewer : 1 + n - 1 = n := by omega
        simp only [past, zero, short, if_true, if_false, ne_eq, not_false_eq_true, usable.whole, more, fewer]
        rw [Nat.add_div_right n (by omega), Nat.succ_mul, Nat.add_comm]
    · have room : ¬ context.lineLength < (4 * j : Nat) + 4 := by omega
      refine ⟨j + 1, ?_, fun _ => by omega, ?_⟩
      · rw [if_neg room]
        omega
      · have same : j + 1 + n - 1 = j + (n + 1) - 1 := by omega
        rw [if_neg room, same]
        simp [zero, short]

theorem length_encodeGroups (usable : context.Usable) {n : Nat} {raw : Bytes} (whole : raw.length = 3 * n) {j : Nat}
    (fits : 4 ≤ context.lineLength → j ≤ context.lineLength.toNat / 4) (dest : Bytes) :
    (context.encodeGroups raw (4 * j : Nat) dest).2.length =
      dest.length + 4 * n + context.breaksFrom j n * context.lineSepLen := by
  induction n generalizing raw j dest with
  | zero =>
    obtain rfl := List.length_eq_zero_iff.mp whole
    have empty : context.breaksFrom j 0 = 0 := by
      unfold breaksFrom
      split
      · rfl
      · split
        · rfl
        · have filled := fits (by omega)
          exact Nat.div_eq_of_lt (by omega)
    rw [empty, Nat.zero_mul]
    rfl
  | succ n ih =>
    obtain ⟨a, b, c, rest, rfl, fewer⟩ := exists_three whole
    obtain ⟨j', line, fits', count⟩ := nextLine_breaks usable fits n
    rw [encodeGroups_cons, line, ih fewer fits', ← count, List.length_append, List.length_append]
    simp only [quad, sixBitValues, List.length_map, List.length_cons, List.length_nil]
    omega

def lacking (src : Bytes) : Nat := (3 - src.length % 3) % 3

/-- The characters that stand for `src`, without padding. -/
structure Encodes (context : Base64Context) (src data : Bytes) : Prop where
  decoded : ∃ combined, (data ++ List.replicate (lacking src) context.padCh).foldl context.decodeChar {} =
    ⟨0, combined, lacking src, src ++ List.replicate (lacking src) 0⟩
  count : context.dataCount data + lacking src = 4 * ((src.length + 2) / 3)
  length : data.length = context.dataCount data + context.lineBreaks ((src.length + 2) / 3) * context.lineSepLen
  small : data.length + lacking src < 2 ^ 31

theorem push_dummies (s : Decoding) (dummies value : Nat) :
    { s with dummies := dummies }.push value = { s.push value with dummies := dummies } := by
  obtain ⟨cycle, combined, old, dest⟩ := s
  match cycle with
  | 0 | 1 | 2 => rfl
  | cycle + 3 => rfl

theorem foldl_push_dummies (values : List Nat) (s : Decoding) (dummies : Nat) :
    values.foldl Decoding.push { s with dummies := dummies } =
      { values.foldl Decoding.push s with dummies := dummies } := by
  induction values generalizing s with
  | nil => rfl
  | cons v values ih => rw [List.foldl_cons, List.foldl_cons, push_dummies, ih]

theorem dummies_push (s : Decoding) (value : Nat) : (s.push value).dummies = s.dummies := by
  obtain ⟨cycle, combined, dummies, dest⟩ := s
  match cycle with
  | 0 | 1 | 2 => rfl
  | cycle + 3 => rfl

theorem dummies_foldl_push (values : List Nat) (s : Decoding) : (values.foldl Decoding.push s).dummies = s.dummies := by
  induction values generalizing s with
  | nil => rfl
  | cons v values ih => rw [List.foldl_cons, ih, dummies_push]

/-- Padding is read as zeros that are counted. -/
theorem decode_pads (usable : context.Usable) (k : Nat) (s : Decoding) :
    (List.replicate k context.padCh).foldl context.decodeChar s =
      { (List.replicate k 0).foldl Decoding.push s with dummies := s.dummies + k } := by
  induction k generalizing s with
  | zero =>
    obtain ⟨cycle, combined, dummies, dest⟩ := s
    rfl
  | succ k ih =>
    rw [List.replicate_succ, List.replicate_succ, List.foldl_cons, List.foldl_cons, decodeChar_pad usable, ih,
      push_dummies, foldl_push_dummies, Nat.add_comm k 1, ← Nat.add_assoc]

/-- A text of which the last `k` characters are replaced by padding. -/
theorem encodeGroups_last (usable : context.Usable) {n k : Nat} {raw : Bytes} {a b c : UInt8} {values : List Nat}
    (whole : raw.length = 3 * n) (zeros : sixBitValues a b c = values ++ List.replicate k 0) :
    ∃ data combined, (context.encodeGroups (raw ++ [a, b, c]) 0 []).2.take
        ((context.encodeGroups (raw ++ [a, b, c]) 0 []).2.length - k) = data ∧
      (data ++ List.replicate k context.padCh).foldl context.decodeChar {} = ⟨0, combined, k, raw ++ [a, b, c]⟩ ∧
        context.dataCount data + k = 4 * (n + 1) ∧
          data.length + k = 4 * (n + 1) + context.lineBreaks (n + 1) * context.lineSepLen := by
  have wholes : (raw ++ [a, b, c]).length = 3 * (n + 1) := by
    rw [List.length_append, whole]
    rfl
  have length : (context.encodeGroups (raw ++ [a, b, c]) 0 []).2.length =
      0 + 4 * (n + 1) + context.lineBreaks (n + 1) * context.lineSepLen :=
    length_encodeGroups usable wholes (fun _ => Nat.zero_le _) []
  obtain ⟨front, run, decodes, count⟩ := encodeGroups_decodes usable whole 0 []
  generalize line : (context.nextLine (context.encodeGroups raw 0 []).1).1 = separator
  have ignored : ∀ d ∈ separator, context.valueOf d = base64Ignore := line ▸ nextLine_ignored usable _
  have small := sixBitValues_lt a b c
  rw [zeros] at small
  generalize same : (front ++ separator ++ values.map fun v => context.valueToChar.getD v 0) = data
  have text : (context.encodeGroups (raw ++ [a, b, c]) 0 []).2 =
      data ++ List.replicate k (context.valueToChar.getD 0 0) := by
    rw [encodeGroups_append context whole, run, encodeGroups_cons, line, quad, zeros, List.map_append,
      List.map_replicate, ← same]
    simp only [encodeGroups, List.nil_append, List.append_assoc]
  obtain ⟨combined, decoded⟩ : ∃ combined, (front ++ separator).foldl context.decodeChar {} =
      { combined := combined, dest := raw ++ [] } := (decodes.append (decodes_ignored ignored)) {} rfl
  obtain ⟨combined', pushed⟩ := push_four { combined := combined, dest := raw ++ [] } rfl a b c
  have four := congrArg List.length zeros
  simp only [sixBitValues, List.length_append, List.length_replicate, List.length_cons, List.length_nil] at four
  rw [text, List.length_append, List.length_replicate] at length
  refine ⟨data, combined', ?_, ?_, ?_, ?_⟩
  · rw [text, List.length_append, List.length_replicate, Nat.add_sub_cancel, List.take_left]
  · have values' := decode_values usable (fun v mem => small v (List.mem_append_left _ mem))
      { combined := combined, dest := raw ++ [] }
    rw [zeros, List.foldl_append] at pushed
    rw [← same, List.foldl_append, List.foldl_append, decoded, values', decode_pads usable, pushed,
      dummies_foldl_push]
    simp only [List.append_nil, Nat.zero_add]
  · have counted := dataCount_values usable fun v mem => small v (List.mem_append_left _ mem)
    rw [← same, dataCount_append, dataCount_append, count, dataCount_ignored ignored, counted]
    omega
  · rw [length, Nat.zero_add]

/-- Filled up with zeros, a string that is not empty ends with a group, in which the
characters for the zeros are those that padding takes the place of. -/
theorem exists_last {src : Bytes} (filled : src ≠ []) : ∃ n raw a b c values, raw.length = 3 * n ∧
    src ++ List.replicate (lacking src) 0 = raw ++ [a, b, c] ∧
      sixBitValues a b c = values ++ List.replicate (lacking src) 0 ∧ (src.length + 2) / 3 = n + 1 := by
  have positive := List.length_pos_iff.mpr filled
  obtain ⟨n, groups⟩ : ∃ n, (src.length + 2) / 3 = n + 1 := ⟨(src.length + 2) / 3 - 1, by omega⟩
  have inside : 3 * n ≤ src.length := by omega
  have split : src = src.take (3 * n) ++ src.drop (3 * n) := (List.take_append_drop ..).symm
  have rest : (src.drop (3 * n)).length + lacking src = 3 := by
    rw [List.length_drop, lacking]
    omega
  have few : lacking src < 3 := Nat.mod_lt _ (by decide)
  generalize lacking src = k at rest few ⊢
  generalize src.drop (3 * n) = leftover at rest split
  have whole : (src.take (3 * n)).length = 3 * n := List.length_take_of_le inside
  generalize src.take (3 * n) = raw at whole split
  subst split
  obtain rfl | rfl | rfl : k = 0 ∨ k = 1 ∨ k = 2 := by omega
  · obtain ⟨a, b, c, rfl⟩ := List.length_eq_three.mp rest
    exact ⟨n, raw, a, b, c, sixBitValues a b c, whole, by simp, by simp, groups⟩
  · obtain ⟨a, b, rfl⟩ := List.length_eq_two.mp (Nat.succ.inj rest)
    refine ⟨n, raw, a, b, 0, [a.toNat / 2 ^ 2, a.toNat % 2 ^ 2 * 2 ^ 4 + b.toNat / 2 ^ 4, b.toNat % 2 ^ 4 * 2 ^ 2],
      whole, by simp, ?_, groups⟩
    rw [sixBitValues_eq]
    rfl
  · obtain ⟨a, rfl⟩ := List.length_eq_one_iff.mp (Nat.succ.inj (Nat.succ.inj rest))
    refine ⟨n, raw, a, 0, 0, [a.toNat / 2 ^ 2, a.toNat % 2 ^ 2 * 2 ^ 4], whole, by simp, ?_, groups⟩
    rw [sixBitValues_eq]
    rfl

/-- Both loops are one over the string filled up. -/
theorem encodeEx_eq (context : Base64Context) {src : Bytes} (nonempty : src ≠ []) (bPad : Bool) :
    context.encodeEx src bPad =
      let dest := (context.encodeGroups (src ++ List.replicate (lacking src) 0) 0 []).2
      if dest.length < 2 ^ 31 then
        some (dest.take (dest.length - lacking src) ++
          if bPad then List.replicate (lacking src) context.padCh else [])
      else none := by
  rw [encodeEx, if_neg nonempty]
  have split : src.take (src.length / 3 * 3) ++ src.drop (src.length / 3 * 3) = src := List.take_append_drop ..
  have whole : (src.take (src.length / 3 * 3)).length = 3 * (src.length / 3) := by
    rw [List.length_take_of_le (Nat.div_mul_le_self ..), Nat.mul_comm]
  have rest : (src.drop (src.length / 3 * 3)).length = src.length % 3 := by
    rw [List.length_drop]
    omega
  by_cases empty : src.drop (src.length / 3 * 3) = []
  · have full : lacking src = 0 := by
      rw [empty, List.length_nil] at rest
      rw [lacking, ← rest]
    have same : src.take (src.length / 3 * 3) = src := by
      rwa [empty, List.append_nil] at split
    simp [empty, same, full]
  · have left : 3 - (src.drop (src.length / 3 * 3)).length = lacking src := by
      have positive := List.length_pos_iff.mpr empty
      rw [rest] at positive ⊢
      rw [lacking]
      omega
    have joined : context.encodeGroups (src ++ List.replicate (lacking src) 0) 0 [] =
        context.encodeGroups (src.drop (src.length / 3 * 3) ++ List.replicate (lacking src) 0)
          (context.encodeGroups (src.take (src.length / 3 * 3)) 0 []).1
          (context.encodeGroups (src.take (src.length / 3 * 3)) 0 []).2 := by
      rw [← encodeGroups_append context whole, ← List.append_assoc, split]
    rw [joined]
    simp only [empty, left, if_false]

theorem encodeEx_encodes (usable : context.Usable) {src text : Bytes} {bPad : Bool}
    (run : context.encodeEx src bPad = some text) : ∃ data, context.Encodes src data ∧
      text = data ++ if bPad then List.replicate (lacking src) context.padCh else [] := by
  by_cases empty : src = []
  · subst empty
    obtain rfl : text = [] := (Option.some.inj run).symm
    refine ⟨[], ⟨⟨0, rfl⟩, rfl, ?_, by decide⟩, ?_⟩
    · change 0 = 0 + context.lineBreaks 0 * context.lineSepLen
      rw [lineBreaks_zero, Nat.zero_mul]
    · cases bPad <;> rfl
  · obtain ⟨n, raw, a, b, c, values, whole, split, zeros, groups⟩ := exists_last empty
    obtain ⟨data, combined, cut, decoded, count, length⟩ := encodeGroups_last usable whole zeros
    rw [encodeEx_eq context empty, split] at run
    obtain ⟨small, same⟩ := Option.ite_none_right_eq_some.mp run
    have shorter := congrArg List.length cut
    rw [List.length_take] at shorter
    have few : lacking src < 3 := Nat.mod_lt _ (by decide)
    rw [cut] at same
    refine ⟨data, ⟨⟨combined, ?_⟩, ?_, ?_, by omega⟩, (Option.some.inj same).symm⟩
    · rw [decoded, split]
    · rw [count, groups]
    · rw [groups]
      omega

theorem decode_of_encodes {src data : Bytes} (encodes : context.Encodes src data) :
    context.decode (data ++ List.replicate (lacking src) context.padCh) = some src := by
  obtain ⟨combined, run⟩ := encodes.decoded
  rw [decode, run]
  simp

/-- Whatever is encoded with padding is decoded again. -/
theorem decode_encodeEx (context : Base64Context) (src text : Bytes) (usable : context.Usable)
    (run : context.encodeEx src true = some text) : context.decode text = some src := by
  obtain ⟨data, encodes, rfl⟩ := encodeEx_encodes usable run
  exact decode_of_encodes encodes

def narrow : Base64Context := ((base64InitEx 0 43 47 61).setLineSeparator [13, 10]).setLineLength 7

theorem narrow_usable : narrow.Usable :=
  (usable_base64InitEx 0 (by decide +kernel) (by decide) (by decide +kernel)).setLineLength 7

theorem decode_encodeEx_sample : narrow.decode [65, 81, 73, 68, 13, 10, 66, 65, 61, 61] = some [1, 2, 3, 4] :=
  decode_encodeEx narrow [1, 2, 3, 4] [65, 81, 73, 68, 13, 10, 66, 65, 61, 61] narrow_usable (by decide +kernel)

theorem cycle_push {s : Decoding} (inside : s.cycle < 4) (value : Nat) : (s.push value).cycle = (s.cycle + 1) % 4 := by
  obtain ⟨cycle, combined, dummies, dest⟩ := s
  obtain rfl | rfl | rfl | rfl : cycle = 0 ∨ cycle = 1 ∨ cycle = 2 ∨ cycle = 3 := by
    change cycle < 4 at inside
    omega
  all_goals simp [Decoding.push]

theorem cycle_decode (context : Base64Context) (text : Bytes) {s : Decoding} (inside : s.cycle < 4) :
    (text.foldl context.decodeChar s).cycle = (s.cycle + context.dataCount text) % 4 := by
  induction text generalizing s with
  | nil => exact (Nat.mod_eq_of_lt inside).symm
  | cons c text ih =>
    have count : context.dataCount (c :: text) =
        context.dataCount text + if context.valueOf c ≠ base64Ignore then 1 else 0 := by
      simp only [dataCount, List.countP_cons, decide_eq_true_eq]
    rw [List.foldl_cons, count, decodeChar]
    by_cases ignored : context.valueOf c = base64Ignore
    · simp only [ignored, if_true, ne_eq, not_true_eq_false, if_false]
      exact ih inside
    · have next (u : Decoding) (same : u.cycle = s.cycle) (value : Nat) :
          (text.foldl context.decodeChar (u.push value)).cycle = (s.cycle + (context.dataCount text + 1)) % 4 := by
        have pushed := cycle_push (s := u) (same ▸ inside) value
        rw [ih (by omega), pushed, same]
        omega
      simp only [ignored, if_false, ne_eq, not_false_eq_true, if_true]
      split
      · exact next { s with dummies := s.dummies + 1 } rfl 0
      · exact next s rfl _

theorem dataCount_pads (usable : context.Usable) (k : Nat) :
    context.dataCount (List.replicate k context.padCh) = k := by
  have kept : context.valueOf context.padCh ≠ base64Ignore := by
    rw [usable.pad]
    decide
  rw [dataCount, List.countP_replicate, if_pos (by simpa using kept)]

/-- `base64_decode_auto` counts the separators as characters, and gives the string back
exactly where their number of bytes is a multiple of four. -/
theorem decodeAuto_encodeEx_iff (context : Base64Context) (src text : Bytes) (bPad : Bool) (usable : context.Usable)
    (run : context.encodeEx src bPad = some text) : context.decodeAuto text = some src ↔
      4 ∣ context.lineBreaks ((src.length + 2) / 3) * context.lineSepLen := by
  obtain ⟨data, encodes, same⟩ := encodeEx_encodes usable run
  have count := encodes.count
  have length := encodes.length
  have few : lacking src < 3 := Nat.mod_lt _ (by decide)
  have filled : context.decodeAuto text =
      context.decode (text ++ List.replicate ((4 - text.length % 4) % 4) context.padCh) := by
    rw [decodeAuto]
    split
    next whole => rw [whole, List.replicate_zero, List.append_nil]
    next rest => rw [Nat.mod_eq_of_lt (show 4 - text.length % 4 < 4 by omega)]
  generalize breaks : context.lineBreaks ((src.length + 2) / 3) * context.lineSepLen = separators at length
  rw [filled]
  constructor
  · intro decoded
    have added : text.length + context.dataCount data = data.length + context.dataCount text := by
      rw [same]
      cases bPad with
      | false => simp
      | true =>
        rw [if_pos rfl, dataCount_append, dataCount_pads usable, List.length_append, List.length_replicate]
        omega
    by_contra uneven
    have broken : ((text ++ List.replicate ((4 - text.length % 4) % 4) context.padCh).foldl
        context.decodeChar {}).cycle ≠ 0 := by
      rw [cycle_decode context _ (by decide), dataCount_append, dataCount_pads usable,
        show ({} : Decoding).cycle = 0 from rfl]
      omega
    rw [decode, if_pos broken] at decoded
    obtain rfl := Option.some.inj decoded
    have zero : separators = 0 := by
      rw [← breaks]
      exact (congrArg (· * context.lineSepLen) (lineBreaks_zero context)).trans (Nat.zero_mul _)
    exact uneven (zero ▸ Nat.dvd_zero 4)
  · intro even
    have whole : text ++ List.replicate ((4 - text.length % 4) % 4) context.padCh =
        data ++ List.replicate (lacking src) context.padCh := by
      rw [same]
      cases bPad with
      | true =>
        rw [if_pos rfl, List.length_append, List.length_replicate]
        have empty : (4 - (data.length + lacking src) % 4) % 4 = 0 := by omega
        rw [empty, List.replicate_zero, List.append_nil]
      | false =>
        rw [if_neg Bool.false_ne_true, List.append_nil]
        have all : (4 - data.length % 4) % 4 = lacking src := by omega
        rw [all]
    rw [whole]
    exact decode_of_encodes encodes

/-- One separator of two bytes is not decoded, two of them are. -/
theorem decodeAuto_encodeEx_iff_sample :
    narrow.decodeAuto [65, 81, 73, 68, 13, 10, 66, 65] ≠ some [1, 2, 3, 4] ∧
      narrow.decodeAuto [65, 81, 73, 68, 13, 10, 66, 65, 85, 71, 13, 10, 66, 119] = some [1, 2, 3, 4, 5, 6, 7] := by
  constructor
  · exact (decodeAuto_encodeEx_iff narrow [1, 2, 3, 4] [65, 81, 73, 68, 13, 10, 66, 65] false narrow_usable
      (by decide +kernel)).not.mpr (by decide +kernel)
  · exact (decodeAuto_encodeEx_iff narrow [1, 2, 3, 4, 5, 6, 7]
      [65, 81, 73, 68, 13, 10, 66, 65, 85, 71, 13, 10, 66, 119] false narrow_usable
        (by decide +kernel)).mpr (by decide +kernel)

/-- Lines of `4 * p` characters, where no sum goes beyond an `int`. -/
theorem getEncodeLength_eq {p n : Nat} (line : context.lineLength = (4 * p : Nat))
    (sum : 4 * ((n + 2) / 3) + 4 * p ≤ 2 ^ 31)
    (whole : 4 * ((n + 2) / 3) + context.lineBreaks ((n + 2) / 3) * context.lineSepLen < 2 ^ 31) :
    context.getEncodeLength n =
      (4 * ((n + 2) / 3) + context.lineBreaks ((n + 2) / 3) * context.lineSepLen : Nat) := by
  have groups : (toInt (n + 2)).tdiv 3 * 4 = (4 * ((n + 2) / 3) : Nat) := by
    rw [toInt_of_lt (by omega) (by omega), Int.tdiv_eq_ediv_of_nonneg (by omega)]
    omega
  unfold getEncodeLength
  rw [groups, toInt_of_lt (by omega) (by omega)]
  generalize (n + 2) / 3 = g at sum whole ⊢
  unfold lineBreaks breaksFrom at whole ⊢
  rw [line] at whole ⊢
  obtain rfl | positive := Nat.eq_zero_or_pos p
  · simp
  · have long : ((4 * p : Nat) : Int) ≠ 0 := by omega
    have notShort : ¬ ((4 * p : Nat) : Int) < 4 := by omega
    have perLine : ((4 * p : Nat) : Int).toNat / 4 = p := by omega
    simp only [long, notShort, perLine, ne_eq, not_false_eq_true, if_true, if_false, Nat.zero_add] at whole ⊢
    have same : toInt ((4 * g : Nat) + (4 * p : Nat) - 1) = (4 * g : Nat) + (4 * p : Nat) - 1 :=
      toInt_of_lt (by omega) (by omega)
    rw [same]
    cases g with
    | zero =>
      have nothing : ((4 * 0 : Nat) + (4 * p : Nat) - 1 : Int).tdiv (4 * p : Nat) = 0 :=
        Int.tdiv_eq_zero_of_lt (by omega) (by omega)
      have before : ¬ 0 < toInt (0 - 1) := by
        rw [toInt_of_lt (by decide) (by decide)]
        decide
      rw [nothing, Nat.zero_sub, Nat.zero_div, if_neg before, Nat.zero_mul, Nat.add_zero]
    | succ g =>
      have rounded : ((4 * (g + 1) : Nat) + (4 * p : Nat) - 1 : Int).tdiv (4 * p : Nat) = (g / p + 1 : Nat) := by
        have sum : ((4 * (g + 1) : Nat) + (4 * p : Nat) - 1 : Int) = (4 * (g + p) + 3 : Nat) := by omega
        have fours : (4 * (g + p) + 3) / 4 = g + p := by omega
        rw [sum, ← Int.ofNat_tdiv, ← Nat.div_div_eq_div_mul, fours, Nat.add_div_right g positive]
      have few : g / p ≤ g := Nat.div_le_self g p
      rw [rounded, Nat.add_sub_cancel] at *
      generalize g / p = lines at whole few
      have counted : toInt ((lines + 1 : Nat) - 1) = lines := by
        rw [toInt_of_lt (by omega) (by omega)]
        omega
      have total : ((4 * (g + 1) : Nat) + (lines : Int) * (context.lineSepLen : Int)) =
          (4 * (g + 1) + lines * context.lineSepLen : Nat) := by simp
      rw [counted, total, toInt_of_lt (by omega) (by omega)]
      split
      next => rfl
      next one =>
        obtain rfl : lines = 0 := by omega
        simp

/-- The length is the one that is computed before, where the sum of the characters and a
line is not beyond an `int`. -/
theorem length_encodeEx (context : Base64Context) (src text : Bytes) (bPad : Bool) (usable : context.Usable)
    (lines : 0 ≤ context.lineLength) (fours : 4 ∣ context.lineLength)
    (sum : 4 * ((src.length + 2) / 3 : Nat) + context.lineLength ≤ 2 ^ 31)
    (run : context.encodeEx src bPad = some text) :
    (text.length : Int) = context.getEncodeLength src.length - if bPad then 0 else lacking src := by
  obtain ⟨data, encodes, same⟩ := encodeEx_encodes usable run
  have count := encodes.count
  have length := encodes.length
  have small := encodes.small
  have written : (text.length : Int) = data.length + lacking src - if bPad then 0 else lacking src := by
    rw [same]
    cases bPad <;> simp
  have computed : (data.length + lacking src : Int) = context.getEncodeLength src.length := by
    obtain ⟨p, line⟩ : ∃ p : Nat, context.lineLength = (4 * p : Nat) := by
      obtain ⟨q, line⟩ := fours
      exact ⟨q.toNat, by omega⟩
    rw [getEncodeLength_eq line (by omega) (by omega)]
    omega
  rw [written, computed]

theorem length_encodeEx_sample : narrow.getEncodeLength 4 = 10 := by
  have written := length_encodeEx narrow [1, 2, 3, 4] [65, 81, 73, 68, 13, 10, 66, 65, 61, 61] true narrow_usable
    (by decide) (four_dvd_setLineLength _ 7) (by decide) (by decide +kernel)
  simpa using written.symm

end Base64Context
end Fdfs2qq.Common
