import Fdfs2qq.Box.BoxObject
import Fdfs2qq.Jobschedule.ProducerCli

/-! `RESPONSE_HEADER`: how the tracker fills it, and what the producer reads back
out of it. -/
namespace Fdfs2qq.Jobschedule
open Box

def fileidMaxlen : Nat := 128

/-- `strncpy(field, s, FILEID_MAXLEN)` and a NUL in the last byte. -/
def responseField (s : Bytes) : Bytes := (strncpy s fileidMaxlen).set (fileidMaxlen - 1) 0

/-- `StringToResponseObject(fileid, volumns, status)`; no result where the status
does not fit and is copied past the end of the header. -/
def stringToResponseObject (fileid volumns status : Bytes) : Option Bytes :=
  if status.length ≤ 3 then
    some (responseField fileid ++ responseField volumns ++ (status ++ List.replicate (3 - status.length) 0))
  else none

/-- A field holds the first 127 bytes, and ends in NULs. -/
theorem responseField_eq {s : Bytes} (free : 0 ∉ s) :
    responseField s = s.take 127 ++ List.replicate (128 - (s.take 127).length) 0 := by
  rw [responseField, strncpy, cStr_of_notMem free, fileidMaxlen]
  apply List.ext_getElem
  · simp only [List.length_set, List.length_append, List.length_take, List.length_replicate]
    omega
  · intro n inside inside'
    simp only [List.length_set, List.length_append, List.length_take, List.length_replicate] at inside
    simp only [List.getElem_set, List.getElem_append, List.length_take, List.getElem_take, List.getElem_replicate]
    by_cases last : 127 = n
    · subst last
      rw [if_pos rfl, dif_neg (by omega)]
    · rw [if_neg (by omega)]
      by_cases within : n < min 127 s.length
      · rw [dif_pos (by omega), dif_pos within]
      · rw [dif_neg (by omega), dif_neg within]

theorem responseField_length (s : Bytes) : (responseField s).length = 128 := by
  simp only [responseField, strncpy, fileidMaxlen, List.length_set, List.length_append, List.length_take,
    List.length_replicate]
  omega

/-- Whatever follows a field, it reads as the first 127 bytes. -/
theorem cStr_responseField {s : Bytes} (free : 0 ∉ s) (rest : Bytes) :
    cStr (responseField s ++ rest) = s.take 127 := by
  have padding : 128 - (s.take 127).length = 127 - (s.take 127).length + 1 := by
    have := List.length_take_le 127 s
    omega
  rw [responseField_eq free, padding, List.replicate_succ, List.append_assoc, List.cons_append]
  exact cStr_append fun mem => free (List.mem_of_mem_take mem)

/-- Digits behind the status are read with it. -/
theorem string2int_append {status rest : Bytes} (plain : ∀ c ∈ rest, ¬ isDigit c) :
    string2int (status ++ rest) = string2int status := by
  rw [string2int, List.filter_append, List.filter_eq_nil_iff.mpr plain, List.append_nil]
  rfl

theorem string2int_200 : string2int (ascii "200") = 200 := by
  rw [string2int, atoi_eq (by decide) (by decide)]
  decide

/-- The producer reads the object of the first 127 bytes of id and path, which
is the same object where both are short enough; it reads the same status while no
digit follows the header before a NUL. -/
theorem response_read (fileid volumns status memory : Bytes) (free : 0 ∉ fileid) (free' : 0 ∉ volumns)
    (three : status.length = 3) (digits : ∀ c ∈ status, isDigit c) : ∃ header,
    stringToResponseObject fileid volumns status = some header ∧ header.length = responseHeaderSize ∧
      responseObject2StorageFileObject header memory = .ofText (fileid.take 127) (volumns.take 127) ∧
      (fileid.length ≤ 127 → volumns.length ≤ 127 →
        responseObject2StorageFileObject header memory = .ofText fileid volumns) ∧
      ((∀ c ∈ cStr memory, ¬ isDigit c) → stssatus header memory = string2int status) := by
  have built : stringToResponseObject fileid volumns status =
      some (responseField fileid ++ (responseField volumns ++ status)) := by
    rw [stringToResponseObject, if_pos three.le, three, List.replicate_zero, List.append_nil, List.append_assoc]
  have length := responseField_length fileid
  have length' := responseField_length volumns
  have object : responseObject2StorageFileObject (responseField fileid ++ (responseField volumns ++ status)) memory =
      .ofText (fileid.take 127) (volumns.take 127) := by
    rw [responseObject2StorageFileObject, List.append_assoc, cStr_responseField free, List.drop_left' length,
      List.append_assoc, cStr_responseField free']
  refine ⟨_, built, ?_, object, fun short short' => ?_, fun plain => ?_⟩
  · simp only [List.length_append, length, length', three, responseHeaderSize]
  · rw [object, List.take_of_length_le short, List.take_of_length_le short']
  · have rest : (responseField fileid ++ (responseField volumns ++ status)).drop 256 = status := by
      rw [← List.append_assoc, List.drop_left' (by rw [List.length_append, length, length'])]
    have noZero : 0 ∉ status := fun zero => absurd (digits 0 zero) (by decide)
    rw [stssatus, rest, cStr_append_of_notMem noZero, string2int_append plain]

/-- A file of the volume at `/d/data`, with a NUL behind the header. -/
theorem response_read_sample : ∃ header,
    stringToResponseObject (ascii "g/M00/00/1F/x") (ascii "/d/data") (ascii "200") = some header ∧
      responseObject2StorageFileObject header [0] = .ofText (ascii "g/M00/00/1F/x") (ascii "/d/data") ∧
      stssatus header [0] = 200 := by
  obtain ⟨header, built, -, -, object, status⟩ := response_read (ascii "g/M00/00/1F/x") (ascii "/d/data")
    (ascii "200") [0] (by decide +kernel) (by decide +kernel) (by decide) (by decide +kernel)
  exact ⟨header, built, object (by decide +kernel) (by decide +kernel),
    (status (by decide +kernel)).trans string2int_200⟩

/-- An id of 132 bytes comes back as another id, with nothing but NULs behind the header. -/
theorem not_response_read_long : ∃ header,
    stringToResponseObject (ascii "g/M00/00/1F/" ++ List.replicate 120 120) (ascii "/d/data") (ascii "200") =
        some header ∧
      responseObject2StorageFileObject header [0] ≠
        .ofText (ascii "g/M00/00/1F/" ++ List.replicate 120 120) (ascii "/d/data") ∧
      (responseObject2StorageFileObject header [0]).globalFileid =
        ascii "g/M00/00/1F/" ++ List.replicate 115 120 := by
  refine ⟨_, rfl, ?_⟩
  decide +kernel

end Fdfs2qq.Jobschedule
