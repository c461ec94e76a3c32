import Mathlib.Data.List.Find
import Fdfs2qq.Jobschedule.Untrusted

/-! Decoding undoes encoding: the records and the body of one message come back
out of the buffer they were written to. -/
namespace Fdfs2qq.Jobschedule
open Box

theorem fieldTexts_of_clean {record : Bytes × Bytes} (clean : Clean record) :
    fieldText (HeaderItem.ofRecord record).keyV = .ok record.1 ∧
      fieldText (HeaderItem.ofRecord record).valueV = .ok record.2 := by
  obtain ⟨key, value, -, short, short'⟩ := clean
  rw [HeaderItem.ofRecord, fieldText_strncpy, fieldText_strncpy, cStr_of_notMem key.2, cStr_of_notMem value.2,
    if_pos short, if_pos short']
  exact ⟨rfl, rfl⟩

theorem ofRecords_bdPtr {rs : List (Bytes × Bytes)} (clean : ∀ record ∈ rs, Clean record) (body : Bytes) :
    (MessageItem.ofRecords rs body).bdPtr =
      match rs.reverse.find? fun record => record.1 = ascii "filehandle" with
      | some record => { isFilehandle := true, fileHandle := record.2 }
      | none => if body = [] then {} else { data := some body } := by
  have same : fileRecord rs = rs.reverse.find? fun record => record.1 = ascii "filehandle" := by
    refine List.find?_congr fun record mem => ?_
    rw [cStr_of_notMem (clean record (List.mem_reverse.mp mem)).key.2]
  rw [MessageItem.ofRecords, MessageItem.withBody, Body.withRecords_eq, ← same]
  cases named : fileRecord rs with
  | some record =>
    have mem := List.mem_reverse.mp (List.mem_of_find?_eq_some named)
    simp [cStr_of_notMem (clean record mem).value.2]
  | none =>
    by_cases empty : body = []
    · simp [empty]
    · simp [empty, Body.setData]

structure Decoded (rs : List (Bytes × Bytes)) (body : Bytes) (item : MessageItem) : Prop where
  stored : item.hdPtr.map (fun it => (it.isvalid, fieldText it.keyV, fieldText it.valueV)) =
    rs.map fun record => (true, .ok record.1, .ok record.2)
  mapped : ∃ headers, mappingHeaders item.hdPtr = .ok headers ∧ ∀ key, headers.find key = rs.lookup key
  bdPtr : item.bdPtr =
    match rs.reverse.find? fun record => record.1 = ascii "filehandle" with
    | some record => { isFilehandle := true, fileHandle := record.2 }
    | none => if body = [] then {} else { data := some body }

/-- What was encoded is decoded, as long as its length is an `int`. -/
theorem _splitMsg_of_encoded (rs : List (Bytes × Bytes)) (body : Bytes) (few : rs.length ≤ 512)
    (clean : ∀ record ∈ rs, Clean record) (free : Free body)
    (short : (recordsText rs ++ boxFieldSeperator :: body).length < 2 ^ 31) : ∃ item,
    _splitMsg (recordsText rs ++ boxFieldSeperator :: (body ++ [boxMsgSeperator]))
        (toInt (recordsText rs ++ boxFieldSeperator :: body).length) = .ok (some item) ∧
      Decoded rs body item := by
  obtain ⟨first, -⟩ := notMem_recordsText clean
  have last : strrchr (recordsText rs ++ boxFieldSeperator :: (body ++ [boxMsgSeperator])) boxFieldSeperator =
      some (recordsText rs).length := by
    apply strrchr_append
    rw [List.mem_append, not_or]
    exact ⟨free.1, by decide⟩
  have shape : recordsText rs ++ boxFieldSeperator :: (body ++ [boxMsgSeperator]) =
      (recordsText rs ++ boxFieldSeperator :: body) ++ [boxMsgSeperator] := by simp
  have within : ((recordsText rs ++ boxFieldSeperator :: body).length : Int) ≤
      (recordsText rs ++ boxFieldSeperator :: (body ++ [boxMsgSeperator])).length := by
    rw [shape]
    exact Int.ofNat_le.mpr (List.prefix_append _ _).length_le
  have text : ((recordsText rs ++ boxFieldSeperator :: (body ++ [boxMsgSeperator])).take
      (recordsText rs ++ boxFieldSeperator :: body).length).drop ((recordsText rs).length + 1) = body := by
    rw [shape, List.take_left, ← List.singleton_append, ← List.append_assoc]
    exact List.drop_left' (by simp)
  have positive : 0 < (recordsText rs ++ boxFieldSeperator :: body).length := List.length_pos_iff.mpr (by simp)
  have narrow : narrowed (recordsText rs) = recordsText rs := by
    rw [List.length_append] at short
    exact narrowed_of_lt (by omega)
  rw [toInt_of_lt (by omega) (by omega)]
  have parsed := (_splitMsg_iff first last (Int.ofNat_lt.mpr positive) within).mpr
    ⟨by rw [narrow, records_recordsText clean]; exact few,
      by rw [narrow, records_recordsText clean]; exact storable_of_clean clean, rfl⟩
  rw [Int.toNat_natCast, text, narrow, records_recordsText clean] at parsed
  refine ⟨_, parsed, ?_, ?_, ofRecords_bdPtr clean body⟩
  all_goals rw [ofRecords_hdPtr]
  · rw [List.map_map]
    apply List.map_congr_left
    intro record mem
    obtain ⟨key, value⟩ := fieldTexts_of_clean (clean record mem)
    rw [Function.comp, key, value]
    rfl
  · exact mapped_of_clean clean

/-- Two records of one key, and a body. -/
theorem _splitMsg_of_encoded_sample : ∃ item,
    _splitMsg (ascii "a\tx\x01a\ty\x02b\x03") (toInt 9) = .ok (some item) ∧
      Decoded [(ascii "a", ascii "x"), (ascii "a", ascii "y")] (ascii "b") item :=
  _splitMsg_of_encoded [(ascii "a", ascii "x"), (ascii "a", ascii "y")] (ascii "b") (by decide)
    (by
      intro record mem
      simp only [List.mem_cons, List.not_mem_nil, or_false] at mem
      obtain rfl | rfl := mem
      all_goals exact ⟨by decide, by decide, by decide, by decide, by decide⟩)
    ⟨by decide, by decide, by decide⟩ (by decide)

/-- A body of `2 ^ 31` bytes: its length is negative as an `int`, and nothing is decoded. -/
theorem not_splitMsg_of_encoded : ¬ ∀ (rs : List (Bytes × Bytes)) (body : Bytes), rs.length ≤ 512 →
    (∀ record ∈ rs, Clean record) → Free body → ∃ item,
      _splitMsg (recordsText rs ++ boxFieldSeperator :: (body ++ [boxMsgSeperator]))
          (toInt (recordsText rs ++ boxFieldSeperator :: body).length) = .ok (some item) ∧
        Decoded rs body item := by
  intro decoded
  have absent (c : UInt8) (other : c ≠ 97) : c ∉ List.replicate (2 ^ 31) (97 : UInt8) := fun mem =>
    other (List.eq_of_mem_replicate mem)
  obtain ⟨item, parsed, -⟩ := decoded [] (List.replicate (2 ^ 31) 97) (Nat.zero_le 512) nofun
    ⟨absent _ (by decide), absent _ (by decide), absent _ (by decide)⟩
  have length : (recordsText [] ++ boxFieldSeperator :: List.replicate (2 ^ 31) 97).length = 2 ^ 31 + 1 := by
    rw [List.length_append, List.length_cons, List.length_replicate]
    rfl
  have negative : toInt (2 ^ 31 + 1 : Nat) ≤ 0 := by decide +kernel
  rw [length, _splitMsg, if_pos negative] at parsed
  cases parsed

end Fdfs2qq.Jobschedule
