import Fdfs2qq.Jobschedule.Meaning

/-! Buffers from clients. What the parser needs of a buffer to stay inside the
message it is parsing and inside the storage of the header. -/
namespace Fdfs2qq.Jobschedule
open Box

/-- The headers and the body are taken from the slice of a message, as far as it
is in the buffer: the headers are what they are whatever follows, and the body
is an end of the part of the slice that its length stands for as an `int`. -/
structure TakenFrom (slice : Bytes) (bufferLen : Nat) (item : MessageItem) : Prop where
  headers : ∀ rest, slice.length ≤ (slice.take bufferLen ++ rest).length → ∃ other,
    _splitMsg (slice.take bufferLen ++ rest) (toInt slice.length) = .ok (some other) ∧
      other.hdPtr = item.hdPtr ∧ other.bdPtr.isFilehandle = item.bdPtr.isFilehandle ∧
        other.bdPtr.fileHandle = item.bdPtr.fileHandle
  body : ∀ data, item.bdPtr.data = some data →
    data <:+ narrowed slice ∧ (narrowed slice).length ≤ bufferLen

/-- The parser returns, and each item is taken from its own slice. -/
def SplitsInside (buffer : Bytes) (bufferLen : Nat) : Prop :=
  ∃ items, splitMsg buffer = .ok (items, items.length) ∧ ∀ item ∈ items, ∃ slice rest,
    boxMsgSeperator ∉ slice ∧ buffer = slice ++ boxMsgSeperator :: rest ∧ TakenFrom slice bufferLen item

/-- The slice has a field separator of its own, with records before it that can
be stored; what is behind the last one of all is in the buffer. -/
structure OwnFields (slice rest : Bytes) (bufferLen : Nat) (metastr : Bytes) : Prop where
  fields : metastr ++ [boxFieldSeperator] <+: slice.take bufferLen
  first : boxFieldSeperator ∉ metastr
  few : (records (narrowed metastr)).length ≤ maxItemsCount
  storable : ∀ record ∈ records (narrowed metastr), Storable record
  inline : fileRecord (records (narrowed metastr)) = none →
    ∀ lastField, strrchr (slice ++ boxMsgSeperator :: rest) boxFieldSeperator = some lastField →
      lastField + 1 < (narrowed slice).length → (narrowed slice).length ≤ bufferLen

theorem ofRecords_headers (rs : List (Bytes × Bytes)) (body body' : Bytes) :
    (MessageItem.ofRecords rs body).hdPtr = (MessageItem.ofRecords rs body').hdPtr ∧
      (MessageItem.ofRecords rs body).bdPtr.isFilehandle = (MessageItem.ofRecords rs body').bdPtr.isFilehandle ∧
        (MessageItem.ofRecords rs body).bdPtr.fileHandle = (MessageItem.ofRecords rs body').bdPtr.fileHandle := by
  simp only [MessageItem.ofRecords, MessageItem.withBody, Body.withRecords_eq]
  cases fileRecord rs with
  | none => simp only [Body.setData]; split <;> split <;> exact ⟨rfl, rfl, rfl⟩
  | some record => exact ⟨rfl, rfl, rfl⟩

/-- There is a text in the body exactly if no record names a file. -/
theorem ofRecords_data (rs : List (Bytes × Bytes)) (body data : Bytes) :
    (MessageItem.ofRecords rs body).bdPtr.data = some data ↔ fileRecord rs = none ∧ body ≠ [] ∧ data = body := by
  simp only [MessageItem.ofRecords, MessageItem.withBody, Body.withRecords_eq]
  cases fileRecord rs with
  | none =>
    by_cases filled : body = []
    · simp [filled]
    · simp [filled, Body.setData, eq_comm]
  | some record => simp

theorem ownFields_of_taken {slice rest : Bytes} {bufferLen count : Nat} {items : List MessageItem}
    (free : boxMsgSeperator ∉ slice) (positive : 0 < toInt slice.length)
    (parsed : splitMsg (slice ++ boxMsgSeperator :: rest) = .ok (items, count))
    (taken : ∀ item ∈ items, TakenFrom slice bufferLen item) :
    ∃ metastr, OwnFields slice rest bufferLen metastr := by
  have field := field_mem_of_parsed free positive parsed
  obtain ⟨metastr, after, whole, first⟩ := List.eq_append_cons_of_mem field
  obtain ⟨lastField, last⟩ := strrchr_of_mem field
  obtain ⟨few, storable, rfl, rfl⟩ := (splitMsg_slice_iff free positive first whole last).mp parsed
  have taken := taken _ List.mem_cons_self
  -- with no field separator behind it the front of the slice is parsed, so it has one
  obtain ⟨other, alone, -⟩ := taken.headers (List.replicate slice.length boxMsgSeperator) (by simp)
  have field : boxFieldSeperator ∈ slice.take bufferLen := by
    by_contra absent
    rw [_splitMsg_notMem positive] at alone
    · cases alone
    · rw [List.mem_append, not_or]
      exact ⟨absent, fun mem => absurd (List.eq_of_mem_replicate mem) (by decide)⟩
  obtain ⟨metastr', after', whole', first'⟩ := List.eq_append_cons_of_mem field
  have same : metastr' = metastr := by
    have front : slice ++ boxMsgSeperator :: rest = metastr' ++ boxFieldSeperator ::
        (after' ++ (slice.drop bufferLen ++ boxMsgSeperator :: rest)) := by
      rw [← List.cons_append, ← List.append_assoc, ← whole', ← List.append_assoc, List.take_append_drop]
    have before := congrArg (List.takeWhile fun c => decide (c ≠ boxFieldSeperator)) (front.symm.trans whole)
    rwa [Lib.takeWhile_ne_append first', Lib.takeWhile_ne_append first] at before
  subst same
  refine ⟨metastr', ⟨after', ?_⟩, first, few, storable, fun unnamed lastField' last' more => ?_⟩
  · rw [List.append_assoc, List.singleton_append, whole']
  · cases last.symm.trans last'
    refine (taken.body _ ((ofRecords_data _ _ _).mpr ⟨unnamed, ?_, rfl⟩)).2
    rw [← List.length_pos_iff, List.length_drop]
    omega

theorem taken_of_ownFields {slice rest metastr : Bytes} {bufferLen : Nat} (free : boxMsgSeperator ∉ slice)
    (positive : 0 < toInt slice.length) (own : OwnFields slice rest bufferLen metastr) :
    ∃ item, splitMsg (slice ++ boxMsgSeperator :: rest) = .ok ([item], 1) ∧ TakenFrom slice bufferLen item := by
  obtain ⟨after, fields⟩ := own.fields
  rw [List.append_assoc, List.singleton_append] at fields
  have whole : slice ++ boxMsgSeperator :: rest =
      metastr ++ boxFieldSeperator :: (after ++ (slice.drop bufferLen ++ boxMsgSeperator :: rest)) := by
    rw [← List.cons_append, ← List.append_assoc, fields, ← List.append_assoc, List.take_append_drop]
  obtain ⟨lastField, last⟩ := strrchr_of_mem (c := boxFieldSeperator)
    (s := slice ++ boxMsgSeperator :: rest) (by simp [whole])
  refine ⟨_, (splitMsg_slice_iff free positive own.first whole last).mpr ⟨own.few, own.storable, rfl, rfl⟩,
    fun rest' enough => ?_, fun data here => ?_⟩
  · rw [← fields, List.append_assoc, List.cons_append] at enough ⊢
    obtain ⟨lastField', last'⟩ := strrchr_of_mem (c := boxFieldSeperator)
      (s := metastr ++ boxFieldSeperator :: (after ++ rest')) (by simp)
    have within := Int.le_trans (toInt_length_le slice) (Int.ofNat_le.mpr enough)
    exact ⟨_, (_splitMsg_iff own.first last' positive within).mpr ⟨own.few, own.storable, rfl⟩,
      ofRecords_headers _ _ _⟩
  · obtain ⟨unnamed, more, rfl⟩ := (ofRecords_data _ _ _).mp here
    rw [← List.length_pos_iff, List.length_drop] at more
    exact ⟨List.drop_suffix _ _, own.inline unnamed lastField last (by omega)⟩

/-- The parser stays inside a slice exactly if there is a message separator, and
the message before it has no positive length as an `int` or has its own fields. -/
theorem splitsInside_iff (buffer : Bytes) (bufferLen : Nat) :
    SplitsInside buffer bufferLen ↔ ∃ slice rest, boxMsgSeperator ∉ slice ∧
      buffer = slice ++ boxMsgSeperator :: rest ∧
        (toInt slice.length ≤ 0 ∨ ∃ metastr, OwnFields slice rest bufferLen metastr) := by
  constructor
  · rintro ⟨items, parsed, each⟩
    obtain ⟨slice, rest, free, rfl⟩ := slice_of_parsed parsed
    refine ⟨slice, rest, free, rfl, ?_⟩
    by_cases nothing : toInt slice.length ≤ 0
    · exact .inl nothing
    · refine .inr (ownFields_of_taken free (Int.not_le.mp nothing) parsed fun item mem => ?_)
      obtain ⟨slice', rest', free', same, taken⟩ := each item mem
      rwa [slice_unique free free' same]
  · rintro ⟨slice, rest, free, rfl, own⟩
    by_cases nothing : toInt slice.length ≤ 0
    · exact ⟨[], splitMsg_nothing rest free nothing, nofun⟩
    · obtain ⟨metastr, own⟩ := own.resolve_left nothing
      obtain ⟨item, parsed, taken⟩ := taken_of_ownFields free (Int.not_le.mp nothing) own
      refine ⟨[item], parsed, fun other mem => ?_⟩
      rw [List.mem_singleton.mp mem]
      exact ⟨slice, rest, free, rfl, taken⟩

/-- One record and an empty body. -/
theorem splitsInside_record : SplitsInside (ascii "a\t1\x02\x03") 5 := by
  refine (splitsInside_iff _ _).mpr ⟨ascii "a\t1\x02", [], by decide, by decide, .inr ⟨ascii "a\t1", ?_⟩⟩
  refine ⟨by decide, by decide, by decide +kernel, ?_, fun _ _ _ _ => by decide +kernel⟩
  unfold Storable
  decide +kernel

/-- Headers that have no end in their slice are taken from behind it, or from nowhere. -/
theorem not_splitsInside_of_notMem (slice rest : Bytes) (bufferLen : Nat)
    (free : boxMsgSeperator ∉ slice) (positive : 0 < toInt slice.length) (absent : boxFieldSeperator ∉ slice) :
    ¬ SplitsInside (slice ++ boxMsgSeperator :: rest) bufferLen := by
  rintro ⟨items, parsed, each⟩
  obtain ⟨metastr, own⟩ := ownFields_of_taken free positive parsed fun item mem => by
    obtain ⟨slice', rest', free', same, taken⟩ := each item mem
    rwa [slice_unique free free' same]
  exact absent (List.mem_of_mem_take (own.fields.subset (by simp)))

/-- The message for an id with a message separator in it: the field separator is
found behind the slice, and the headers go on past its end. -/
theorem not_splitsInside_id : ∃ info,
    strfileid2StorageFileObject [(ascii "M00", ascii "/d/data")] (ascii "g/M00/00/00/x\x03") = some info ∧
      ¬ SplitsInside (originMsg info) (originMsg info).length := by
  refine ⟨⟨ascii "g/M00/00/00/x\x03", ascii "/d/data/00/00/x\x03", ascii "g", ascii "M00", ascii "/d/data",
    ascii "00/00"⟩, by decide +kernel, ?_⟩
  exact not_splitsInside_of_notMem (ascii "overwrite_flag\t1\x01c1\tv1\x01d2\tv2\x01fileid\tg/M00/00/00/x")
    _ _ (by decide) (by decide +kernel) (by decide)

/-- `SplitMsg` parses the records of this text. -/
def Parses (buffer metastr : Bytes) : Prop :=
  (∃ slice rest, boxMsgSeperator ∉ slice ∧ 0 < toInt slice.length ∧ buffer = slice ++ boxMsgSeperator :: rest) ∧
    ∃ whole after, boxFieldSeperator ∉ whole ∧ buffer = whole ++ boxFieldSeperator :: after ∧
      metastr = narrowed whole

/-- No item is written behind the array and no field is read past its end: each
stored field has its NUL, so that the headers can be mapped. -/
structure HeadersStored (buffer : Bytes) : Prop where
  room : splitMsg buffer ≠ .error .headerOverrun
  read : splitMsg buffer ≠ .error .fieldOverread
  stored : ∀ items count, splitMsg buffer = .ok (items, count) → ∀ item ∈ items,
    item.hdPtr.length ≤ maxItemsCount ∧ (∀ it ∈ item.hdPtr, 0 ∈ it.keyV ∧ 0 ∈ it.valueV) ∧
      ∃ headers, mappingHeaders item.hdPtr = .ok headers

theorem zero_mem_strncpy (s : Bytes) (size : Nat) : 0 ∈ strncpy s size ↔ (cStr s).length < size := by
  have same := fieldText_strncpy s size
  unfold fieldText at same
  split at same
  all_goals split at same
  all_goals simp_all

theorem fieldText_error {field : Bytes} (missing : fieldText field = .error fault) : fault = .fieldOverread := by
  unfold fieldText at missing
  split at missing
  all_goals cases missing
  rfl

theorem setHeader_error {header : Header} {it : HeaderItem} (full : header.setHeader it = .error fault) :
    fault = .headerOverrun := by
  unfold Header.setHeader at full
  split at full
  · split at full
    all_goals cases full
    rfl
  · cases full

theorem addHeader_ne_nullSearch (msg : MessageItem) (it : HeaderItem) : msg.addHeader it ≠ .error .nullSearch := by
  unfold MessageItem.addHeader
  cases set : msg.hdPtr.setHeader it with
  | error fault =>
    cases setHeader_error set
    nofun
  | ok header =>
    cases key : fieldText it.keyV with
    | error fault =>
      cases fieldText_error key
      nofun
    | ok text =>
      simp only [bind, Except.bind, pure, Except.pure]
      split
      next =>
        cases value : fieldText it.valueV with
        | error fault =>
          cases fieldText_error value
          nofun
        | ok text => nofun
      next => nofun

theorem addHeaders_ne_nullSearch (items : List HeaderItem) (msg : MessageItem) :
    items.foldlM MessageItem.addHeader msg ≠ .error .nullSearch := by
  induction items generalizing msg with
  | nil => nofun
  | cons it rest ih =>
    rw [List.foldlM_cons]
    cases added : msg.addHeader it with
    | ok next => exact ih next
    | error fault =>
      intro same
      cases same
      exact addHeader_ne_nullSearch msg it added

/-- With both separators the parser returns, or the storage was not enough. -/
theorem splitMsg_of_parses {buffer metastr : Bytes} (parses : Parses buffer metastr) :
    splitMsg buffer ≠ .error .nullSearch ∧ ∃ body, ∀ items count, splitMsg buffer = .ok (items, count) ↔
      (records metastr).length ≤ maxItemsCount ∧ (∀ record ∈ records metastr, Storable record) ∧
        items = [.ofRecords (records metastr) body] ∧ count = 1 := by
  obtain ⟨⟨slice, rest, free, positive, rfl⟩, text, after, first, whole, rfl⟩ := parses
  obtain ⟨lastField, last⟩ := strrchr_of_mem (c := boxFieldSeperator)
    (s := slice ++ boxMsgSeperator :: rest) (by simp [whole])
  refine ⟨?_, _, fun items count => splitMsg_slice_iff free positive first whole last⟩
  have within := toInt_length_le_whole whole
  rw [splitMsg_slice rest free]
  rw [whole] at last ⊢
  rw [_splitMsg_eq first last positive within]
  have enough := addHeaders_ne_nullSearch ((records (narrowed text)).map HeaderItem.ofRecord) {}
  cases added : ((records (narrowed text)).map HeaderItem.ofRecord).foldlM MessageItem.addHeader {} with
  | ok msg => nofun
  | error fault =>
    intro same
    cases same
    exact enough added

theorem splitMsg_of_not_parses {buffer : Bytes} (never : ∀ metastr, ¬ Parses buffer metastr) :
    splitMsg buffer = .error .nullSearch ∨ splitMsg buffer = .ok ([], 0) := by
  by_cases more : boxMsgSeperator ∈ buffer
  · obtain ⟨slice, rest, whole, free⟩ := List.eq_append_cons_of_mem more
    by_cases nothing : toInt slice.length ≤ 0
    · rw [whole]
      exact .inr (splitMsg_nothing rest free nothing)
    · have positive := Int.not_le.mp nothing
      have absent : boxFieldSeperator ∉ buffer := by
        intro field
        obtain ⟨text, after, whole', first⟩ := List.eq_append_cons_of_mem field
        exact never _ ⟨⟨slice, rest, free, positive, whole⟩, text, after, first, whole', rfl⟩
      rw [whole] at absent ⊢
      rw [splitMsg_slice rest free, _splitMsg_notMem positive absent]
      exact .inl rfl
  · rw [splitMsg_eq, strchr_none more]
    exact .inl rfl

/-- The storage of the header is enough exactly for 512 records whose keys and
values leave room for a NUL. -/
theorem headersStored_iff (buffer : Bytes) :
    HeadersStored buffer ↔ ∀ metastr, Parses buffer metastr → (records metastr).length ≤ maxItemsCount ∧
      ∀ record ∈ records metastr, (cStr record.1).length < bufferKkSize ∧
        (cStr record.2).length < bufferKvSize := by
  constructor
  · rintro ⟨room, read, stored⟩ metastr parses
    obtain ⟨found, body, parse⟩ := splitMsg_of_parses parses
    cases parsed : splitMsg buffer with
    | error fault =>
      cases fault with
      | nullSearch => exact absurd parsed found
      | headerOverrun => exact absurd parsed room
      | fieldOverread => exact absurd parsed read
    | ok result =>
      obtain ⟨few, -, same, -⟩ := (parse _ _).mp parsed
      obtain ⟨-, -, headers, mapped⟩ := stored _ _ parsed (.ofRecords (records metastr) body) (by simp [same])
      rw [ofRecords_hdPtr] at mapped
      exact ⟨few, ((mappingHeaders_iff _ _).mp mapped).1⟩
  · intro enough
    by_cases parses : ∃ metastr, Parses buffer metastr
    · obtain ⟨metastr, parses⟩ := parses
      obtain ⟨few, short⟩ := enough metastr parses
      obtain ⟨-, body, parse⟩ := splitMsg_of_parses parses
      have parsed := (parse _ _).mpr ⟨few, fun record mem => ⟨(short record mem).1, fun _ => (short record mem).2⟩,
        rfl, rfl⟩
      refine ⟨by rw [parsed]; nofun, by rw [parsed]; nofun, fun items count same item mem => ?_⟩
      cases parsed.symm.trans same
      cases List.mem_singleton.mp mem
      rw [ofRecords_hdPtr]
      refine ⟨by rw [List.length_map]; exact few, fun it inside => ?_, _, (mappingHeaders_iff _ _).mpr ⟨short, rfl⟩⟩
      obtain ⟨record, here, rfl⟩ := List.mem_map.mp inside
      exact ⟨(zero_mem_strncpy _ _).mpr (short record here).1, (zero_mem_strncpy _ _).mpr (short record here).2⟩
    · rw [not_exists] at parses
      obtain wrong | empty := splitMsg_of_not_parses parses
      · exact ⟨by rw [wrong]; nofun, by rw [wrong]; nofun, fun _ _ same => by rw [wrong] at same; cases same⟩
      · refine ⟨by rw [empty]; nofun, by rw [empty]; nofun, fun items count same => ?_⟩
        cases empty.symm.trans same
        nofun

/-- An id of 1032 bytes, whose path does not fit into a value with its NUL. -/
theorem not_headersStored_long : ∃ info, (ascii "g/M00/00/00/" ++ List.replicate 1020 120).length ≤ 4095 ∧
    strfileid2StorageFileObject [(ascii "M00", ascii "/d/data")]
      (ascii "g/M00/00/00/" ++ List.replicate 1020 120) = some info ∧ ¬ HeadersStored (originMsg info) := by
  refine ⟨⟨ascii "g/M00/00/00/" ++ List.replicate 1020 120, ascii "/d/data/00/00/" ++ List.replicate 1020 120,
    ascii "g", ascii "M00", ascii "/d/data", ascii "00/00"⟩, by decide +kernel, by decide +kernel, fun stored => ?_⟩
  apply stored.read
  rw [splitMsg_eq]
  decide +kernel

end Fdfs2qq.Jobschedule
