import Fdfs2qq.Jobschedule.ConsumerCli
import Fdfs2qq.Box.Framing
import Fdfs2qq.Box.StorageProofs

/-! The message that is built for a file id, and what it means to the parser. -/
namespace Fdfs2qq.Jobschedule
open Box

/-- The parser finds one item, and its headers are exactly what was put in. -/
def Means (volumnsDict : Dict) (infostr : Bytes) (info : StorageFileObject) : Prop :=
  ∃ item headers, consumerMsg volumnsDict infostr = .ok (some ([item], 1)) ∧
    mappingHeaders item.hdPtr = .ok headers ∧
      ∀ key, headers.find key = (messageRecords info).lookup key

def Plain (s : Bytes) : Prop :=
  boxKvSeperator ∉ s ∧ boxRecordSeperator ∉ s ∧ boxFieldSeperator ∉ s

instance (s : Bytes) : Decidable (Plain s) := inferInstanceAs (Decidable (_ ∧ _ ∧ _))

/-- The map of stored records: every field is read, and the first of a key stays. -/
theorem mappingHeaders_iff (records : List (Bytes × Bytes)) (headers : Dict) :
    mappingHeaders (records.map HeaderItem.ofRecord) = .ok headers ↔
      (∀ record ∈ records, (cStr record.1).length < bufferKkSize ∧
        (cStr record.2).length < bufferKvSize) ∧
      headers = Dict.inserts [] (records.map fun record => (cStr record.1, cStr record.2)) := by
  unfold mappingHeaders
  generalize ([] : Dict) = d
  induction records generalizing d with
  | nil => simp [pure, Except.pure, Dict.inserts, eq_comm]
  | cons record rest ih =>
    have key := fieldText_strncpy record.1 bufferKkSize
    have value := fieldText_strncpy record.2 bufferKvSize
    simp only [List.map_cons, List.foldlM_cons, List.forall_mem_cons, Dict.inserts,
      List.foldl_cons] at ih ⊢
    by_cases short : (cStr record.1).length < bufferKkSize
    · by_cases short' : (cStr record.2).length < bufferKvSize
      · rw [if_pos short] at key
        rw [if_pos short'] at value
        simp only [HeaderItem.ofRecord, key, value, bind, Except.bind, pure, Except.pure] at ih ⊢
        rw [ih]
        simp only [short, short', and_self, true_and]
      · rw [if_pos short] at key
        rw [if_neg short'] at value
        simp [HeaderItem.ofRecord, key, value, bind, Except.bind, short']
    · rw [if_neg short] at key
      simp [HeaderItem.ofRecord, key, bind, Except.bind, short]

/-- Every value in the map is the text of a stored record. -/
theorem find_mappingHeaders {records : List (Bytes × Bytes)} {headers : Dict} {key v : Bytes}
    (mapped : mappingHeaders (records.map HeaderItem.ofRecord) = .ok headers)
    (found : headers.find key = some v) :
    ∃ record ∈ records, v = cStr record.2 ∧ v.length < bufferKvSize := by
  obtain ⟨short, rfl⟩ := (mappingHeaders_iff _ _).mp mapped
  rw [Dict.find_inserts, Dict.find, List.lookup_nil, Option.none_or, List.lookup_eq_some_iff] at found
  obtain ⟨before, after, same, -⟩ := found
  have mem : (key, v) ∈ records.map fun record => (cStr record.1, cStr record.2) := by simp [same]
  obtain ⟨record, inside, same⟩ := List.mem_map.mp mem
  cases same
  exact ⟨record, inside, rfl, (short record inside).2⟩

/-- The item that `SplitMsg` returns has the records before a field separator. -/
theorem records_of_splitMsg {buffer : Bytes} {item : MessageItem} {n : Nat}
    (parsed : splitMsg buffer = .ok ([item], n)) :
    ∃ metastr, boxFieldSeperator ∉ metastr ∧
      item.hdPtr = (records metastr).map HeaderItem.ofRecord := by
  obtain ⟨slice, rest, free, rfl⟩ := slice_of_parsed parsed
  have positive := positive_of_parsed free parsed
  have field := field_mem_of_parsed free positive parsed
  obtain ⟨metastr, after, whole, first⟩ := List.eq_append_cons_of_mem field
  obtain ⟨lastField, last⟩ := strrchr_of_mem field
  obtain ⟨-, -, same, -⟩ := (splitMsg_slice_iff free positive first whole last).mp parsed
  refine ⟨narrowed metastr, fun field => first ((narrowed_front _).subset field), ?_⟩
  rw [(List.cons.inj same).1, ofRecords_hdPtr]

/-- A piece of a record has no separator in it. -/
theorem plain_of_mem_records {metastr : Bytes} {record : Bytes × Bytes}
    (free : boxFieldSeperator ∉ metastr) (mem : record ∈ records metastr) : Plain record.2 := by
  obtain ⟨item, inside, pieces⟩ := List.mem_filterMap.mp mem
  split at pieces
  next key value split =>
    cases pieces
    have piece : value ∈ Lib.getlines boxKvSeperator item := by simp [split]
    refine ⟨Lib.notMem_of_mem_getlines piece, fun separator => ?_, fun separator => ?_⟩
    · exact Lib.notMem_of_mem_getlines inside (Lib.mem_of_mem_getlines piece separator)
    · exact free (Lib.mem_of_mem_getlines inside (Lib.mem_of_mem_getlines piece separator))
  next => cases pieces

/-- The parser reads back what was written. -/
structure Clean (record : Bytes × Bytes) : Prop where
  key : Plain record.1 ∧ 0 ∉ record.1
  value : Plain record.2 ∧ 0 ∉ record.2
  filled : record.2 ≠ []
  short : record.1.length < bufferKkSize
  short' : record.2.length < bufferKvSize

def recordsText (rs : List (Bytes × Bytes)) : Bytes :=
  implode boxRecordSeperator (rs.map fun (key, value) => key ++ boxKvSeperator :: value)

theorem records_recordsText {rs : List (Bytes × Bytes)} (clean : ∀ record ∈ rs, Clean record) :
    records (recordsText rs) = rs := by
  have pieces : Lib.getlines boxRecordSeperator (recordsText rs) =
      rs.map fun (key, value) => key ++ boxKvSeperator :: value := by
    apply getlines_implode
    intro piece mem
    obtain ⟨record, inside, rfl⟩ := List.mem_map.mp mem
    obtain ⟨key, value, -⟩ := clean record inside
    simp only [List.mem_append, List.mem_cons, not_or]
    exact ⟨⟨key.1.2.1, by decide, value.1.2.1⟩, by simp⟩
  rw [records, pieces, List.filterMap_map]
  refine (List.filterMap_congr fun record mem => ?_).trans List.filterMap_some
  obtain ⟨key, value, filled, -⟩ := clean record mem
  simp only [Function.comp, Lib.getlines_append key.1.1, Lib.getlines_last value.1.1 filled]

/-- Neither the end of the records nor a NUL is in their text. -/
theorem notMem_recordsText {rs : List (Bytes × Bytes)} (clean : ∀ record ∈ rs, Clean record) :
    boxFieldSeperator ∉ recordsText rs ∧ 0 ∉ recordsText rs := by
  constructor
  all_goals
    apply notMem_implode (by decide)
    intro piece mem
    obtain ⟨record, inside, rfl⟩ := List.mem_map.mp mem
    obtain ⟨key, value, -⟩ := clean record inside
    simp only [List.mem_append, List.mem_cons, not_or]
  · exact ⟨key.1.2.2, by decide, value.1.2.2⟩
  · exact ⟨key.2, by decide, value.2⟩

theorem length_recordsText_le {rs : List (Bytes × Bytes)} (clean : ∀ record ∈ rs, Clean record) :
    (recordsText rs).length ≤ rs.length * (bufferKkSize + bufferKvSize) := by
  have each : ∀ piece ∈ rs.map fun (key, value) => key ++ boxKvSeperator :: value,
      piece.length < bufferKkSize + bufferKvSize := by
    intro piece mem
    obtain ⟨record, inside, rfl⟩ := List.mem_map.mp mem
    obtain ⟨-, -, -, short, short'⟩ := clean record inside
    rw [List.length_append, List.length_cons]
    omega
  exact (length_implode_le each).trans_eq (by rw [List.length_map])

theorem texts_of_clean {rs : List (Bytes × Bytes)} (clean : ∀ record ∈ rs, Clean record) :
    rs.map (fun record => (cStr record.1, cStr record.2)) = rs := by
  refine (List.map_congr_left fun record mem => ?_).trans (List.map_id _)
  obtain ⟨key, value, -⟩ := clean record mem
  rw [cStr_of_notMem key.2, cStr_of_notMem value.2]
  rfl

theorem lengths_of_clean {rs : List (Bytes × Bytes)} (clean : ∀ record ∈ rs, Clean record) :
    ∀ record ∈ rs, (cStr record.1).length < bufferKkSize ∧ (cStr record.2).length < bufferKvSize := by
  intro record mem
  obtain ⟨key, value, -, short, short'⟩ := clean record mem
  rw [cStr_of_notMem key.2, cStr_of_notMem value.2]
  exact ⟨short, short'⟩

theorem storable_of_clean {rs : List (Bytes × Bytes)} (clean : ∀ record ∈ rs, Clean record) :
    ∀ record ∈ rs, Storable record := by
  intro record mem
  obtain ⟨short, short'⟩ := lengths_of_clean clean record mem
  exact ⟨short, fun _ => short'⟩

/-- Clean records are mapped, and the first record of a key stays. -/
theorem mapped_of_clean {rs : List (Bytes × Bytes)} (clean : ∀ record ∈ rs, Clean record) :
    ∃ headers, mappingHeaders (rs.map HeaderItem.ofRecord) = .ok headers ∧
      ∀ key, headers.find key = rs.lookup key := by
  refine ⟨_, (mappingHeaders_iff rs _).mpr ⟨lengths_of_clean clean, rfl⟩, fun key => ?_⟩
  rw [texts_of_clean clean, Dict.find_inserts, Dict.find, List.lookup_nil, Option.none_or]

/-- A text of records that name a file, with an empty body, gives one item, also
where a separator of messages is inside. -/
theorem splitMsg_recordsText {rs : List (Bytes × Bytes)} (clean : ∀ record ∈ rs, Clean record)
    (few : rs.length ≤ maxItemsCount) (named : (({} : Body).withRecords rs).isFilehandle)
    (starts : (recordsText rs)[0]? = some c) (other : c ≠ boxMsgSeperator) :
    splitMsg (recordsText rs ++ [boxFieldSeperator, boxMsgSeperator]) =
      .ok ([⟨rs.map HeaderItem.ofRecord, ({} : Body).withRecords rs⟩], 1) := by
  obtain ⟨free, -⟩ := notMem_recordsText clean
  have last : strrchr (recordsText rs ++ [boxFieldSeperator, boxMsgSeperator]) boxFieldSeperator =
      some (recordsText rs).length := strrchr_append (by decide)
  obtain ⟨slice, rest, whole, away⟩ := List.eq_append_cons_of_mem
    (show boxMsgSeperator ∈ recordsText rs ++ [boxFieldSeperator, boxMsgSeperator] by simp)
  have filled : slice ≠ [] := by
    rintro rfl
    have here := congrArg (fun text => text[0]?) whole
    simp only [List.nil_append, List.getElem?_cons_zero] at here
    rw [List.getElem?_append_left (List.getElem?_eq_some_iff.mp starts).1, starts] at here
    exact other (Option.some.inj here)
  -- at most 512 records: the lengths are far below the bound of an `int`
  have length := length_recordsText_le clean
  have enough : rs.length * (bufferKkSize + bufferKvSize) ≤ maxItemsCount * (bufferKkSize + bufferKvSize) :=
    Nat.mul_le_mul_right _ few
  simp only [maxItemsCount, bufferKkSize, bufferKvSize] at length enough
  have lengths := congrArg List.length whole
  simp only [List.length_append, List.length_cons, List.length_nil] at lengths
  have positive := toInt_pos (Int.ofNat_lt.mpr (List.length_pos_iff.mpr filled)) (by omega)
  have records_ := records_recordsText clean
  rw [← narrowed_of_lt (s := recordsText rs) (by omega)] at records_
  rw [whole] at last ⊢
  refine (splitMsg_slice_iff away positive free whole.symm last).mpr
    ⟨records_.symm ▸ few, records_.symm ▸ storable_of_clean clean, ?_, rfl⟩
  rw [records_, MessageItem.ofRecords, MessageItem.withBody, if_neg fun unnamed => unnamed.1 named]

theorem messageRecords_clean (info : StorageFileObject) (id : Plain info.globalFileid ∧ 0 ∉ info.globalFileid)
    (idFilled : info.globalFileid ≠ []) (idShort : info.globalFileid.length < bufferKvSize)
    (path : Plain info.physicalStorePath ∧ 0 ∉ info.physicalStorePath)
    (pathFilled : info.physicalStorePath ≠ [])
    (pathShort : info.physicalStorePath.length + 4 < bufferKvSize) :
    ∀ record ∈ messageRecords info, Clean record := by
  have key {text : Bytes} {value : Bytes} (tidy : Plain text ∧ 0 ∉ text) (short : text.length < bufferKkSize)
      (tidy' : Plain value ∧ 0 ∉ value) (filled : value ≠ []) (short' : value.length < bufferKvSize) :
      Clean (text, value) := ⟨tidy, tidy', filled, short, short'⟩
  have suffix : Plain (ascii "-m") ∧ 0 ∉ ascii "-m" := by decide
  intro record mem
  simp only [messageRecords, List.mem_cons, List.not_mem_nil, or_false] at mem
  obtain rfl | rfl | rfl | rfl | rfl | rfl := mem
  · exact key (by decide) (by decide) (by decide) (by decide) (by decide)
  · exact key (by decide) (by decide) (by decide) (by decide) (by decide)
  · exact key (by decide) (by decide) (by decide) (by decide) (by decide)
  · exact key (by decide) (by decide) id idFilled idShort
  · exact key (by decide) (by decide) path pathFilled (Nat.lt_of_le_of_lt (Nat.le_add_right _ 4) pathShort)
  · refine key (by decide) (by decide) ?_ (by simp [pathFilled]) ?_
    · simp only [Plain, List.mem_append, not_or] at path suffix ⊢
      simp only [path, suffix, not_false_eq_true, and_self]
    · rw [List.length_append, List.length_append]
      exact pathShort

theorem globalFileid_of_accepted (accepted : strfileid2StorageFileObject volumnsDict infostr = some info) :
    info.globalFileid = infostr ∧ infostr ≠ [] := by
  unfold strfileid2StorageFileObject at accepted
  split at accepted
  next split =>
    cases accepted
    refine ⟨rfl, ?_⟩
    rintro rfl
    cases split
  next => cases accepted

/-- What comes back as a value has no separator and no NUL, and is short. -/
theorem Means.value (means : Means volumnsDict infostr info) (key v : Bytes)
    (here : (messageRecords info).lookup key = some v) :
    Plain v ∧ 0 ∉ v ∧ v.length < bufferKvSize := by
  obtain ⟨item, headers, parsed, mapped, found⟩ := means
  obtain ⟨buffer, split⟩ : ∃ buffer, splitMsg buffer = .ok ([item], 1) := by
    unfold consumerMsg at parsed
    split at parsed
    · cases parsed
    · split at parsed
      · cases parsed
      · obtain ⟨items, split, same⟩ := map_eq_ok.mp parsed
        cases same
        exact ⟨_, split⟩
  obtain ⟨metastr, free, stored⟩ := records_of_splitMsg split
  rw [stored] at mapped
  obtain ⟨record, mem, rfl, short⟩ := find_mappingHeaders mapped ((found key).trans here)
  obtain ⟨kv, records, fields⟩ := plain_of_mem_records free mem
  have within {c : UInt8} (away : c ∉ record.2) : c ∉ cStr record.2 := fun mem =>
    away ((List.takeWhile_sublist _).mem mem)
  exact ⟨⟨within kv, within records, within fields⟩, zero_notMem_cStr _, short⟩

/-- The message for an accepted id means what was put into it exactly if the id
and the path have no separator and no NUL, and fit into a field. -/
theorem means_iff (volumnsDict : Dict) (infostr : Bytes) (info : StorageFileObject) (free : 0 ∉ infostr)
    (accepted : strfileid2StorageFileObject volumnsDict infostr = some info)
    (filled : info.physicalStorePath ≠ []) :
    Means volumnsDict infostr info ↔
      (Plain infostr ∧ infostr.length ≤ 1023) ∧ Plain info.physicalStorePath ∧
        0 ∉ info.physicalStorePath ∧ info.physicalStorePath.length ≤ 1019 := by
  obtain ⟨id, idFilled⟩ := globalFileid_of_accepted accepted
  constructor
  · intro means
    obtain ⟨idPlain, -, idShort⟩ := means.value (ascii "fileid") info.globalFileid (by rfl)
    obtain ⟨pathPlain, pathFree, -⟩ :=
      means.value (ascii "filehandle") info.physicalStorePath (by rfl)
    obtain ⟨-, -, metaShort⟩ := means.value (ascii "file_meta")
      (info.physicalStorePath ++ ascii "-m" ++ ascii "-m") (by rfl)
    rw [id] at idPlain idShort
    refine ⟨⟨idPlain, Nat.le_of_lt_succ idShort⟩, pathPlain, pathFree, ?_⟩
    simp [bufferKvSize, ascii] at metaShort
    omega
  · rintro ⟨⟨idPlain, idShort⟩, pathPlain, pathFree, pathShort⟩
    have clean := messageRecords_clean info (id.symm ▸ ⟨idPlain, free⟩) (id.symm ▸ idFilled)
      (id.symm ▸ Nat.lt_succ_of_le idShort) ⟨pathPlain, pathFree⟩ filled
      (Nat.lt_succ_of_le (Nat.add_le_add_right pathShort 4))
    have text : originMsg info =
        recordsText (messageRecords info) ++ [boxFieldSeperator, boxMsgSeperator] := rfl
    have few : (messageRecords info).length ≤ maxItemsCount := by simp [messageRecords, maxItemsCount]
    have parsed := splitMsg_recordsText clean few (by rfl) (c := 111) (by rfl) (by decide)
    have nul : 0 ∉ originMsg info := by
      rw [text, List.mem_append, not_or]
      exact ⟨(notMem_recordsText clean).2, by decide⟩
    rw [← text] at parsed
    have whole : consumerMsg volumnsDict infostr = .ok (some
        ([⟨(messageRecords info).map HeaderItem.ofRecord, ({} : Body).withRecords (messageRecords info)⟩], 1)) := by
      simp only [consumerMsg, accepted, filled, if_false, cStr_of_notMem nul, parsed]
      rfl
    obtain ⟨headers, mapped, found⟩ := mapped_of_clean clean
    exact ⟨_, headers, whole, mapped, found⟩

/-- An id of the volume `M00` at `/d/data`. -/
theorem means_sample : Means [(ascii "M00", ascii "/d/data")] (ascii "g/M00/00/00/x")
    ⟨ascii "g/M00/00/00/x", ascii "/d/data/00/00/x", ascii "g", ascii "M00", ascii "/d/data",
      ascii "00/00"⟩ := by
  apply (means_iff _ _ _ (by decide) (by decide +kernel) (by decide)).mpr
  decide

/-- A TAB in the id: its record falls apart, and the header is missing. -/
theorem not_means_tab : ∃ info,
    strfileid2StorageFileObject [(ascii "M00", ascii "/d/data")] (ascii "g/M00/00/00/x\ty") = some info ∧
      info.physicalStorePath ≠ [] ∧
        ¬ Means [(ascii "M00", ascii "/d/data")] (ascii "g/M00/00/00/x\ty") info := by
  refine ⟨⟨ascii "g/M00/00/00/x\ty", ascii "/d/data/00/00/x\ty", ascii "g", ascii "M00", ascii "/d/data",
    ascii "00/00"⟩, by decide +kernel, by decide, fun means => ?_⟩
  have here := means.value (ascii "fileid") (ascii "g/M00/00/00/x\ty") (by rfl)
  exact absurd here.1 (by decide)

end Fdfs2qq.Jobschedule
