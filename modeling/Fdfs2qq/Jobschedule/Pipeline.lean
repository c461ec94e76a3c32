import Fdfs2qq.Box.Routes
import Fdfs2qq.Jobschedule.Meaning
import Fdfs2qq.Jobschedule.Reading
import Fdfs2qq.Jobschedule.Response
import Fdfs2qq.Writer.TencentStorageServiceWriter

/-! The way of a file: it is found in a store folder, registered under its id, queued,
handed to the consumer and uploaded. The bytes that are uploaded under the id are those
of the file that was found. -/
namespace Fdfs2qq.Jobschedule
open Box Writer

def backslash : UInt8 := 92

/-- What follows the last `/` or `\`, nothing where there is none. -/
def lastName (fullpath : Bytes) : Option Bytes :=
  if slash ∈ fullpath ∨ backslash ∈ fullpath then
    some (fullpath.reverse.takeWhile fun c => c ≠ slash ∧ c ≠ backslash).reverse
  else none

def getFilelistByPath (glob : Bytes → List Bytes) (dirPath : Bytes) : List Bytes :=
  (glob dirPath).filterMap lastName

def picExtList : List Bytes := ["jpg", "jpeg", "bmp", "png", "gif"].map ascii

def getfileListOfStoragepath (glob : Bytes → List Bytes) (storagepath : Bytes) : List Bytes :=
  picExtList.flatMap fun item => getFilelistByPath glob (storagepath ++ ascii "/*." ++ item)

theorem lastName_append {name : Bytes} (folder : Bytes) (free : slash ∉ name) (free' : backslash ∉ name) :
    lastName (folder ++ slash :: name) = some name := by
  have stays : ∀ c ∈ name.reverse, decide (c ≠ slash ∧ c ≠ backslash) = true := fun c mem => by
    rw [List.mem_reverse] at mem
    exact decide_eq_true ⟨ne_of_mem_of_not_mem mem free, ne_of_mem_of_not_mem mem free'⟩
  rw [lastName, if_pos (.inl (by simp)), List.reverse_append, List.reverse_cons, List.append_assoc,
    List.takeWhile_append_of_pos stays, List.singleton_append, List.takeWhile_cons_of_neg (by simp),
    List.append_nil, List.reverse_reverse]

/-- `_ConsumerMsg` up to the send: the request, if there is one. -/
def consumerRequest (volumnsDict : Dict) (codec : SdkCodec) (files : Files) (infostr : Bytes) :
    Except WriterFault (Option Bytes) := do
  let some (retS, _) ← (consumerMsg volumnsDict infostr).mapError .message | return none
  let item :: _ := retS | return none
  let wr ← TencentStorageServiceWriter.messageHeaderFormat item {}
  let wr ← TencentStorageServiceWriter.messageBodyFormat codec files item.bdPtr wr
  return if wr.msgbodyStr ≠ [] then some wr.msgbodyStr else none

/-- The bytes of a file, none where there is no file. -/
def contents (files : Files) (path : Bytes) : Bytes := (files path).getD []

theorem streamRead_nil {path : Bytes} (files : Files) (free : 0 ∉ path) :
    streamRead files path [] = contents files path := by
  rw [streamRead, getfilesize, cStr_of_notMem free, contents]
  cases files path with
  | none => rfl
  | some bytes =>
    cases bytes with
    | nil => rfl
    | cons c rest => rfl

theorem getOptionalMapData_eq (headers : Dict) (key : Bytes) :
    getOptionalMapData headers key = (headers.find key).getD [] := by
  cases headers with
  | nil => rfl
  | cons first rest => rfl

def afterHeaders (info : StorageFileObject) : TencentStorageServiceWriter where
  fileid := info.globalFileid
  filenameMeta := info.physicalStorePath ++ ascii "-m" ++ ascii "-m"
  isOverwriteFlag := some true
  reqid := gethash info.globalFileid

theorem headerFormat_clean {info : StorageFileObject} (clean : ∀ record ∈ messageRecords info, Clean record)
    (w : TencentStorageServiceWriter) :
    w.headerFormat ((messageRecords info).map HeaderItem.ofRecord) =
      .ok { afterHeaders info with
        msgbodyStr := w.msgbodyStr, filename := w.filename, databuffer := w.databuffer } := by
  obtain ⟨headers, mapped, found⟩ := mapped_of_clean clean
  have one : stoi (ascii "1") = some 1 := by decide
  have value (key : Bytes) : getOptionalMapData headers key = ((messageRecords info).lookup key).getD [] := by
    rw [getOptionalMapData_eq, found]
  have fileid : getOptionalMapData headers (ascii "fileid") = info.globalFileid := value _
  have overwrite : getOptionalMapData headers (ascii "overwrite_flag") = ascii "1" := value _
  have fileMeta : getOptionalMapData headers (ascii "file_meta") =
      info.physicalStorePath ++ ascii "-m" ++ ascii "-m" := value _
  have uid : getOptionalMapData headers (ascii "uid") = [] := value _
  have filled : ascii "1" ≠ [] := by decide
  simp only [TencentStorageServiceWriter.headerFormat, mapped, Except.mapError, fileid, overwrite, fileMeta, uid,
    one, filled, if_false, if_true, bind, Except.bind]
  rfl

theorem messageHeaderFormat_clean {info : StorageFileObject} (clean : ∀ record ∈ messageRecords info, Clean record)
    (body : Body) :
    TencentStorageServiceWriter.messageHeaderFormat ⟨(messageRecords info).map HeaderItem.ofRecord, body⟩ {} =
      .ok (afterHeaders info) := by
  have again : ∀ n, (List.range (n + 1)).foldlM (fun (w : TencentStorageServiceWriter) _ =>
      w.headerFormat ((messageRecords info).map HeaderItem.ofRecord)) {} = .ok (afterHeaders info) := by
    intro n
    induction n with
    | zero =>
      rw [List.range_succ, List.range_zero, List.nil_append, List.foldlM_cons, headerFormat_clean clean]
      rfl
    | succ n ih =>
      rw [List.range_succ, List.foldlM_append, ih]
      simp only [List.foldlM_cons, headerFormat_clean clean, bind, Except.bind]
      rfl
  rw [TencentStorageServiceWriter.messageHeaderFormat, List.length_map]
  exact again 5

/-- What is sent for a file, which is nothing where the library leaves the buffer empty. -/
def uploadRequest (codec : SdkCodec) (files : Files) (fileid path : Bytes) : Option Bytes :=
  let (buffer, _) := codec.encodeRawUploadV2Req
    ⟨[], fileid, contents files (path ++ ascii "-m-m"), contents files path⟩ [] (gethash fileid)
  if buffer ≠ [] then some buffer else none

/-- The message of an object is read back, and its file is uploaded. -/
theorem consumerRequest_clean {volumnsDict : Dict} {infostr : Bytes} {info : StorageFileObject}
    (codec : SdkCodec) (files : Files)
    (accepted : strfileid2StorageFileObject volumnsDict infostr = some info)
    (clean : ∀ record ∈ messageRecords info, Clean record) :
    consumerRequest volumnsDict codec files infostr =
      .ok (uploadRequest codec files info.globalFileid info.physicalStorePath) := by
  have path := clean (ascii "filehandle", info.physicalStorePath) (by simp [messageRecords])
  have text : originMsg info =
      recordsText (messageRecords info) ++ [boxFieldSeperator, boxMsgSeperator] := rfl
  have few : (messageRecords info).length ≤ maxItemsCount := by simp [messageRecords, maxItemsCount]
  have parsed := splitMsg_recordsText clean few (by rfl) (c := 111) (by rfl) (by decide)
  have nul : 0 ∉ originMsg info := by
    rw [text, List.mem_append, not_or]
    exact ⟨(notMem_recordsText clean).2, by decide⟩
  have body : ({} : Body).withRecords (messageRecords info) =
      { isFilehandle := true, fileHandle := info.physicalStorePath } := by
    rw [Body.withRecords_eq]
    exact congrArg (fun handle => ({ isFilehandle := true, fileHandle := handle } : Body))
      (cStr_of_notMem path.value.2)
  rw [← text, body] at parsed
  have built : consumerMsg volumnsDict infostr = .ok (some
      ([⟨(messageRecords info).map HeaderItem.ofRecord,
        { isFilehandle := true, fileHandle := info.physicalStorePath }⟩], 1)) := by
    simp only [consumerMsg, accepted, path.filled, if_false, cStr_of_notMem nul, parsed]
    rfl
  have suffix : ascii "-m" ++ ascii "-m" = ascii "-m-m" := by decide
  have metaFree : 0 ∉ info.physicalStorePath ++ ascii "-m-m" := by
    rw [List.mem_append, not_or]
    exact ⟨path.value.2, by decide⟩
  have metaSome : info.physicalStorePath ++ ascii "-m-m" ≠ [] := by simp [path.filled]
  simp only [consumerRequest, built, Except.mapError, bind, Except.bind, messageHeaderFormat_clean clean]
  simp only [TencentStorageServiceWriter.messageBodyFormat, afterHeaders, if_true, List.append_assoc, suffix,
    streamRead_nil files path.value.2, streamRead_nil files metaFree]
  rw [if_pos metaSome]
  rfl

inductive DeliverFault where
  /-- What is logged is no format, or longer than the array it is made in. -/
  | log
  | read (fault : ReadFault)
  | writer (fault : WriterFault)
deriving DecidableEq

/-- A file that was found and its id: the tracker answers that the id is new, with
`memory` behind the header; the producer logs it and queues what it reads, logs that again
before it sends it, the consumer gets it in one event, with `data` in its array, and
builds the request. -/
def deliver (volumnsDict : Dict) (codec : SdkCodec) (files : Files) (storageInfo : StorageVolumnObject)
    (globalid memory data : Bytes) : Except DeliverFault (Option Bytes) := do
  let tmp := globalid.filter (· ≠ newline)
  let some header := stringToResponseObject tmp storageInfo.volumnstr (ascii "200") | return none
  if stssatus header memory ≠ registSucess then return none
  if !Logger.infoText (sendTracker (registRequest storageInfo globalid) header memory) then throw .log
  let fileid := (responseObject2StorageFileObject header memory).globalFileid
  if !Logger.infoText (sendConsume fileid) then throw .log
  let infostr ← (bufferedOnRead data fileid).mapError .read
  (consumerRequest volumnsDict codec files infostr).mapError .writer

/-- An id that fits the header and is read back out of it, out of the message and off
the socket, and that can be logged. -/
structure Sendable (fileid : Bytes) : Prop where
  plain : Plain fileid
  free : 0 ∉ fileid
  line : newline ∉ fileid
  short : fileid.length ≤ 127
  trimmed : trimRight fileid = fileid
  format : isFormat fileid

/-- What the stack has behind a header: nothing that is read as part of the status and
nothing that cannot be logged with it. -/
structure Behind (memory : Bytes) : Prop where
  noDigit : ∀ c ∈ cStr memory, ¬ isDigit c
  format : isFormat (cStr memory)
  short : (cStr memory).length ≤ 855

/-- The answer that an id is new can be logged. -/
theorem sendTracker_logged {info : StorageVolumnObject} {globalid header memory : Bytes} (sendable : Sendable globalid)
    (free : 0 ∉ info.volumnstr) (short : info.volumnstr.length ≤ 1019) (format : isFormat info.volumnstr)
    (status : header.drop 256 = ascii "200") (behind : Behind memory) :
    Logger.infoText (sendTracker (registRequest info globalid) header memory) = true := by
  have line : globalid.filter (· ≠ newline) = globalid :=
    List.filter_eq_self.mpr fun c inside => by simpa using ne_of_mem_of_not_mem inside sendable.line
  have ends : (0 : UInt8) ∉ ascii "200" := by decide
  have one : (0 : UInt8) ∉ ascii "2" := by decide
  have request : cStr (registRequest info globalid) = registRequest info globalid := by
    refine cStr_of_notMem ?_
    simp [registRequest, one, free, sendable.free, boxMsgSeperator, newline]
  have text : sendTracker (registRequest info globalid) header memory =
      (ascii "send tracker fileid:" ++ ascii "2" ++ [boxMsgSeperator]) ++ (info.volumnstr ++ boxMsgSeperator ::
        (globalid ++ newline :: (ascii " ,response status :" ++ ascii "200" ++ cStr memory))) := by
    rw [sendTracker, request, status, cStr_append_of_notMem ends, registRequest, line]
    simp only [List.append_assoc, List.cons_append, List.nil_append]
  have noZero : 0 ∉ sendTracker (registRequest info globalid) header memory := by
    have front : (0 : UInt8) ∉ ascii "send tracker fileid:" ++ ascii "2" ++ [boxMsgSeperator] := by decide
    have back : (0 : UInt8) ∉ ascii " ,response status :" ++ ascii "200" := by decide
    rw [text]
    simp only [List.mem_append, List.mem_cons, not_or] at front back ⊢
    exact ⟨front, free, by decide, sendable.free, by decide, back, zero_notMem_cStr memory⟩
  have length : (sendTracker (registRequest info globalid) header memory).length < lineMax := by
    have front : (ascii "send tracker fileid:" ++ ascii "2" ++ [boxMsgSeperator]).length = 22 := by decide
    have back : (ascii " ,response status :" ++ ascii "200").length = 22 := by decide
    rw [text]
    simp only [List.length_append, List.length_cons, lineMax] at front back ⊢
    have := sendable.short
    have := behind.short
    omega
  rw [Logger.infoText_of_short length noZero, text, isFormat_append (by decide), isFormat_append_cons _ (by decide),
    isFormat_append_cons _ (by decide), isFormat_append (by decide), format, sendable.format, behind.format]
  rfl

theorem sendConsume_logged {fileid : Bytes} (sendable : Sendable fileid) :
    Logger.infoText (sendConsume fileid) = true := by
  have front : (0 : UInt8) ∉ ascii " send consume fileid::" := by decide
  rw [sendConsume, cStr_of_notMem sendable.free, Logger.infoText_of_short, isFormat_append (by decide),
    sendable.format]
  · have length : (ascii " send consume fileid::").length = 22 := by decide
    have := sendable.short
    rw [List.length_append, length, lineMax]
    omega
  · rw [List.mem_append, not_or]
    exact ⟨front, sendable.free⟩

theorem folder_spec {conf : Conf} {fuel : Nat} {table : Dict} {groupId volumnsid : Bytes}
    {objects : List StorageVolumnObject} {ret : StorageVolumnObject} (built : getVolumnsDict conf fuel = some table)
    (listed : getStoreFolderByOrder table groupId volumnsid = some objects) (mem : ret ∈ objects) :
    ∃ first ∈ storeFolders, ∃ second ∈ storeFolders, ∃ n, ret.grpid = groupId ∧
      ret.volumnid = volumnsidText n ∧ ret.subdir = first ++ slash :: second ∧
      table.find ret.volumnid = some ret.volumnstr := by
  unfold getStoreFolderByOrder at listed
  split at listed
  next => cases listed
  next volumnstr found =>
    cases listed
    obtain ⟨first, inFolders, mem⟩ := List.mem_flatMap.mp mem
    obtain ⟨second, inFolders', rfl⟩ := List.mem_map.mp mem
    obtain ⟨n, rfl⟩ := volumnsDictFrom_keys built (by simp [Dict.find]) volumnsid volumnstr found
    exact ⟨first, inFolders, second, inFolders', n, rfl, rfl, rfl, found⟩

theorem strfileid_of_folder {table : Dict} {ret : StorageVolumnObject} {first second name : Bytes} {n : Nat}
    (inFolders : first ∈ storeFolders) (inFolders' : second ∈ storeFolders) (volumn : ret.volumnid = volumnsidText n)
    (sub : ret.subdir = first ++ slash :: second) (found : table.find ret.volumnid = some ret.volumnstr)
    (group : ret.grpid ≠ [] ∧ slash ∉ ret.grpid) (filled : name ≠ []) (free : slash ∉ name) :
    split (globalId ret name) slash = [ret.grpid, ret.volumnid, first, second, name] ∧
      ∃ info, strfileid2StorageFileObject table (globalId ret name) = some info ∧
        info.globalFileid = globalId ret name ∧
        info.physicalStorePath = ret.volumnstr ++ slash :: ret.subdir ++ slash :: name := by
  have joined : globalId ret name = implode slash [ret.grpid, ret.volumnid, first, second, name] := by
    simp [globalId, sub, implode]
  obtain ⟨someFirst, freeFirst⟩ := storeFolders_spec inFolders
  obtain ⟨someSecond, freeSecond⟩ := storeFolders_spec inFolders'
  have freeVolumn : slash ∉ ret.volumnid := volumn ▸ notMem_volumnsidText (by decide) (by decide) n
  have five : split (globalId ret name) slash = [ret.grpid, ret.volumnid, first, second, name] := by
    rw [joined, split_implode (by simp [group.2, freeVolumn, freeFirst, freeSecond, free])]
    simp [group.1, volumn, volumnsidText_ne_nil, someFirst, someSecond, filled]
  refine ⟨five, _, strfileid_of_five table five, rfl, ?_⟩
  have front : globalId ret name = (ret.grpid ++ slash :: ret.volumnid) ++ (slash :: ret.subdir ++ slash :: name) := by
    simp [globalId]
  have length : ret.grpid.length + 1 + ret.volumnid.length = (ret.grpid ++ slash :: ret.volumnid).length := by
    simp only [List.length_append, List.length_cons]
    omega
  simp only [found, Option.getD_some]
  rw [front, length, List.drop_left, List.append_assoc]

theorem answer_read {fileid grpid volumnid first second name : Bytes} (memory volumns : Bytes) (free : 0 ∉ fileid)
    (short : fileid.length ≤ 127) (five : split fileid slash = [grpid, volumnid, first, second, name])
    (noDigit : ∀ c ∈ cStr memory, ¬ isDigit c) :
    ∃ header, stringToResponseObject fileid volumns (ascii "200") = some header ∧
      header.drop 256 = ascii "200" ∧ stssatus header memory = registSucess ∧
      (responseObject2StorageFileObject header memory).globalFileid = fileid := by
  have status : string2int (ascii "200") = registSucess := string2int_200
  have noZero : 0 ∉ ascii "200" := by decide
  have rest : (responseField fileid ++ responseField volumns ++
      (ascii "200" ++ List.replicate (3 - (ascii "200").length) 0)).drop 256 = ascii "200" :=
    List.drop_left' (by rw [List.length_append, responseField_length, responseField_length])
  refine ⟨_, if_pos (by decide), rest, ?_, ?_⟩
  · rw [stssatus, rest, cStr_append_of_notMem noZero, string2int_append noDigit, status]
  · rw [responseObject2StorageFileObject, List.append_assoc, List.append_assoc, cStr_responseField free,
      List.take_of_length_le short, ofText_of_five _ five]

/-- Whatever `storage.conf` says and whatever the library and the files are: a file that
is found in a store folder gets an id under which its own bytes are uploaded, with those
of the file `-m-m` beside it, unless its name or path cannot be sent or logged. -/
theorem scanned_file_uploaded (glob : Bytes → List Bytes) (codec : SdkCodec) (files : Files) (conf : Conf)
    (fuel : Nat) (table : Dict) (groupId volumnsid : Bytes) (objects : List StorageVolumnObject)
    (built : getVolumnsDict conf fuel = some table)
    (listed : getStoreFolderByOrder table groupId volumnsid = some objects)
    (group : groupId ≠ [] ∧ slash ∉ groupId) :
    ∀ ret ∈ objects, ∀ item ∈ picExtList,
      ∀ fullpath ∈ glob (ret.volumnstr ++ slash :: ret.subdir ++ ascii "/*." ++ item), ∀ name,
        fullpath = ret.volumnstr ++ slash :: ret.subdir ++ slash :: name →
        name ≠ [] ∧ slash ∉ name ∧ backslash ∉ name → Sendable (globalId ret name) →
        Plain fullpath ∧ 0 ∉ fullpath ∧ fullpath.length ≤ 1019 ∧ isFormat fullpath →
        globalId ret name ∈ getGlobalIdByFilelist
          (getfileListOfStoragepath glob (ret.volumnstr ++ slash :: ret.subdir)) ret ∧
        ∀ memory data : Bytes, Behind memory → BlankTail (data.drop (globalId ret name).length) →
          deliver table codec files ret (globalId ret name) memory data =
            .ok (uploadRequest codec files (globalId ret name) fullpath) := by
  rintro ret mem item ext fullpath found name here ⟨filled, free, free'⟩ sendable ⟨plain, nul, short, format⟩
  obtain ⟨first, inFolders, second, inFolders', n, rfl, volumn, sub, known⟩ := folder_spec built listed mem
  obtain ⟨five, info, accepted, fileid, path⟩ :=
    strfileid_of_folder inFolders inFolders' volumn sub known group filled free
  rw [← here] at path
  constructor
  · refine List.mem_map.mpr ⟨name, List.mem_flatMap.mpr ⟨item, ext, ?_⟩, rfl⟩
    refine List.mem_filterMap.mpr ⟨fullpath, found, ?_⟩
    rw [here, lastName_append _ free free']
  intro memory data behind blank
  have line : (globalId ret name).filter (· ≠ newline) = globalId ret name :=
    List.filter_eq_self.mpr fun c inside => by simpa using ne_of_mem_of_not_mem inside sendable.line
  obtain ⟨header, built', ext, status, pushed⟩ :=
    answer_read memory ret.volumnstr sendable.free sendable.short five behind.noDigit
  have idSome : globalId ret name ≠ [] := by simp [globalId]
  have read := (bufferedOnRead_iff idSome (sendable.short.trans (by decide)) sendable.free
    sendable.trimmed).mpr ⟨blank, sendable.format⟩
  have pathSome : fullpath ≠ [] := by simp [here]
  have clean := messageRecords_clean info (fileid.symm ▸ ⟨sendable.plain, sendable.free⟩) (fileid.symm ▸ idSome)
    (fileid.symm ▸ Nat.lt_of_le_of_lt sendable.short (by decide)) (path.symm ▸ ⟨plain, nul⟩) (path.symm ▸ pathSome)
    (path.symm ▸ Nat.lt_succ_of_le (Nat.add_le_add_right short 4))
  have request := consumerRequest_clean codec files accepted clean
  rw [fileid, path] at request
  rw [here, List.append_assoc, List.cons_append] at nul short format
  have root : ret.volumnstr.length ≤ 1019 := (List.length_append ▸ Nat.le_add_right _ _).trans short
  have parts := isFormat_append_cons ret.volumnstr (c := slash) (by decide) (ret.subdir ++ slash :: name)
  have logged := sendTracker_logged sendable (fun mem => nul (List.mem_append_left _ mem)) root
    (Bool.and_eq_true_iff.mp (parts ▸ format)).1 ext behind
  have logged' := sendConsume_logged sendable
  simp only [deliver, line, built', status, pushed, logged, logged', read, request, Except.mapError, bind,
    Except.bind]
  rfl

/-- A library that puts the id and the bytes one after the other. -/
def SdkCodec.plain : SdkCodec where
  encodeRawOverwriteV2Req _ buffer reqid := (buffer, reqid)
  encodeRawUploadV2Req upload _ reqid := (upload.fileid ++ slash :: upload.data, reqid)

/-- A folder with one file, of one volume at `/d`. -/
theorem scanned_file_uploaded_sample :
    deliver [(ascii "M00", ascii "/d/data")] SdkCodec.plain
      (fun path => if path = ascii "/d/data/00/00/x.jpg" then some (ascii "JFIF") else none)
      ⟨true, ascii "g1", ascii "M00", ascii "/d/data", ascii "00/00"⟩ (ascii "g1/M00/00/00/x.jpg") [0]
      (List.replicate 4096 0) = .ok (some (ascii "g1/M00/00/00/x.jpg/JFIF")) := by
  have mem : (⟨true, ascii "g1", ascii "M00", ascii "/d/data", ascii "00/00"⟩ : StorageVolumnObject) ∈
      storeFolders.flatMap fun first => storeFolders.map fun second =>
        (⟨true, ascii "g1", ascii "M00", ascii "/d/data", first ++ slash :: second⟩ : StorageVolumnObject) :=
    List.mem_flatMap.mpr ⟨ascii "00", by decide +kernel, List.mem_map.mpr ⟨ascii "00", by decide +kernel, rfl⟩⟩
  have blank : BlankTail ((List.replicate 4096 (0 : UInt8)).drop (ascii "g1/M00/00/00/x.jpg").length) := by
    have behind : (List.replicate 4096 (0 : UInt8)).drop (ascii "g1/M00/00/00/x.jpg").length =
        0 :: List.replicate 4077 0 := List.drop_replicate
    rw [behind]
    exact ⟨List.mem_cons_self, nofun⟩
  have request := scanned_file_uploaded (fun _ => [ascii "/d/data/00/00/x.jpg"]) SdkCodec.plain
    (fun path => if path = ascii "/d/data/00/00/x.jpg" then some (ascii "JFIF") else none)
    (fun name => if name = ascii "store_path0" then ascii "/d" else []) 2 [(ascii "M00", ascii "/d/data")]
    (ascii "g1") (ascii "M00") _ (by decide +kernel) rfl (by decide +kernel) _ mem (ascii "jpg") (by decide +kernel)
    _ List.mem_cons_self (ascii "x.jpg") (by decide +kernel) (by decide +kernel)
    ⟨by decide +kernel, by decide +kernel, by decide +kernel, by decide +kernel, by decide +kernel, by decide +kernel⟩
    (by decide +kernel)
  exact (request.2 [0] (List.replicate 4096 0) ⟨nofun, rfl, Nat.zero_le _⟩ blank).trans (by decide +kernel)

end Fdfs2qq.Jobschedule
