import Mathlib.Data.List.Induction
import Fdfs2qq.Box.BoxObject

/-! Messages in a row. The loop of `SplitMsg` stops at the separator it has
found, so that it returns the first message and no other. -/
namespace Fdfs2qq.Box

theorem strchr_append (before rest : Bytes) (free : c ∉ before) :
    strchr (before ++ c :: rest) c = some before.length := by
  induction before with
  | nil => simp [strchr, List.idxOf?_cons]
  | cons b before ih =>
    rw [List.mem_cons, not_or] at free
    have := ih free.2
    simp only [strchr] at this
    simp [strchr, List.idxOf?_cons, this, Ne.symm free.1]

theorem strchr_none {s : Bytes} (free : c ∉ s) : strchr s c = none := by
  simpa [strchr] using free

theorem strrchr_append {before rest : Bytes} (free : c ∉ rest) :
    strrchr (before ++ c :: rest) c = some before.length := by
  have reversed : (before ++ c :: rest).reverse = rest.reverse ++ c :: before.reverse := by simp
  have found := strchr_append (c := c) rest.reverse before.reverse (by simpa using free)
  rw [strchr] at found
  simp only [strrchr, reversed, found, Option.map_some, List.length_append, List.length_cons,
    List.length_reverse, Option.some.injEq]
  omega

theorem strrchr_of_mem {s : Bytes} (mem : c ∈ s) : ∃ n, strrchr s c = some n := by
  obtain ⟨k, found⟩ := Option.isSome_iff_exists.mp (List.isSome_idxOf?.mpr (List.mem_reverse.mpr mem))
  exact ⟨s.length - 1 - k, by rw [strrchr, found]; rfl⟩

theorem fieldText_strncpy (s : Bytes) (size : Nat) : fieldText (strncpy s size) =
    if (cStr s).length < size then .ok (cStr s) else .error .fieldOverread := by
  unfold fieldText strncpy
  by_cases short : (cStr s).length < size
  · obtain ⟨k, rfl⟩ := Nat.exists_eq_add_of_lt short
    have padding : (cStr s).length + k + 1 - (cStr s).length = k + 1 := by omega
    rw [List.take_of_length_le short.le, padding, List.replicate_succ, if_pos (by simp),
      if_pos short, cStr_append (zero_notMem_cStr s)]
  · rw [Nat.sub_eq_zero_of_le (by omega), List.replicate_zero, List.append_nil, if_neg short, if_neg]
    exact fun mem => zero_notMem_cStr s (List.mem_of_mem_take mem)

def records (metastr : Bytes) : List (Bytes × Bytes) :=
  (Lib.getlines boxRecordSeperator metastr).filterMap fun item =>
    match Lib.getlines boxKvSeperator item with
    | [key, value] => some (key, value)
    | _ => none

def HeaderItem.ofRecord (record : Bytes × Bytes) : HeaderItem :=
  ⟨true, strncpy record.1 bufferKkSize, strncpy record.2 bufferKvSize⟩

/-- The front of a string that is left when its length is passed as an `int`. -/
def narrowed (s : Bytes) : Bytes := s.take (toInt s.length).toNat

theorem narrowed_of_lt {s : Bytes} (short : s.length < 2 ^ 31) : narrowed s = s := by
  rw [narrowed, toInt_of_lt (by omega) (by omega), Int.toNat_natCast, List.take_length]

theorem narrowed_front (s : Bytes) : narrowed s <+: s := List.take_prefix _ _

theorem toInt_length_le (s : Bytes) : toInt s.length ≤ s.length := by
  by_cases short : s.length < 2 ^ 31
  · exact Int.le_of_eq (toInt_of_lt (by omega) (by omega))
  · have upper := toInt_lt s.length
    omega

theorem splitMetalist_eq (metastr : Bytes) :
    splitMetalist metastr (toInt metastr.length) = (records (narrowed metastr)).map HeaderItem.ofRecord := by
  rw [splitMetalist]
  split
  next empty =>
    rw [narrowed, Int.toNat_of_nonpos empty, List.take_zero]
    rfl
  next =>
    rw [records, List.map_filterMap, narrowed]
    congr 1
    funext item
    split <;> simp_all [HeaderItem.ofRecord]

/-- The key has room in its field, and so has a value that names a file. -/
def Storable (record : Bytes × Bytes) : Prop :=
  (cStr record.1).length < bufferKkSize ∧
    (cStr record.1 = ascii "filehandle" → (cStr record.2).length < bufferKvSize)

def Body.withRecords (body : Body) (records : List (Bytes × Bytes)) : Body :=
  records.foldl (fun body record =>
    if cStr record.1 = ascii "filehandle" then body.setFilehandle (cStr record.2) else body) body

theorem MessageItem.addHeader_ofRecord {msg : MessageItem} {record : Bytes × Bytes}
    (room : msg.hdPtr.length < maxItemsCount) (storable : Storable record) :
    msg.addHeader (.ofRecord record) =
      .ok ⟨msg.hdPtr ++ [.ofRecord record], msg.bdPtr.withRecords [record]⟩ := by
  have key := fieldText_strncpy record.1 bufferKkSize
  have value := fieldText_strncpy record.2 bufferKvSize
  rw [if_pos storable.1] at key
  simp only [addHeader, Header.setHeader, HeaderItem.ofRecord, room, if_true, key, bind, Except.bind,
    pure, Except.pure, Body.withRecords, List.foldl_cons, List.foldl_nil]
  split
  next named =>
    rw [if_pos (storable.2 named)] at value
    simp only [value]
  next => rfl

theorem MessageItem.storable_of_addHeader {msg : MessageItem} {record : Bytes × Bytes}
    (added : msg.addHeader (.ofRecord record) = .ok msg') :
    msg.hdPtr.length < maxItemsCount ∧ Storable record := by
  have key := fieldText_strncpy record.1 bufferKkSize
  have value := fieldText_strncpy record.2 bufferKvSize
  simp only [addHeader, Header.setHeader, HeaderItem.ofRecord, if_true, bind, Except.bind] at added
  by_cases room : msg.hdPtr.length < maxItemsCount
  · by_cases short : (cStr record.1).length < bufferKkSize
    · refine ⟨room, short, fun named => ?_⟩
      by_contra long
      rw [if_pos short] at key
      rw [if_neg long] at value
      simp [room, key, value, named] at added
    · rw [if_neg short] at key
      simp [room, key] at added
  · simp [room] at added

/-- Records are stored exactly if they have room. -/
theorem MessageItem.addHeaders_iff (records : List (Bytes × Bytes)) (msg msg' : MessageItem) :
    (records.map HeaderItem.ofRecord).foldlM MessageItem.addHeader msg = .ok msg' ↔
      (records = [] ∨ msg.hdPtr.length + records.length ≤ maxItemsCount) ∧
        (∀ record ∈ records, Storable record) ∧
        msg' = ⟨msg.hdPtr ++ records.map HeaderItem.ofRecord, msg.bdPtr.withRecords records⟩ := by
  induction records generalizing msg with
  | nil =>
    simp only [List.map_nil, List.foldlM_nil, List.append_nil, List.not_mem_nil, Body.withRecords,
      List.foldl_nil, pure, Except.pure, Except.ok.injEq, true_or, true_and, eq_comm]
    simp
  | cons record rest ih =>
    rw [List.map_cons, List.foldlM_cons]
    constructor
    · intro ran
      cases added : msg.addHeader (.ofRecord record) with
      | error => simp [added, bind, Except.bind] at ran
      | ok mid =>
        obtain ⟨room, storable⟩ := storable_of_addHeader added
        cases (addHeader_ofRecord room storable).symm.trans added
        simp only [added, bind, Except.bind] at ran
        obtain ⟨rooms, storables, rfl⟩ := (ih _).mp ran
        refine ⟨.inr ?_, List.forall_mem_cons.mpr ⟨storable, storables⟩, ?_⟩
        · obtain rfl | rooms := rooms
          · exact room
          · simp only [List.length_append, List.length_cons, List.length_nil] at rooms ⊢
            omega
        · simp [Body.withRecords]
    · rintro ⟨room | room, storables, rfl⟩
      · cases room
      · obtain ⟨storable, storables⟩ := List.forall_mem_cons.mp storables
        rw [List.length_cons] at room
        rw [addHeader_ofRecord (by omega) storable]
        refine (ih _).mpr ⟨.inr ?_, storables, ?_⟩
        · simp only [List.length_append, List.length_singleton]
          omega
        · simp [Body.withRecords]

/-- The last record that names a file. -/
def fileRecord (rs : List (Bytes × Bytes)) : Option (Bytes × Bytes) :=
  rs.reverse.find? fun record => cStr record.1 = ascii "filehandle"

theorem Body.withRecords_append (body : Body) (rs : List (Bytes × Bytes)) (record : Bytes × Bytes) :
    body.withRecords (rs ++ [record]) =
      if cStr record.1 = ascii "filehandle" then (body.withRecords rs).setFilehandle (cStr record.2)
      else body.withRecords rs := by
  rw [withRecords, List.foldl_append]
  rfl

theorem Body.withRecords_eq (rs : List (Bytes × Bytes)) : ({} : Body).withRecords rs =
    match fileRecord rs with
    | some record => { isFilehandle := true, fileHandle := cStr record.2 }
    | none => {} := by
  induction rs using List.reverseRecOn with
  | nil => rfl
  | append_singleton rs record ih =>
    rw [withRecords_append, fileRecord, List.reverse_append, List.reverse_singleton, List.singleton_append,
      List.find?_cons]
    split
    next named =>
      rw [decide_eq_true named, ih]
      cases fileRecord rs <;> rfl
    next other =>
      rw [decide_eq_false other]
      exact ih

/-- A message before it is encoded. -/
structure Message where
  metastr : Bytes
  body : Bytes

def Message.encode (m : Message) : Bytes :=
  m.metastr ++ boxFieldSeperator :: (m.body ++ [boxMsgSeperator])

/-- No separator of fields or messages, and no NUL. -/
def Free (s : Bytes) : Prop := boxFieldSeperator ∉ s ∧ boxMsgSeperator ∉ s ∧ 0 ∉ s

/-- The length is positive as an `int`, and the records fit into the header: not
too many, keys and file names not too long. -/
structure Message.Fits (m : Message) : Prop where
  positive : 0 < toInt (m.metastr ++ boxFieldSeperator :: m.body).length
  few : (records (narrowed m.metastr)).length ≤ maxItemsCount
  keys : ∀ record ∈ records (narrowed m.metastr), record.1.length < bufferKkSize
  files : ∀ record ∈ records (narrowed m.metastr), record.1 = ascii "filehandle" →
    record.2.length < bufferKvSize

/-- Each message alone gives one item, and all of them in a row give these items. -/
def Framed (messages : List Message) : Prop :=
  ∃ items, List.Forall₂ (fun m item => splitMsg m.encode = .ok ([item], 1)) messages items ∧
    splitMsg (messages.flatMap Message.encode) = .ok (items, messages.length)

theorem map_eq_ok {x : Except ε α} {f : α → β} : x.map f = .ok b ↔ ∃ a, x = .ok a ∧ f a = b := by
  cases x <;> simp [Except.map]

theorem splitMsgFrom_stop (rest : Bytes) (ret : List MessageItem) :
    splitMsgFrom (boxMsgSeperator :: rest) ret = .ok ret := by
  have found : strchr (boxMsgSeperator :: rest) boxMsgSeperator = some 0 :=
    strchr_append [] rest List.not_mem_nil
  rw [splitMsgFrom]
  split
  next absent => rw [found] at absent; cases absent
  next => rfl
  next n later => rw [found] at later; cases later

/-- The loop looks at one message: the separator it stops at is where it goes on. -/
theorem splitMsg_eq (buffer : Bytes) : splitMsg buffer =
    match strchr buffer boxMsgSeperator with
    | none => .error .nullSearch
    | some 0 => .ok ([], 0)
    | some (n + 1) =>
      (_splitMsg buffer (toInt (n + 1))).map fun item => (item.toList, item.toList.length) := by
  rw [splitMsg, splitMsgFrom]
  split
  next absent => simp only [absent]; rfl
  next here => simp only [here]; rfl
  next n later =>
    obtain ⟨inside, there, -⟩ := List.idxOf?_eq_some_iff.mp later
    have stops (ret : List MessageItem) : splitMsgFrom (buffer.drop (n + 1)) ret = .ok ret := by
      rw [List.drop_eq_getElem_cons inside, there]
      exact splitMsgFrom_stop _ ret
    simp only [later, stops]
    cases _splitMsg buffer (toInt (n + 1)) with
    | error => rfl
    | ok item => rfl

theorem splitMsg_slice {slice : Bytes} (rest : Bytes) (free : boxMsgSeperator ∉ slice) :
    splitMsg (slice ++ boxMsgSeperator :: rest) =
      (_splitMsg (slice ++ boxMsgSeperator :: rest) (toInt slice.length)).map fun item =>
        (item.toList, item.toList.length) := by
  rw [splitMsg_eq, strchr_append slice rest free]
  cases length : slice.length with
  | zero =>
    rw [_splitMsg, Int.natCast_zero, toInt_zero, if_pos (Int.le_refl 0)]
    rfl
  | succ n => rfl

theorem splitMsg_nothing {slice : Bytes} (rest : Bytes) (free : boxMsgSeperator ∉ slice)
    (nothing : toInt slice.length ≤ 0) : splitMsg (slice ++ boxMsgSeperator :: rest) = .ok ([], 0) := by
  rw [splitMsg_slice rest free, _splitMsg, if_pos nothing]
  rfl

theorem positive_of_parsed {slice rest : Bytes} {count : Nat} {item : MessageItem} {items : List MessageItem}
    (free : boxMsgSeperator ∉ slice)
    (parsed : splitMsg (slice ++ boxMsgSeperator :: rest) = .ok (item :: items, count)) :
    0 < toInt slice.length := by
  by_contra nothing
  rw [splitMsg_nothing rest free (Int.not_lt.mp nothing)] at parsed
  cases parsed

theorem Message.encode_append (m : Message) (rest : Bytes) :
    m.encode ++ rest = (m.metastr ++ boxFieldSeperator :: m.body) ++ boxMsgSeperator :: rest := by
  simp [Message.encode]

theorem Message.notMem_slice {m : Message} (free : Free m.metastr) (free' : Free m.body) :
    boxMsgSeperator ∉ m.metastr ++ boxFieldSeperator :: m.body := by
  simp only [List.mem_append, List.mem_cons, not_or]
  exact ⟨free.2.1, by decide, free'.2.1⟩

def MessageItem.withBody (msg : MessageItem) (body : Bytes) : MessageItem :=
  if ¬ msg.bdPtr.isFilehandle ∧ body ≠ [] then { msg with bdPtr := msg.bdPtr.setData body } else msg

def MessageItem.ofRecords (rs : List (Bytes × Bytes)) (body : Bytes) : MessageItem :=
  MessageItem.withBody ⟨rs.map HeaderItem.ofRecord, ({} : Body).withRecords rs⟩ body

theorem _splitMsg_eq {metastr after : Bytes} {lastField : Nat} {bufferLen : Int}
    (free : boxFieldSeperator ∉ metastr)
    (last : strrchr (metastr ++ boxFieldSeperator :: after) boxFieldSeperator = some lastField)
    (positive : 0 < bufferLen) (within : bufferLen ≤ (metastr ++ boxFieldSeperator :: after).length) :
    _splitMsg (metastr ++ boxFieldSeperator :: after) bufferLen =
      (((records (narrowed metastr)).map HeaderItem.ofRecord).foldlM MessageItem.addHeader {}).map fun msg =>
        some (msg.withBody
          (((metastr ++ boxFieldSeperator :: after).take bufferLen.toNat).drop (lastField + 1))) := by
  have head : (metastr ++ boxFieldSeperator :: after).take metastr.length = metastr := List.take_left
  have body : ((metastr ++ boxFieldSeperator :: after).take bufferLen.toNat).drop (lastField + 1) ≠ [] ↔
      ((lastField + 1 : Nat) : Int) < bufferLen := by
    rw [← List.length_pos_iff, List.length_drop, List.length_take]
    omega
  rw [_splitMsg, if_neg (Int.not_le.mpr positive), strchr_append _ _ free, last]
  simp only [head, splitMetalist_eq]
  cases ((records (narrowed metastr)).map HeaderItem.ofRecord).foldlM MessageItem.addHeader {} with
  | error => rfl
  | ok msg =>
    simp only [bind, Except.bind, Except.map, MessageItem.withBody, body, pure, Except.pure]
    split <;> rfl

/-- There is an item exactly if the records before the first field separator can be stored. -/
theorem _splitMsg_iff {metastr after : Bytes} {lastField : Nat} {bufferLen : Int} {item : Option MessageItem}
    (free : boxFieldSeperator ∉ metastr)
    (last : strrchr (metastr ++ boxFieldSeperator :: after) boxFieldSeperator = some lastField)
    (positive : 0 < bufferLen) (within : bufferLen ≤ (metastr ++ boxFieldSeperator :: after).length) :
    _splitMsg (metastr ++ boxFieldSeperator :: after) bufferLen = .ok item ↔
      (records (narrowed metastr)).length ≤ maxItemsCount ∧
        (∀ record ∈ records (narrowed metastr), Storable record) ∧
          item = some (.ofRecords (records (narrowed metastr))
            (((metastr ++ boxFieldSeperator :: after).take bufferLen.toNat).drop (lastField + 1))) := by
  rw [_splitMsg_eq free last positive within, map_eq_ok]
  constructor
  · rintro ⟨msg, added, rfl⟩
    obtain ⟨room, storable, rfl⟩ := (MessageItem.addHeaders_iff _ _ _).mp added
    refine ⟨?_, storable, by rw [List.nil_append]; rfl⟩
    obtain empty | room := room
    · simp [empty]
    · simpa using room
  · rintro ⟨room, storable, rfl⟩
    refine ⟨_, (MessageItem.addHeaders_iff _ _ _).mpr ⟨.inr (by simpa using room), storable, rfl⟩, ?_⟩
    rw [List.nil_append]
    rfl

theorem toInt_length_le_whole {slice rest metastr after : Bytes}
    (whole : slice ++ boxMsgSeperator :: rest = metastr ++ boxFieldSeperator :: after) :
    toInt slice.length ≤ (metastr ++ boxFieldSeperator :: after).length := by
  refine Int.le_trans (toInt_length_le slice) ?_
  rw [← whole, List.length_append]
  omega

/-- What `SplitMsg` returns for a first message of this slice. -/
theorem splitMsg_slice_iff {slice rest metastr after : Bytes} {lastField count : Nat} {items : List MessageItem}
    (free : boxMsgSeperator ∉ slice) (positive : 0 < toInt slice.length) (first : boxFieldSeperator ∉ metastr)
    (whole : slice ++ boxMsgSeperator :: rest = metastr ++ boxFieldSeperator :: after)
    (last : strrchr (slice ++ boxMsgSeperator :: rest) boxFieldSeperator = some lastField) :
    splitMsg (slice ++ boxMsgSeperator :: rest) = .ok (items, count) ↔
      (records (narrowed metastr)).length ≤ maxItemsCount ∧
        (∀ record ∈ records (narrowed metastr), Storable record) ∧
          items = [.ofRecords (records (narrowed metastr)) ((narrowed slice).drop (lastField + 1))] ∧
            count = 1 := by
  have within := toInt_length_le_whole whole
  have body : (metastr ++ boxFieldSeperator :: after).take (toInt slice.length).toNat = narrowed slice := by
    rw [← whole, List.take_append_of_le_length (by have := toInt_length_le slice; omega), narrowed]
  rw [splitMsg_slice rest free, map_eq_ok]
  rw [whole] at last ⊢
  simp only [_splitMsg_iff first last positive within, body, Prod.mk.injEq]
  constructor
  · rintro ⟨item, ⟨few, storable, rfl⟩, rfl, rfl⟩
    exact ⟨few, storable, rfl, rfl⟩
  · rintro ⟨few, storable, rfl, rfl⟩
    exact ⟨_, ⟨few, storable, rfl⟩, rfl, rfl⟩

theorem ofRecords_hdPtr (rs : List (Bytes × Bytes)) (body : Bytes) :
    (MessageItem.ofRecords rs body).hdPtr = rs.map HeaderItem.ofRecord := by
  rw [MessageItem.ofRecords, MessageItem.withBody]
  split <;> rfl

theorem _splitMsg_notMem {buffer : Bytes} {bufferLen : Int} (positive : 0 < bufferLen)
    (absent : boxFieldSeperator ∉ buffer) : _splitMsg buffer bufferLen = .error .nullSearch := by
  rw [_splitMsg, if_neg (Int.not_le.mpr positive), strchr_none absent]

theorem field_mem_of_parsed {slice rest : Bytes} {items : List MessageItem} {count : Nat}
    (free : boxMsgSeperator ∉ slice) (positive : 0 < toInt slice.length)
    (parsed : splitMsg (slice ++ boxMsgSeperator :: rest) = .ok (items, count)) :
    boxFieldSeperator ∈ slice ++ boxMsgSeperator :: rest := by
  by_contra absent
  rw [splitMsg_slice rest free, _splitMsg_notMem positive absent] at parsed
  cases parsed

theorem slice_of_parsed {buffer : Bytes} {parse : List MessageItem × Nat} (parsed : splitMsg buffer = .ok parse) :
    ∃ slice rest, boxMsgSeperator ∉ slice ∧ buffer = slice ++ boxMsgSeperator :: rest := by
  by_cases more : boxMsgSeperator ∈ buffer
  · obtain ⟨slice, rest, whole, free⟩ := List.eq_append_cons_of_mem more
    exact ⟨slice, rest, free, whole⟩
  · rw [splitMsg_eq, strchr_none more] at parsed
    cases parsed

theorem slice_unique {slice slice' rest rest' : Bytes} (free : boxMsgSeperator ∉ slice)
    (free' : boxMsgSeperator ∉ slice')
    (same : slice ++ boxMsgSeperator :: rest = slice' ++ boxMsgSeperator :: rest') : slice = slice' := by
  have before := congrArg (List.takeWhile fun c => decide (c ≠ boxMsgSeperator)) same
  rwa [Lib.takeWhile_ne_append free, Lib.takeWhile_ne_append free'] at before

theorem cStr_of_mem_records {metastr : Bytes} (free : 0 ∉ metastr) (mem : record ∈ records metastr) :
    cStr record.1 = record.1 ∧ cStr record.2 = record.2 := by
  obtain ⟨item, inside, split⟩ := List.mem_filterMap.mp mem
  have within (piece : Bytes) (mem : piece ∈ Lib.getlines boxKvSeperator item) : cStr piece = piece :=
    cStr_of_notMem fun zero => free (Lib.mem_of_mem_getlines inside (Lib.mem_of_mem_getlines mem zero))
  split at split
  next key value pieces =>
    cases split
    exact ⟨within _ (by simp [pieces]), within _ (by simp [pieces])⟩
  next => cases split

/-- A message gives an item exactly if it fits. -/
theorem Message.fits_iff {m : Message} (free : Free m.metastr) (free' : Free m.body) :
    m.Fits ↔ ∃ item, splitMsg m.encode = .ok ([item], 1) := by
  have shape := m.encode_append []
  rw [List.append_nil] at shape
  have whole : (m.metastr ++ boxFieldSeperator :: m.body) ++ boxMsgSeperator :: [] =
      m.metastr ++ boxFieldSeperator :: (m.body ++ [boxMsgSeperator]) := by simp
  obtain ⟨lastField, last⟩ := strrchr_of_mem
    (show boxFieldSeperator ∈ (m.metastr ++ boxFieldSeperator :: m.body) ++ boxMsgSeperator :: [] by simp)
  have free'' : 0 ∉ narrowed m.metastr := fun zero => free.2.2 ((narrowed_front _).subset zero)
  rw [shape]
  constructor
  · intro fits
    refine ⟨_, (splitMsg_slice_iff (Message.notMem_slice free free') fits.positive free.1 whole last).mpr
      ⟨fits.few, fun record mem => ?_, rfl, rfl⟩⟩
    obtain ⟨key, value⟩ := cStr_of_mem_records free'' mem
    rw [Storable, key, value]
    exact ⟨fits.keys record mem, fits.files record mem⟩
  · rintro ⟨item, parsed⟩
    have positive := positive_of_parsed (Message.notMem_slice free free') parsed
    obtain ⟨few, storable, -⟩ :=
      (splitMsg_slice_iff (Message.notMem_slice free free') positive free.1 whole last).mp parsed
    refine ⟨positive, few, fun record mem => ?_, fun record mem named => ?_⟩
    all_goals obtain ⟨key, value⟩ := cStr_of_mem_records free'' mem
    all_goals have here := storable record mem
    all_goals rw [Storable, key, value] at here
    · exact here.1
    · exact here.2 named

/-- Messages in a row are taken apart as each of them alone exactly if there is
one of them, and it fits. -/
theorem framed_iff (messages : List Message)
    (free : ∀ m ∈ messages, Free m.metastr ∧ Free m.body) :
    Framed messages ↔ ∃ m, messages = [m] ∧ m.Fits := by
  constructor
  · rintro ⟨items, alone, together⟩
    cases messages with
    | nil => simp [splitMsg_eq, strchr] at together
    | cons m rest =>
      obtain ⟨freeMeta, freeBody⟩ := free m List.mem_cons_self
      rw [List.flatMap_cons, m.encode_append, splitMsg_slice _ (Message.notMem_slice freeMeta freeBody)]
        at together
      cases alone with
      | cons here later =>
        refine ⟨m, ?_, (Message.fits_iff freeMeta freeBody).mpr ⟨_, here⟩⟩
        obtain ⟨item, -, same⟩ := map_eq_ok.mp together
        -- the count is that of one message
        have count := (Prod.mk.inj same).2
        cases rest with
        | nil => rfl
        | cons => cases item <;> simp at count
  · rintro ⟨m, rfl, fits⟩
    obtain ⟨freeMeta, freeBody⟩ := free m List.mem_cons_self
    obtain ⟨item, alone⟩ := (Message.fits_iff freeMeta freeBody).mp fits
    refine ⟨[item], List.forall₂_cons.mpr ⟨alone, .nil⟩, ?_⟩
    simpa using alone

theorem framed_single : Framed [⟨ascii "a\t1", ascii "x"⟩] := by
  refine (framed_iff _ fun m mem => ?_).mpr ⟨_, rfl, ⟨?_, ?_, ?_, ?_⟩⟩
  · rw [List.mem_singleton.mp mem]
    exact ⟨⟨by decide, by decide, by decide⟩, by decide, by decide, by decide⟩
  all_goals decide +kernel

/-- Two messages, each of which is parsed alone: the second is skipped. -/
theorem not_framed_pair :
    (∀ m ∈ [(⟨ascii "a\t1", []⟩ : Message), ⟨ascii "b\t2", []⟩], ∃ item, splitMsg m.encode = .ok ([item], 1)) ∧
      ¬ Framed [⟨ascii "a\t1", []⟩, ⟨ascii "b\t2", []⟩] := by
  constructor
  · intro m mem
    simp only [List.mem_cons, List.not_mem_nil, or_false] at mem
    obtain rfl | rfl := mem
    · exact ⟨⟨[.ofRecord (ascii "a", ascii "1")], {}⟩, by rw [splitMsg_eq]; decide +kernel⟩
    · exact ⟨⟨[.ofRecord (ascii "b", ascii "2")], {}⟩, by rw [splitMsg_eq]; decide +kernel⟩
  · rintro ⟨items, -, together⟩
    have first : splitMsg (ascii "a\t1\x02\x03b\t2\x02\x03") =
        .ok ([⟨[.ofRecord (ascii "a", ascii "1")], {}⟩], 1) := by
      rw [splitMsg_eq]
      decide +kernel
    cases first.symm.trans together

end Fdfs2qq.Box
