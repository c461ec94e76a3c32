import Fdfs2qq.Box.StorageConfig

/-! `box_object`: a message of header records and a body, parsed out of a
NUL-terminated buffer. A buffer is given by its bytes before the NUL, a position
in it by what follows; what the language leaves undefined is a fault. -/
namespace Fdfs2qq.Box

inductive Fault where
  /-- A search that found nothing is used as a position. -/
  | nullSearch
  /-- A header item is written behind the array. -/
  | headerOverrun
  /-- A field without NUL is read as a string. -/
  | fieldOverread
deriving DecidableEq

def bufferKkSize : Nat := 128

def bufferKvSize : Nat := 1024

def maxItemsCount : Nat := 512

def strchr (s : Bytes) (c : UInt8) : Option Nat := s.idxOf? c

def strrchr (s : Bytes) (c : UInt8) : Option Nat :=
  (s.reverse.idxOf? c).map fun k => s.length - 1 - k

def strncpy (s : Bytes) (size : Nat) : Bytes :=
  (cStr s).take size ++ List.replicate (size - (cStr s).length) 0

/-- `std::string(field)` for a field of the size of the list. -/
def fieldText (field : Bytes) : Except Fault Bytes :=
  if 0 ∈ field then .ok (cStr field) else .error .fieldOverread

structure HeaderItem where
  isvalid : Bool
  keyV : Bytes
  valueV : Bytes
deriving DecidableEq

/-- The items that are set. -/
abbrev Header := List HeaderItem

/-- `data` is what `dataPtr` and `dataLen` delimit. -/
structure Body where
  isFilehandle : Bool := false
  fileHandle : Bytes := []
  data : Option Bytes := none
deriving DecidableEq

structure MessageItem where
  hdPtr : Header := []
  bdPtr : Body := {}
deriving DecidableEq

def Header.setHeader (header : Header) (fmt : HeaderItem) : Except Fault Header :=
  if fmt.isvalid then
    if header.length < maxItemsCount then .ok (header ++ [fmt]) else .error .headerOverrun
  else .ok header

def Body.setFilehandle (body : Body) (filename : Bytes) : Body :=
  { body with isFilehandle := true, fileHandle := filename }

def Body.setData (body : Body) (data : Bytes) : Body :=
  { body with isFilehandle := false, data := some data }

def splitMetalist (buffer : Bytes) (bufferLen : Int) : List HeaderItem :=
  if bufferLen ≤ 0 then []
  else (Lib.getlines boxRecordSeperator (buffer.take bufferLen.toNat)).filterMap fun item =>
    match Lib.getlines boxKvSeperator item with
    | [key, value] => some ⟨true, strncpy key bufferKkSize, strncpy value bufferKvSize⟩
    | _ => none

/-- The loop of `_splitMsg` over the header items. -/
def MessageItem.addHeader (msg : MessageItem) (it : HeaderItem) : Except Fault MessageItem := do
  let header ← msg.hdPtr.setHeader it
  let key ← fieldText it.keyV
  if key = ascii "filehandle" then
    let value ← fieldText it.valueV
    return ⟨header, msg.bdPtr.setFilehandle value⟩
  return ⟨header, msg.bdPtr⟩

/-- `_splitMsg(buffer, bufferLen, msg)` with a new `msg`; no item where it
returns false. -/
def _splitMsg (buffer : Bytes) (bufferLen : Int) : Except Fault (Option MessageItem) :=
  if bufferLen ≤ 0 then .ok none
  else
    match strchr buffer boxFieldSeperator, strrchr buffer boxFieldSeperator with
    | some bufferDataStart, some lastField => do
      let bufferMetaStr := buffer.take bufferDataStart
      let msg ← (splitMetalist bufferMetaStr (toInt bufferMetaStr.length)).foldlM MessageItem.addHeader {}
      let bufferMetaEnd := lastField + 1
      if ¬ msg.bdPtr.isFilehandle ∧ bufferMetaEnd < bufferLen then
        return some { msg with bdPtr := msg.bdPtr.setData ((buffer.take bufferLen.toNat).drop bufferMetaEnd) }
      return some msg
    | _, _ => .error .nullSearch

theorem strchr_lt_length (found : strchr s c = some n) : n < s.length :=
  (List.idxOf?_eq_some_iff.mp found).1

/-- The loop of `SplitMsg` from a position on. -/
def splitMsgFrom (bufferMsgStart : Bytes) (ret : List MessageItem) : Except Fault (List MessageItem) :=
  match _found : strchr bufferMsgStart boxMsgSeperator with
  | none => .error .nullSearch
  | some 0 => .ok ret
  | some (n + 1) => do
    -- the difference of the pointers is passed as an `int`
    let objShard ← _splitMsg bufferMsgStart (toInt (n + 1))
    splitMsgFrom (bufferMsgStart.drop (n + 1)) (ret ++ objShard.toList)
termination_by bufferMsgStart.length
decreasing_by
  have := strchr_lt_length _found
  simp only [List.length_drop]
  omega

/-- `SplitMsg(buffer, bufferLen, msgcount)`, with `msgcount`. -/
def splitMsg (buffer : Bytes) : Except Fault (List MessageItem × Nat) := do
  let ret ← splitMsgFrom buffer []
  return (ret, ret.length)

def mappingHeaders (headerPtr : Header) : Except Fault Dict :=
  headerPtr.foldlM (fun ret headeritem => do
    let key ← fieldText headeritem.keyV
    let value ← fieldText headeritem.valueV
    return ret.insert key value) []

end Fdfs2qq.Box
