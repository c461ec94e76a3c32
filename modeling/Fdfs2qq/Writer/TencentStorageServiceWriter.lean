import Mathlib.Data.UInt
import Fdfs2qq.Box.Framing

/-! `TencentStorageServiceWriter`: from the headers of a message to the request that is
sent to the store. The calls of the store's library are parameters, and so is what the
files hold, which stays the same while a request is built. -/
namespace Fdfs2qq.Writer
open Box

/-- The arguments of an encode call. `data_sha1` and `para` are never set. -/
structure Upload where
  uid : Bytes
  fileid : Bytes
  fileInfo : Bytes
  data : Bytes
deriving DecidableEq

/-- The calls of `SdkCodec` that are made: what they leave in `buffer` and `reqid`. -/
structure SdkCodec where
  encodeRawOverwriteV2Req : Upload → Bytes → UInt32 → Bytes × UInt32
  encodeRawUploadV2Req : Upload → Bytes → UInt32 → Bytes × UInt32

abbrev Files := Bytes → Option Bytes

inductive WriterFault where
  | message (fault : Fault)
  /-- `std::stoi` throws. -/
  | stoi
  /-- `is_overwrite_flag` is read and was never set. -/
  | overwriteUnset
deriving DecidableEq

/-- `is_overwrite_flag` is not set by the constructor. -/
structure TencentStorageServiceWriter where
  msgbodyStr : Bytes := []
  uid : Bytes := []
  fileid : Bytes := []
  filename : Bytes := []
  filenameMeta : Bytes := []
  isOverwriteFlag : Option Bool := none
  databuffer : Bytes := []
  reqid : UInt32 := 0
deriving DecidableEq

/-- `std::stoi(text)`, nothing where it throws. -/
def stoi (text : Bytes) : Option Int :=
  let (sign, digits) : Int × Bytes := match (cStr text).dropWhile isSpace with
    | 45 :: rest => (-1, rest.takeWhile isDigit)
    | 43 :: rest => (1, rest.takeWhile isDigit)
    | rest => (1, rest.takeWhile isDigit)
  let value := sign * digitsValue digits
  if digits ≠ [] ∧ -2 ^ 31 ≤ value ∧ value < 2 ^ 31 then some value else none

/-- A `char` of the build target, as it is added to an `uint32_t`. -/
def charToUInt32 (c : UInt8) : UInt32 := if c < 128 then c.toUInt32 else c.toUInt32 - 256

def gethash (s : Bytes) : UInt32 :=
  let hash := (cStr s).foldl (fun (hash : UInt32) c =>
    let hash := hash + charToUInt32 c
    let hash := hash + hash <<< 10
    hash ^^^ hash >>> 6) 0
  let hash := hash + hash <<< 3
  let hash := hash ^^^ hash >>> 11
  hash + hash <<< 15

def getfilesize (files : Files) (filename : Bytes) : Nat := ((files (cStr filename)).map List.length).getD 0

/-- `STREAM_READ(filename, readbuffer)` where there is something to read. -/
def streamRead (files : Files) (filename readbuffer : Bytes) : Bytes :=
  if getfilesize files filename ≠ 0 then (files (cStr filename)).getD readbuffer else readbuffer

/-- `_GetOptionalMapData`, which only logs where a key is missing that must be there. -/
def getOptionalMapData (mappingheader : Dict) (key : Bytes) : Bytes :=
  if mappingheader.length < 1 then [] else (mappingheader.find key).getD []

namespace TencentStorageServiceWriter

def headerFormat (headPtr : Header) (w : TencentStorageServiceWriter) :
    Except WriterFault TencentStorageServiceWriter := do
  let mappingheader ← (mappingHeaders headPtr).mapError .message
  let fileid := getOptionalMapData mappingheader (ascii "fileid")
  let overwriteFlag := getOptionalMapData mappingheader (ascii "overwrite_flag")
  let w := { w with
    fileid := fileid
    reqid := gethash fileid
    filenameMeta := getOptionalMapData mappingheader (ascii "file_meta")
    uid := getOptionalMapData mappingheader (ascii "uid") }
  if overwriteFlag = [] then return w
  match stoi overwriteFlag with
  | none => throw .stoi
  | some n => return if n = 1 then { w with isOverwriteFlag := some true } else w

/-- `messageHeaderFormat(msgPtr)`, which does the same for every header item. -/
def messageHeaderFormat (msg : MessageItem) (w : TencentStorageServiceWriter) :
    Except WriterFault TencentStorageServiceWriter :=
  (List.range msg.hdPtr.length).foldlM (fun w _ => headerFormat msg.hdPtr w) w

/-- `messageBodyFormat(bodyPtr)`. An upload request is put in the place of the overwrite
request, if there was one. -/
def messageBodyFormat (codec : SdkCodec) (files : Files) (body : Body) (w : TencentStorageServiceWriter) :
    Except WriterFault TencentStorageServiceWriter := do
  let w := if body.isFilehandle then
      { w with filename := body.fileHandle, databuffer := streamRead files body.fileHandle w.databuffer }
    else w
  let info := if w.filenameMeta ≠ [] then streamRead files w.filenameMeta [] else []
  let upload : Upload := ⟨w.uid, w.fileid, info, w.databuffer⟩
  let some isOverwriteFlag := w.isOverwriteFlag | throw .overwriteUnset
  let (buffer, reqid) := if ¬ isOverwriteFlag then codec.encodeRawOverwriteV2Req upload w.msgbodyStr w.reqid
    else (w.msgbodyStr, w.reqid)
  let (buffer, reqid) := codec.encodeRawUploadV2Req upload buffer reqid
  return { w with msgbodyStr := buffer, reqid := reqid }

end TencentStorageServiceWriter

end Fdfs2qq.Writer
