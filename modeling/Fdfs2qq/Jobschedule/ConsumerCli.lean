import Mathlib.Data.List.DropRight
import Fdfs2qq.Box.BoxObject
import Fdfs2qq.Logger

/-! `ConsumerCli`: the read handler of the consumer and the message it builds for
a file id. -/
namespace Fdfs2qq.Jobschedule
open Box

def bufferMaxLine : Nat := 4096

def isBlank (c : UInt8) : Bool := c = 32 ∨ c = newline ∨ c = 13 ∨ c = 9

def trimRight (text : Bytes) : Bytes := text.rdropWhile isBlank

/-- The array after the loop of `_Buffered_on_read`, which moves at most 4096
bytes of the input to its start in each turn. -/
def removeChunks (data input : Bytes) : Bytes :=
  if input = [] then data
  else
    let nbytes := min input.length bufferMaxLine
    removeChunks (input.take nbytes ++ data.drop nbytes) (input.drop nbytes)
termination_by input.length
decreasing_by
  have := List.length_pos_iff.mpr ‹_›
  simp only [bufferMaxLine, List.length_drop]
  omega

inductive ReadFault where
  /-- An array without NUL is read as a string. -/
  | overread
  /-- The file id is logged as a format. -/
  | format
deriving DecidableEq

/-- `_Buffered_on_read` on an array that holds `data`: the file id that is passed
to `_ConsumerMsg`. -/
def bufferedOnRead (data input : Bytes) : Except ReadFault Bytes := do
  let fileid ← ((fieldText (removeChunks data input)).map trimRight).mapError fun _ => .overread
  if Logger.info fileid then return fileid
  throw .format

/-- `input`, each as its key and its value. -/
def messageRecords (info : StorageFileObject) : List (Bytes × Bytes) :=
  let physicalFullpathMeta := info.physicalStorePath ++ ascii "-m"
  [(ascii "overwrite_flag", ascii "1"), (ascii "c1", ascii "v1"), (ascii "d2", ascii "v2"),
    (ascii "fileid", info.globalFileid), (ascii "filehandle", info.physicalStorePath),
    (ascii "file_meta", physicalFullpathMeta ++ ascii "-m")]

def originMsg (info : StorageFileObject) : Bytes :=
  implode boxRecordSeperator ((messageRecords info).map fun (key, value) =>
    key ++ boxKvSeperator :: value) ++ [boxFieldSeperator, boxMsgSeperator]

/-- The items that `_ConsumerMsg` gets for a file id, none where it returns
before it builds a message. -/
def consumerMsg (volumnsDict : Dict) (infostr : Bytes) : Except Fault (Option (List MessageItem × Nat)) :=
  match strfileid2StorageFileObject volumnsDict infostr with
  | none => .ok none
  | some info =>
    if info.physicalStorePath = [] then .ok none
    else (splitMsg (cStr (originMsg info))).map some

end Fdfs2qq.Jobschedule
