import Fdfs2qq.Text

/-! `StorageConfig`: the volume table, the store folders, and file ids turned
into paths. The parsed `storage.conf` is a function from the names of the
unnamed section to values, empty where a name is missing. -/
namespace Fdfs2qq.Box

/-- `readerPtr->Get("", name, "")` -/
abbrev Conf := Bytes → Bytes

/-- A `std::map` that is filled by `insert` and looked up. -/
abbrev Dict := List (Bytes × Bytes)

def Dict.find (d : Dict) (key : Bytes) : Option Bytes := d.lookup key

/-- `insert(std::make_pair(key, value))` keeps an entry that is there. -/
def Dict.insert (d : Dict) (key value : Bytes) : Dict :=
  if (d.find key).isSome then d else d ++ [(key, value)]

structure StorageVolumnObject where
  isvalid : Bool
  grpid : Bytes
  volumnid : Bytes
  volumnstr : Bytes
  subdir : Bytes
deriving DecidableEq

structure StorageFileObject where
  globalFileid : Bytes
  physicalStorePath : Bytes
  grpid : Bytes
  volumnid : Bytes
  volumnstr : Bytes
  subdir : Bytes
deriving DecidableEq

namespace StorageVolumnObject

def empty : StorageVolumnObject := ⟨false, [], [], [], []⟩

/-- `to_string()` -/
def toText (o : StorageVolumnObject) : Bytes :=
  implode boxKvSeperator [o.grpid, o.volumnid, o.volumnstr, o.subdir]

end StorageVolumnObject

/-- `StringToStorageVolumnObject(msgstr)`, the result constructed in place. -/
def stringToStorageVolumnObject (msgstr : Bytes) : StorageVolumnObject :=
  match split msgstr boxKvSeperator with
  | [grpid, volumnid, volumnstr, subdir] => ⟨true, grpid, volumnid, volumnstr, subdir⟩
  | _ => .empty

/-- `StorageFileObject(obj_parent, fileid)`: the volume path takes the place of
as many bytes as group and volume have. -/
def StorageFileObject.ofVolumn (parent : StorageVolumnObject) (fileid : Bytes) : StorageFileObject :=
  let finder := parent.grpid ++ slash :: parent.volumnid
  { grpid := parent.grpid, volumnid := parent.volumnid, volumnstr := parent.volumnstr,
    subdir := parent.subdir, globalFileid := fileid
    physicalStorePath := parent.volumnstr ++ fileid.drop finder.length }

/-- `StorageFileObject(msgstr, volumnstr)` -/
def StorageFileObject.ofText (msgstr volumnstr : Bytes) : StorageFileObject :=
  match split msgstr slash with
  | [grpid, volumnid, first, second, name] =>
    let subdir := first ++ slash :: second
    { globalFileid := msgstr, grpid := grpid, volumnid := volumnid, subdir := subdir
      volumnstr := volumnstr
      physicalStorePath :=
        if volumnstr = [] then [] else volumnstr ++ slash :: subdir ++ slash :: name }
  | _ => ⟨[], [], [], [], [], []⟩

def volumnsidText (volumnsid : Nat) : Bytes :=
  if volumnsid ≤ 9 then ascii "M0" ++ decimal volumnsid else ascii "M" ++ decimal volumnsid

/-- The loop of `GetVolumnsDict`, for at most `fuel` volumes. -/
def volumnsDictFrom (conf : Conf) : Nat → Nat → Dict → Option Dict
  | 0, _, _ => none
  | fuel + 1, volumnsid, dict =>
    let getfromreader := conf (ascii "store_path" ++ decimal volumnsid)
    if getfromreader = [] then some dict
    else volumnsDictFrom conf fuel (volumnsid + 1)
      (dict.insert (volumnsidText volumnsid) (getfromreader ++ ascii "/data"))

def getVolumnsDict (conf : Conf) (fuel : Nat) : Option Dict := volumnsDictFrom conf fuel 0 []

/-- `GetVolumnsCount()`: the size of the table as an `int`. -/
def getVolumnsCount (volumnsDict : Dict) : Int := toInt volumnsDict.length

/-- `OBJECT_ID_4SUBDIR::get_volumnsByObj(value)`; no result where it throws. -/
def getVolumnsByObj (value : Bytes) : Option Bytes :=
  let volumnsId := atoiText value
  if volumnsId ≤ 0 ∧ value ≠ ascii "0" then none
  else if volumnsId ≤ 9 then some (ascii "M0" ++ value)
  else some (ascii "M" ++ value)

/-- `vlist` -/
def hexDigits : List Bytes :=
  ["0", "1", "2", "3", "4", "5", "6", "7", "8", "9", "A", "B", "C", "D", "E", "F"].map ascii

/-- `_tmp_v_path1` -/
def storeFolders : List Bytes := hexDigits.flatMap fun a => hexDigits.map fun b => a ++ b

/-- `getStoreFolderByOrder(_ret, volumnsid)` with an empty `_ret`; no result
where the volume is not in the table and the code throws. -/
def getStoreFolderByOrder (volumnsDict : Dict) (groupId volumnsid : Bytes) :
    Option (List StorageVolumnObject) :=
  match volumnsDict.find volumnsid with
  | none => none
  | some volumnstr => some <| storeFolders.flatMap fun first => storeFolders.map fun second =>
      { isvalid := true, grpid := groupId, volumnid := volumnsid, volumnstr := volumnstr
        subdir := first ++ slash :: second }

/-- `grpid/volumnid/subdir/filename` -/
def globalId (ret : StorageVolumnObject) (filename : Bytes) : Bytes :=
  ret.grpid ++ slash :: ret.volumnid ++ slash :: ret.subdir ++ slash :: filename

/-- `GetGlobalIdByFilelist(filelist, ret, gid_list)` with an empty `gid_list`. -/
def getGlobalIdByFilelist (filelist : List Bytes) (ret : StorageVolumnObject) : List Bytes :=
  filelist.map (globalId ret)

/-- `Strfileid2StorageFileObject(fileid)` with the table that `GetVolumnsDict`
returns; no result where the code throws. -/
def strfileid2StorageFileObject (volumnsDict : Dict) (fileid : Bytes) : Option StorageFileObject :=
  match split fileid slash with
  | grpid :: volumnid :: first :: second :: _ =>
    let parent : StorageVolumnObject :=
      { isvalid := false, grpid := grpid, volumnid := volumnid
        volumnstr := (volumnsDict.find volumnid).getD [], subdir := first ++ slash :: second }
    some (.ofVolumn parent fileid)
  | _ => none

end Fdfs2qq.Box
