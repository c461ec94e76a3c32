import Fdfs2qq.Box.StorageConfig

/-! A scanned file is the file that gets read: the id formed for a file of a
store folder leads back to the folder's path. -/
namespace Fdfs2qq.Box

theorem Dict.find_insert (d : Dict) (key value : Bytes) (k : Bytes) :
    (d.insert key value).find k = if k = key then some ((d.find key).getD value) else d.find k := by
  unfold Dict.insert
  split
  next present =>
    obtain ⟨v, found⟩ := Option.isSome_iff_exists.mp present
    split
    next same => rw [same, found]; rfl
    next => rfl
  next absent =>
    rw [Option.not_isSome_iff_eq_none] at absent
    simp only [Dict.find, List.lookup_append] at absent ⊢
    split
    next same => simp [same, absent]
    next other => simp [List.lookup_cons, beq_false_of_ne other]

def Dict.inserts (d : Dict) (entries : List (Bytes × Bytes)) : Dict :=
  entries.foldl (fun d entry => Dict.insert d entry.1 entry.2) d

/-- The first entry of a key stays. -/
theorem Dict.find_inserts (entries : List (Bytes × Bytes)) (d : Dict) (k : Bytes) :
    (d.inserts entries).find k = (d.find k).or (entries.lookup k) := by
  induction entries generalizing d with
  | nil => simp [inserts]
  | cons entry rest ih =>
    have step : d.inserts (entry :: rest) = (d.insert entry.1 entry.2).inserts rest := rfl
    rw [step, ih, find_insert, List.lookup_cons]
    by_cases same : k = entry.1
    · subst same
      cases d.find entry.1 <;> simp
    · simp [same, beq_false_of_ne same]

theorem volumnsidText_ne_nil (n : Nat) : volumnsidText n ≠ [] := by
  unfold volumnsidText
  split <;> simp [decimal_ne_nil]

theorem notMem_volumnsidText {c : UInt8} (noDigit : isDigit c = false) (noLetter : c ≠ 77) (n : Nat) :
    c ∉ volumnsidText n := by
  have digits : c ∉ decimal n := fun mem => absurd (isDigit_of_mem_decimal mem) (by simp [noDigit])
  have noZero : c ≠ 48 := by
    rintro rfl
    cases noDigit
  have short : ascii "M0" = [77, 48] := by decide
  have long : ascii "M" = [77] := by decide
  unfold volumnsidText
  split
  · simp [short, noLetter, noZero, digits]
  · simp [long, noLetter, digits]

theorem volumnsDictFrom_keys {conf : Conf} {fuel volumnsid : Nat} {dict table : Dict}
    (built : volumnsDictFrom conf fuel volumnsid dict = some table)
    (known : ∀ key v, dict.find key = some v → ∃ n, key = volumnsidText n) :
    ∀ key v, table.find key = some v → ∃ n, key = volumnsidText n := by
  induction fuel generalizing volumnsid dict with
  | zero => cases built
  | succ fuel ih =>
    rw [volumnsDictFrom] at built
    split at built
    next => cases built; exact known
    next =>
      apply ih built
      intro key v found
      rw [Dict.find_insert] at found
      split at found
      next same => exact ⟨_, same⟩
      next => exact known key v found

theorem storeFolders_spec (mem : folder ∈ storeFolders) : folder ≠ [] ∧ slash ∉ folder := by
  have all : ∀ folder ∈ storeFolders, folder ≠ [] ∧ slash ∉ folder := by decide +kernel
  exact all folder mem

def fileIn (ret : StorageVolumnObject) (name : Bytes) : StorageFileObject where
  globalFileid := globalId ret name
  physicalStorePath := ret.volumnstr ++ slash :: ret.subdir ++ slash :: name
  grpid := ret.grpid
  volumnid := ret.volumnid
  volumnstr := ret.volumnstr
  subdir := ret.subdir

/-- The ids formed for the files of a store folder are converted back to that
folder, and to the path that was scanned joined with the name. -/
theorem strfileid_of_scanned (conf : Conf) (fuel : Nat) (table : Dict) (groupId volumnsid : Bytes)
    (objects : List StorageVolumnObject) (built : getVolumnsDict conf fuel = some table)
    (filled : groupId ≠ []) (free : slash ∉ groupId)
    (listed : getStoreFolderByOrder table groupId volumnsid = some objects) :
    ∀ ret ∈ objects, ∀ filelist : List Bytes, (∀ name ∈ filelist, name ≠ [] ∧ slash ∉ name) →
      (getGlobalIdByFilelist filelist ret).map (strfileid2StorageFileObject table) =
        filelist.map fun name => some (fileIn ret name) := by
  intro ret mem filelist names
  unfold getStoreFolderByOrder at listed
  split at listed
  next => cases listed
  next volumnstr found =>
    cases listed
    obtain ⟨first, inFolders, mem⟩ := List.mem_flatMap.mp mem
    obtain ⟨second, inFolders', rfl⟩ := List.mem_map.mp mem
    obtain ⟨n, rfl⟩ := volumnsDictFrom_keys built (by simp [Dict.find]) volumnsid volumnstr found
    obtain ⟨someFirst, freeFirst⟩ := storeFolders_spec inFolders
    obtain ⟨someSecond, freeSecond⟩ := storeFolders_spec inFolders'
    rw [getGlobalIdByFilelist, List.map_map]
    apply List.map_congr_left
    intro name mem
    obtain ⟨someName, freeName⟩ := names name mem
    simp only [Function.comp, globalId, strfileid2StorageFileObject, List.append_assoc, List.cons_append]
    rw [split_cons filled free, split_cons (volumnsidText_ne_nil n) (notMem_volumnsidText (by decide) (by decide) n),
      split_cons someFirst freeFirst, split_cons someSecond freeSecond, split_single someName freeName]
    simp only [found, Option.getD_some, StorageFileObject.ofVolumn, fileIn, globalId, Option.some.injEq,
      StorageFileObject.mk.injEq, List.append_assoc, List.cons_append, true_and, and_true]
    have finder : groupId ++ slash :: (volumnsidText n ++ slash :: (first ++ slash :: (second ++ slash :: name))) =
        (groupId ++ slash :: volumnsidText n) ++ slash :: (first ++ slash :: (second ++ slash :: name)) := by
      simp
    rw [finder, List.drop_left]

/-- One volume at `/d`. -/
theorem strfileid_of_scanned_sample : ∃ table objects,
    getVolumnsDict (fun name => if name = ascii "store_path0" then ascii "/d" else []) 2 = some table ∧
      getStoreFolderByOrder table (ascii "g1") (ascii "M00") = some objects ∧
        ∀ ret ∈ objects, (getGlobalIdByFilelist [ascii "x.jpg"] ret).map
          (strfileid2StorageFileObject table) = [some (fileIn ret (ascii "x.jpg"))] := by
  refine ⟨[(ascii "M00", ascii "/d/data")], _, by decide +kernel, rfl, fun ret mem => ?_⟩
  exact strfileid_of_scanned (fun name => if name = ascii "store_path0" then ascii "/d" else []) 2
    [(ascii "M00", ascii "/d/data")] (ascii "g1") (ascii "M00") _ (by decide +kernel) (by decide)
    (by decide) rfl ret mem [ascii "x.jpg"] (by decide)

end Fdfs2qq.Box
