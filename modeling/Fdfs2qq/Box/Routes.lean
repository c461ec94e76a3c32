import Fdfs2qq.Box.StorageConfig

/-! The two routes from a file id to a path. The producer builds the path from
the components of the id, the consumer replaces the front of the id. -/
namespace Fdfs2qq.Box

variable {fileid grpid volumnid first second name : Bytes}

/-- The consumer's route. -/
theorem strfileid_of_five (volumnsDict : Dict) (five : split fileid slash = [grpid, volumnid, first, second, name]) :
    strfileid2StorageFileObject volumnsDict fileid = some
      { globalFileid := fileid, grpid := grpid, volumnid := volumnid, subdir := first ++ slash :: second
        volumnstr := (volumnsDict.find volumnid).getD []
        physicalStorePath :=
          (volumnsDict.find volumnid).getD [] ++ fileid.drop (grpid.length + 1 + volumnid.length) } := by
  simp only [strfileid2StorageFileObject, five, StorageFileObject.ofVolumn, List.length_append,
    List.length_cons, Nat.add_assoc, Nat.add_comm 1]

/-- The producer's route. -/
theorem ofText_of_five (volumnstr : Bytes) (five : split fileid slash = [grpid, volumnid, first, second, name]) :
    StorageFileObject.ofText fileid volumnstr =
      { globalFileid := fileid, grpid := grpid, volumnid := volumnid, subdir := first ++ slash :: second
        volumnstr := volumnstr
        physicalStorePath := if volumnstr = [] then []
          else volumnstr ++ slash :: (first ++ slash :: second) ++ slash :: name } := by
  simp only [StorageFileObject.ofText, five]

/-- The front that is replaced ends where the folder begins, so nothing but
single separators is in the id. -/
theorem implode_of_drop (five : split fileid slash = [grpid, volumnid, first, second, name])
    (tail : fileid.drop (grpid.length + 1 + volumnid.length) = slash :: (first ++ slash :: second) ++ slash :: name) :
    implode slash [grpid, volumnid, first, second, name] = fileid := by
  have length := congrArg List.length tail
  have pieces := @implode_split fileid slash
  rw [five] at pieces
  apply pieces
  simp only [List.length_drop, List.length_append, List.length_cons] at length
  simp only [List.map_cons, List.map_nil, List.sum_cons, List.sum_nil]
  omega

/-- The two routes agree exactly on the ids that are their components joined,
and only while the volume has a path. -/
theorem routes_agree_iff (volumnsDict : Dict) (fileid grpid volumnid first second name : Bytes)
    (five : split fileid slash = [grpid, volumnid, first, second, name]) :
    strfileid2StorageFileObject volumnsDict fileid =
        some (.ofText fileid ((volumnsDict.find volumnid).getD [])) ↔
      (∃ path, volumnsDict.find volumnid = some path ∧ path ≠ []) ∧
        implode slash [grpid, volumnid, first, second, name] = fileid := by
  rw [strfileid_of_five volumnsDict five, ofText_of_five _ five]
  simp only [Option.some.injEq, StorageFileObject.mk.injEq, true_and, and_true]
  constructor
  · intro same
    split at same
    next unknown =>
      -- the folder and the name stay behind the front that is replaced
      rw [unknown, List.nil_append, List.drop_eq_nil_iff] at same
      have whole := sum_split_le fileid slash
      simp only [five, List.map_cons, List.map_nil, List.sum_cons, List.sum_nil] at whole
      omega
    next known =>
      rw [List.append_assoc, List.append_cancel_left_eq] at same
      refine ⟨?_, implode_of_drop five same⟩
      cases found : volumnsDict.find volumnid with
      | none => rw [found] at known; contradiction
      | some path => exact ⟨path, rfl, by rw [found] at known; exact known⟩
  · rintro ⟨⟨path, found, filled⟩, joined⟩
    have front : fileid = (grpid ++ slash :: volumnid) ++
        (slash :: (first ++ slash :: second) ++ slash :: name) := by
      simp [← joined, implode]
    have length : grpid.length + 1 + volumnid.length = (grpid ++ slash :: volumnid).length := by
      simp only [List.length_append, List.length_cons]
      omega
    rw [found, Option.getD_some, if_neg filled, front, length, List.drop_left, List.append_assoc]

/-- A file of the volume at `/d/data`. -/
theorem routes_agree_sample :
    strfileid2StorageFileObject [(ascii "M00", ascii "/d/data")] (ascii "g/M00/00/1F/x") =
      some (.ofText (ascii "g/M00/00/1F/x") (ascii "/d/data")) :=
  (routes_agree_iff [(ascii "M00", ascii "/d/data")] (ascii "g/M00/00/1F/x") (ascii "g") (ascii "M00")
    (ascii "00") (ascii "1F") (ascii "x") (by decide +kernel)).mpr
    ⟨⟨ascii "/d/data", by decide, by decide⟩, by decide⟩

/-- A volume that is not in the table: the consumer's path is not empty. -/
theorem not_routes_agree :
    split (ascii "g/M07/00/1F/x") slash = [ascii "g", ascii "M07", ascii "00", ascii "1F", ascii "x"] ∧
      (strfileid2StorageFileObject [(ascii "M00", ascii "/d/data")] (ascii "g/M07/00/1F/x")).map
        StorageFileObject.physicalStorePath = some (ascii "/00/1F/x") ∧
      strfileid2StorageFileObject [(ascii "M00", ascii "/d/data")] (ascii "g/M07/00/1F/x") ≠
        some (.ofText (ascii "g/M07/00/1F/x")
          ((Dict.find [(ascii "M00", ascii "/d/data")] (ascii "M07")).getD [])) := by
  decide +kernel

end Fdfs2qq.Box
