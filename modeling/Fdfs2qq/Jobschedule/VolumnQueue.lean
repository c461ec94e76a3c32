import Fdfs2qq.Jobschedule.ProducerCli

/-! The messages of the volume queue. A store folder that was put into the queue
as a text is read back field by field, and dropped where a field is empty. -/
namespace Fdfs2qq.Jobschedule
open Box

def fields (o : StorageVolumnObject) : List Bytes := [o.grpid, o.volumnid, o.volumnstr, o.subdir]

/-- Only a message of four pieces is an object. -/
theorem stringToStorageVolumnObject_of_length_ne {msgstr : Bytes}
    (pieces : (split msgstr boxKvSeperator).length ≠ 4) : stringToStorageVolumnObject msgstr = .empty := by
  unfold stringToStorageVolumnObject
  split
  next found => simp [found] at pieces
  next => rfl

theorem split_toText {o : StorageVolumnObject} (free : ∀ field ∈ fields o, boxKvSeperator ∉ field) :
    split o.toText boxKvSeperator = (fields o).filter (· ≠ []) := split_implode free

theorem read_of_filled {o : StorageVolumnObject} (free : ∀ field ∈ fields o, boxKvSeperator ∉ field)
    (filled : ∀ field ∈ fields o, field ≠ []) :
    stringToStorageVolumnObject o.toText = { o with isvalid := true } := by
  have pieces := split_toText free
  rw [List.filter_eq_self.mpr fun field mem => decide_eq_true (filled field mem)] at pieces
  simp only [stringToStorageVolumnObject, pieces, fields]

theorem read_of_empty {o : StorageVolumnObject} (free : ∀ field ∈ fields o, boxKvSeperator ∉ field)
    (gap : ∃ field ∈ fields o, field = []) : stringToStorageVolumnObject o.toText = .empty := by
  obtain ⟨field, mem, gap⟩ := gap
  have fewer : ((fields o).filter (· ≠ [])).length < (fields o).length :=
    List.length_filter_lt_length_iff_exists.mpr ⟨field, mem, by simpa using gap⟩
  apply stringToStorageVolumnObject_of_length_ne
  rw [split_toText free]
  exact Nat.ne_of_lt fewer

/-- Pieces without the separator are split as they were joined, but for the empty
ones; so a store folder comes out of the queue as it went in, or is skipped. -/
theorem split_implode_toText (c : UInt8) (v : List Bytes) (apart : ∀ s ∈ v, c ∉ s)
    (o : StorageVolumnObject) (free : ∀ field ∈ fields o, boxKvSeperator ∉ field) :
    splitLoop (implode c v) c 0 [] = v.filter (· ≠ []) ∧
      ((stringToStorageVolumnObject o.toText).isvalid ↔ ∀ field ∈ fields o, field ≠ []) ∧
      ((stringToStorageVolumnObject o.toText).isvalid →
        stringToStorageVolumnObject o.toText = { o with isvalid := true }) ∧
      (WaitProducer.popped o.toText = .exitTest ↔ ∃ field ∈ fields o, field = []) := by
  refine ⟨(splitLoop_eq _ c).trans (split_implode apart), ?_⟩
  by_cases filled : ∀ field ∈ fields o, field ≠ []
  · have full : ¬ ∃ field ∈ fields o, field = [] := fun ⟨field, mem, gap⟩ => filled field mem gap
    rw [WaitProducer.popped, read_of_filled free filled, iff_false_right full]
    exact ⟨iff_of_true rfl filled, fun _ => rfl, nofun⟩
  · have gap : ∃ field ∈ fields o, field = [] := by simpa using filled
    rw [WaitProducer.popped, read_of_empty free gap, iff_true_right gap]
    exact ⟨iff_of_false (by decide) filled, fun valid => absurd valid (by decide), rfl⟩

/-- A folder of the volume at `/d/data`. -/
theorem split_implode_toText_sample :
    splitLoop (implode boxKvSeperator [[], ascii "a", []]) boxKvSeperator 0 [] = [ascii "a"] ∧
      stringToStorageVolumnObject (⟨true, ascii "g", ascii "M00", ascii "/d/data", ascii "00/1F"⟩ :
        StorageVolumnObject).toText = ⟨true, ascii "g", ascii "M00", ascii "/d/data", ascii "00/1F"⟩ := by
  have both := split_implode_toText boxKvSeperator [[], ascii "a", []] (by decide)
    ⟨true, ascii "g", ascii "M00", ascii "/d/data", ascii "00/1F"⟩ (by decide)
  exact ⟨both.1, both.2.2.1 (both.2.1.mpr (by decide))⟩

end Fdfs2qq.Jobschedule
