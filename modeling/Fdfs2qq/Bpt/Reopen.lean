import Fdfs2qq.Bpt.ImageBytes
import Fdfs2qq.Lib.Ensures

/-! The meta block on disk after every call, and the tree that is opened on the
file again. -/
namespace Fdfs2qq.Bpt
open Lib

namespace BPlusTree

/-- The meta block on disk is the one in memory. -/
def Saved (t : BPlusTree Image) : Prop := t.file.stored = some t.info

/-- As long as no node is written over it. -/
def Kept (t : BPlusTree Image) : Prop := t.file.spoilt = false → t.Saved

section Primitives

variable {t : BPlusTree Image}

theorem stored_writeMeta {f : Image} {m : Meta} (fits : m.Fits) : (BlockFile.writeMeta f m).stored = some m := by
  have bytes : (BlockFile.writeMeta f m).bytes = (f.write 0 offsetBlock (fieldBytes m.fields)).bytes := rfl
  have long : offsetBlock ≤ (BlockFile.writeMeta f m).length :=
    (Nat.le_of_eq (Nat.zero_add _).symm).trans (Nat.le_max_right ..)
  have whole : bytesAt (f.write 0 offsetBlock (fieldBytes m.fields)).bytes 0 offsetBlock =
      bytesAt (fieldBytes m.fields) 0 offsetBlock := Image.bytesAt_write_inside (Nat.zero_add offsetBlock).le
  have size : 8 * m.fields.length = offsetBlock := rfl
  rw [Image.stored, if_pos long, bytes, whole, bytesAt_fieldBytes size, metaOf_fieldBytes fits]

theorem unmapMeta_kept : t.unmapMeta.Kept := by
  intro clean
  obtain ⟨-, fits⟩ := Bool.or_eq_false_iff.mp clean
  have fits : t.info.Fits := by simpa using fits
  unfold Saved unmapMeta
  dsimp only
  exact stored_writeMeta fits

/-- A node is written behind the meta block, or the file is spoilt. -/
theorem Kept.write (kept : t.Kept) {off len new length : Nat} (longer : t.file.length ≤ length) :
    Kept { t with file := { t.file.write off len new with length := length } } := by
  intro clean
  obtain ⟨clean, above⟩ := Bool.or_eq_false_iff.mp clean
  have above : offsetBlock ≤ off := by simpa using above
  have saved := kept clean
  have long : offsetBlock ≤ t.file.length := by
    by_contra short
    simp [Saved, Image.stored, short] at saved
  have same : ({ t.file.write off len new with length := length } : Image).stored = t.file.stored := by
    rw [Image.stored, Image.stored, if_pos long, if_pos (long.trans longer)]
    exact congrArg (fun bytes => some (metaOf bytes))
      (Image.bytesAt_write_apart (.inl ((Nat.zero_add offsetBlock).trans_le above)))
  exact same.trans saved

theorem Kept.unmap {α : Type} [NodeType α] (kept : t.Kept) (node : Node α) (off : Offset) :
    (t.unmap node off).Kept := kept.write ((Nat.le_max_left ..).trans (Nat.le_max_left ..))

theorem Kept.rewriteHeader (kept : t.Kept) : Ensures (t.rewriteHeader off change) Kept := by
  intro t' rewritten
  cases read : t.file.read off sizeNoChildren with
  | error => simp [BPlusTree.rewriteHeader, BlockFile.changeHeader, read, bind, Except.bind, Except.map] at rewritten
  | ok bytes =>
    simp only [BPlusTree.rewriteHeader, BlockFile.changeHeader, read, bind, Except.bind, Except.map,
      Except.ok.injEq] at rewritten
    subst rewritten
    exact kept.write (Nat.le_max_left ..)

theorem Kept.resetIndexChildrenParent (kept : t.Kept) :
    Ensures (t.resetIndexChildrenParent slots parent) Kept := by
  induction slots generalizing t with
  | nil => exact .ok kept
  | cons slot rest ih => exact kept.rewriteHeader.bind fun _ kept => ih kept

theorem nodeCreate_kept {α : Type} [NodeType α] {node : Node α} :
    Ensures (t.nodeCreate off node) fun r => r.1.Kept :=
  .after fun _ => .pure unmapMeta_kept

theorem nodeRemove_kept {α : Type} [NodeType α] {prev node : Node α} :
    Ensures (t.nodeRemove prev node) fun r => r.1.Kept :=
  .after fun _ => .pure unmapMeta_kept

end Primitives

section Calls

variable {t : BPlusTree Image} (kept : t.Kept)
include kept

theorem Kept.update : Ensures (t.update key value) fun r => r.2.Kept := by
  refine .after fun offset => .after fun leaf => ?_
  dsimp only
  split
  · exact .ite (fun _ => .pure (kept.unmap _ _)) fun _ => .pure kept
  · exact .pure kept

omit kept in
theorem createRoot_kept : Ensures (t.createRoot key old after) Kept :=
  (unmapMeta_kept.unmap _ _).resetIndexChildrenParent

theorem Kept.insertKeyToIndex : Ensures (t.insertKeyToIndex off key old after fuel) Kept := by
  induction fuel generalizing t off key old after with
  | zero => exact .ite (fun _ => createRoot_kept) fun _ => .error
  | succ fuel ih =>
    refine .ite (fun _ => createRoot_kept) fun _ => .after fun node => .ite (fun _ => ?_) fun _ => .error
    refine .ite (fun _ => ?_) fun _ => .after fun node => .pure (kept.unmap node off)
    refine nodeCreate_kept.bind fun ⟨t, node, newNode⟩ kept => .after fun ⟨middle, node, newNode⟩ => ?_
    exact ((kept.unmap _ _).unmap _ _).resetIndexChildrenParent.bind fun _ kept => ih kept

theorem Kept.insert : Ensures (t.insert key value) fun r => r.2.Kept := by
  refine .after fun parent => .after fun offset => .after fun leaf => .ite (fun _ => .pure kept) fun _ => ?_
  refine .ite (fun _ => ?_) fun _ => .after fun leaf => .pure (kept.unmap leaf offset)
  refine nodeCreate_kept.bind fun ⟨t, leaf, newLeaf⟩ kept => .after fun ⟨leaf, newLeaf⟩ => ?_
  refine .after fun first => ?_
  exact ((kept.unmap _ _).unmap _ _).insertKeyToIndex.bind fun _ kept => .pure kept

theorem Kept.changeParentChild : Ensures (t.changeParentChild parent o n fuel) Kept := by
  induction fuel generalizing t parent with
  | zero => exact .error
  | succ fuel ih =>
    exact .after fun node => .after fun slot =>
      .ite (fun _ => ih (kept.unmap _ _)) fun _ => .pure (kept.unmap _ _)

theorem Kept.borrowRecord : Ensures (t.borrowRecord fromRight borrower) fun r => r.2.1.Kept := by
  refine .after fun lender => .ite (fun _ => .ite (fun _ => ?_) fun _ => .pure kept) fun _ => .error
  refine .after fun lent => .ite (fun _ => ?_) fun _ => ?_
  · exact .after fun first => .after fun second => kept.changeParentChild.bind fun _ kept =>
      .after fun slots => .pure (kept.unmap _ _)
  · exact .after fun first => kept.changeParentChild.bind fun _ kept =>
      .after fun slots => .pure (kept.unmap _ _)

theorem Kept.borrowIndex : Ensures (t.borrowIndex fromRight borrower off) fun r => r.2.1.Kept := by
  refine .after fun lender => .ite (fun _ => .ite (fun _ => ?_) fun _ => .pure kept) fun _ => .error
  refine .after fun lent => .ite (fun _ => .after fun parent => ?_) fun _ => .after fun parent => ?_
  · refine .after fun last => .after fun slot => .bind (P := fun r => r.1.Kept)
      (.pure (kept.unmap _ _)) fun ⟨t, borrower⟩ kept => .after fun slots => ?_
    exact kept.resetIndexChildrenParent.bind fun _ kept => .pure (kept.unmap _ _)
  · refine .after fun first => .after fun slot => .after fun before => .bind (P := fun r => r.1.Kept)
      (.pure (kept.unmap _ _)) fun ⟨t, borrower⟩ kept => .after fun slots => ?_
    exact kept.resetIndexChildrenParent.bind fun _ kept => .pure (kept.unmap _ _)

theorem Kept.borrowFromSiblings :
    Ensures (t.borrowFromSiblings node off first last) fun r => r.2.1.Kept := by
  refine .ite (fun _ => kept.borrowIndex.bind fun ⟨borrowed, t, node⟩ kept => ?_) fun _ => ?_
  all_goals exact .ite (fun _ => kept.borrowIndex) fun _ => .pure kept

theorem Kept.borrowFromNeighbours :
    Ensures (t.borrowFromNeighbours leaf) fun r => r.2.1.Kept := by
  refine .ite (fun _ => kept.borrowRecord.bind fun ⟨borrowed, t, leaf⟩ kept => ?_) fun _ => ?_
  all_goals exact .ite (fun _ => kept.borrowRecord) fun _ => .pure kept

omit kept in
theorem mergeIndex_kept : Ensures (t.mergeIndex node off last) Kept := by
  refine .ite (fun _ => .ite (fun _ => .ite (fun _ => ?_) fun _ => .error)
    fun _ => .ite (fun _ => ?_) fun _ => .error) fun _ => .error
  all_goals
    refine .after fun other => .after fun t => .bind (P := fun r => r.1.Kept)
      (.after fun slots => nodeRemove_kept) fun ⟨t, merged⟩ kept => .pure (kept.unmap _ _)

omit kept in
theorem mergeLeaf_kept : Ensures (t.mergeLeaf leaf off isLast) fun r => r.1.Kept := by
  refine .ite (fun _ => .ite (fun _ => .ite (fun _ => ?_) fun _ => .error)
    fun _ => .ite (fun _ => ?_) fun _ => .error) fun _ => .error
  all_goals
    exact .after fun other => .after fun first => .after fun merged => nodeRemove_kept.bind
      fun ⟨t, merged⟩ kept => .pure (kept.unmap _ _)

theorem Kept.removeFromIndex : Ensures (t.removeFromIndex off node key fuel) Kept := by
  induction fuel generalizing t off node key with
  | zero => exact .error
  | succ fuel ih =>
    refine .ite (fun _ => .after fun first => .after fun slots => ?_) fun _ => .error
    refine .ite (fun _ => .after fun only => .pure unmapMeta_kept) fun _ => ?_
    refine .ite (fun _ => .after fun parent => .after fun first => .after fun last => ?_)
      fun _ => .pure (kept.unmap _ _)
    refine kept.borrowFromSiblings.bind fun ⟨borrowed, t, node⟩ kept =>
      .ite (fun _ => .pure (kept.unmap _ _)) fun _ => ?_
    exact mergeIndex_kept.bind fun _ kept => ih kept

theorem Kept.remove : Ensures (t.remove key) fun r => r.2.Kept := by
  refine .after fun parentOff => .after fun parent => .after fun slot => .after fun leaf => ?_
  refine .ite (fun _ => .ite (fun _ => .ite (fun _ => ?_) fun _ => .pure (kept.unmap _ _)) fun _ => .error)
    fun _ => .pure kept
  refine kept.borrowFromNeighbours.bind fun ⟨borrowed, t, leaf⟩ kept =>
    .ite (fun _ => .pure (kept.unmap _ _)) fun _ => ?_
  exact mergeLeaf_kept.bind fun ⟨t, indexKey⟩ kept => kept.removeFromIndex.bind fun _ kept => .pure kept

/-- No call leaves its changes of the meta in memory only. -/
theorem Kept.call : Ensures (t.call c) fun r => r.2.Kept := by
  cases c with
  | insert => exact kept.insert.bind fun _ kept => .pure kept
  | update => exact kept.update.bind fun _ kept => .pure kept
  | remove => exact kept.remove.bind fun _ kept => .pure kept
  | search => exact .after fun _ => .pure kept

omit kept in
/-- A tree opened on the file is the same object. -/
theorem Saved.create (saved : t.Saved) (clean : t.file.spoilt = false) :
    create t.file false = t := by
  have same : ({ t.file with spoilt := false } : Image) = t.file := by rw [← clean]
  unfold BPlusTree.create
  rw [saved]
  exact congrArg _ same

end Calls

theorem create_kept (f : Image) (forceEmpty : Bool) : (create f forceEmpty).Kept := by
  unfold create
  split
  next stored => exact fun _ => stored
  next => exact (unmapMeta_kept.unmap _ _).unmap _ _

def trace (t : BPlusTree Image) : List Call → Except Fault (List (Answer × Image))
  | [] => .ok []
  | c :: rest => do
    let (answer, t) ← t.call c
    return (answer, t.file) :: (← t.trace rest)

/-- No node is written below `OFFSET_BLOCK` in the call, and no number of more than 64 bits into the meta. -/
def Spares (t : BPlusTree Image) (c : Call) : Prop := ∀ r, t.call c = .ok r → r.2.file.spoilt = false

instance (t : BPlusTree Image) : Decidable t.Saved :=
  inferInstanceAs (Decidable (t.file.stored = some t.info))

instance (t : BPlusTree Image) (c : Call) : Decidable (t.Spares c) :=
  match returned : t.call c with
  | .error _ => isTrue fun r same => by rw [returned] at same; contradiction
  | .ok r => decidable_of_iff (r.2.file.spoilt = false)
      ⟨fun clean r' same => by cases returned.symm.trans same; exact clean, fun spares => spares r returned⟩

def opened : BPlusTree Image := create { bytes := 0, length := 0, spoilt := false } true

end BPlusTree

def splitting : List Call := (List.range 21).map (fun i => .insert (Packed.number i) 0) ++
  [.update (Packed.number 20) 7, .remove (Packed.number 0)]

namespace BPlusTree

end BPlusTree

/-- Calls after which the root is a leaf, and a last one. The two internal nodes are
merged and the root above them is dropped; the node that is left is split under the
dropped root, and is the root without its other half; it loses all its leaves but one,
and the tree has no internal level. The leaf is then read as an internal node, in which
the value of the key 140 and the record behind it stand for a slot with the child 0. -/
def spoiling : List Call :=
  (List.range 231).map (fun i => .insert (Packed.number i) (if i = 140 then 0x01010101 else 0)) ++
    ([0, 11, 1, 33, 44, 55, 45] : List Nat).map (fun i => .remove (Packed.number i)) ++
    (List.range 21).map (fun i => .insert (Packed.number (231 + i)) 0) ++
    ((List.range 124).filter (· ∉ [0, 11, 1, 33, 44, 55, 45])).map (fun i => .remove (Packed.number i)) ++
    [.insert (Packed.number 130) 0]

namespace BPlusTree

end BPlusTree
end Fdfs2qq.Bpt
