import Fdfs2qq.Bpt.CallProofs
import Fdfs2qq.Lib.Ensures

/-! The elements of a node's array that calls touch. A node has at most
`BP_ORDER` live slots, whatever calls were made. -/
namespace Fdfs2qq.Bpt
open Lib

abbrev Fitting (slots : List α) : Prop := slots.length ≤ bpOrder

theorem openSlot_fitting {slots : List α} : Ensures (openSlot slots i slot) Fitting := by
  refine .ite (fun room => .ok ?_) fun _ => .error
  exact List.length_insertIdx_le_succ.trans room

theorem appendSlots_fitting {left right : List α} : Ensures (appendSlots left right) Fitting :=
  .ite (fun room => .ok (by simpa using room)) fun _ => .error

theorem deleteEntry_fitting (fits : Fitting slots) : Ensures (deleteEntry slots i) Fitting := by
  refine .after fun deleted => .ite (fun _ => .pure ?_) fun _ => .error
  apply (List.length_eraseIdx_le _ _).trans
  rwa [List.length_modify]

namespace BPlusTree

/-- No node in the file has more slots than its array. -/
def Capped (t : BPlusTree) : Prop := ∀ off, ∀ b ∈ t.file.get off, b.body.count ≤ bpOrder

section Primitives

variable {t : BPlusTree}

theorem Capped.mapIndex (capped : t.Capped) : Ensures (t.map Index off) fun node => Fitting node.children := by
  intro node read
  have found := t.get_of_map_internal (show node ∈ (t.map Index off).toOption by rw [read]; rfl)
  exact capped off _ found

theorem Capped.mapRecord (capped : t.Capped) :
    Ensures (t.map Record off) fun node => Fitting node.children := by
  intro node read
  have found := t.get_of_map_leaf (show node ∈ (t.map Record off).toOption by rw [read]; rfl)
  exact capped off _ found

theorem Capped.put (capped : t.Capped) (fits : block.body.count ≤ bpOrder) :
    Capped { t with file := t.file.put off block } := by
  intro o b found
  rw [File.get_put] at found
  split at found
  · obtain rfl := Option.some.inj found
    exact fits
  · exact capped o b found

theorem Capped.unmapIndex (capped : t.Capped) {node : Node Index} (fits : Fitting node.children)
    (off : Offset) : (t.unmap node off).Capped := capped.put fits

theorem Capped.unmapRecord (capped : t.Capped) {node : Node Record} (fits : Fitting node.children)
    (off : Offset) : (t.unmap node off).Capped := capped.put fits

theorem Capped.rewriteHeader (capped : t.Capped) : Ensures (t.rewriteHeader off change) Capped := by
  rw [BPlusTree.rewriteHeader_eq]
  split
  · exact .error
  next b found => exact .ok (capped.put (capped off b found))

theorem Capped.resetIndexChildrenParent (capped : t.Capped) :
    Ensures (t.resetIndexChildrenParent slots parent) Capped := by
  induction slots generalizing t with
  | nil => exact .ok capped
  | cons slot rest ih => exact capped.rewriteHeader.bind fun _ capped => ih capped

theorem Capped.relinkPrev (capped : t.Capped) : Ensures (t.relinkPrev neighbour prev) Capped :=
  .ite (fun _ => capped.rewriteHeader) fun _ => .ok capped

theorem Capped.nodeCreate {α : Type} [NodeType α] (capped : t.Capped) {node : Node α} :
    Ensures (t.nodeCreate off node) fun r => r.1.Capped ∧ r.2.1.children = node.children :=
  (Capped.relinkPrev (t := (t.alloc α).2) capped).bind fun _ capped => .pure ⟨capped, rfl⟩

theorem Capped.nodeRemove {α : Type} [NodeType α] (capped : t.Capped) {prev node : Node α} :
    Ensures (t.nodeRemove prev node) fun r => r.1.Capped ∧ r.2.children = prev.children :=
  (Capped.relinkPrev (t := t.unalloc α) capped).bind fun _ capped => .pure ⟨capped, rfl⟩

end Primitives

section Insertion

variable {t : BPlusTree}

theorem insertRecordNoSplit_fitting :
    Ensures (insertRecordNoSplit leaf key value) fun leaf => Fitting leaf.children :=
  openSlot_fitting.bind fun _ fits => .pure fits

theorem insertKeyToIndexNoSplit_fitting :
    Ensures (insertKeyToIndexNoSplit node key value) fun node => Fitting node.children := by
  refine .after fun displaced => openSlot_fitting.bind fun slots fits => .pure ?_
  show List.length _ ≤ bpOrder
  rwa [List.length_modify]

theorem splitLeaf_fitting (fits : Fitting leaf.children) : Ensures (splitLeaf leaf newLeaf key value)
    fun halves => Fitting halves.1.children ∧ Fitting halves.2.children := by
  refine .after fun ⟨point, placeRight⟩ => .ite (fun _ => ?_) fun _ => ?_
  · exact insertRecordNoSplit_fitting.bind fun _ right =>
      .pure ⟨(List.take_sublist _ _).length_le.trans fits, right⟩
  · exact insertRecordNoSplit_fitting.bind fun _ left =>
      .pure ⟨left, (List.drop_sublist _ _).length_le.trans fits⟩

theorem splitIndex_fitting (fits : Fitting node.children) : Ensures (splitIndex node newNode key after)
    fun halves => Fitting halves.2.1.children ∧ Fitting halves.2.2.children := by
  refine .after fun ⟨point, placeRight⟩ => .after fun middle => .ite (fun _ => ?_) fun _ => ?_
  · exact insertKeyToIndexNoSplit_fitting.bind fun _ right =>
      .pure ⟨(List.take_sublist _ _).length_le.trans fits, right⟩
  · exact insertKeyToIndexNoSplit_fitting.bind fun _ left =>
      .pure ⟨left, (List.drop_sublist _ _).length_le.trans fits⟩

variable (capped : t.Capped)
include capped

theorem Capped.createRoot : Ensures (t.createRoot key old after) Capped :=
  Capped.resetIndexChildrenParent (t := unmap _ _ _)
    (Capped.unmapIndex (t := unmapMeta _) capped (Nat.le_of_ble_eq_true rfl) _)

theorem Capped.insertKeyToIndex : Ensures (t.insertKeyToIndex off key old after fuel) Capped := by
  induction fuel generalizing t off key old after with
  | zero => exact .ite (fun _ => capped.createRoot) fun _ => .error
  | succ fuel ih =>
    refine .ite (fun _ => capped.createRoot) fun _ => capped.mapIndex.bind fun node fits =>
      .ite (fun _ => ?_) fun _ => .error
    refine .ite (fun _ => ?_) fun _ => insertKeyToIndexNoSplit_fitting.bind fun node fits =>
      .pure (capped.unmapIndex fits off)
    refine capped.nodeCreate.bind fun ⟨t, node, newNode⟩ ⟨capped, same⟩ => ?_
    refine (splitIndex_fitting (same ▸ fits)).bind fun ⟨middle, node, newNode⟩ ⟨left, right⟩ => ?_
    exact ((capped.unmapIndex left _).unmapIndex right _).resetIndexChildrenParent.bind fun _ capped =>
      ih capped

theorem Capped.insert : Ensures (t.insert key value) fun r => r.2.Capped := by
  refine .after fun parent => .after fun offset => capped.mapRecord.bind fun leaf fits =>
    .ite (fun _ => .pure capped) fun _ => ?_
  refine .ite (fun _ => ?_) fun _ => insertRecordNoSplit_fitting.bind fun leaf fits =>
    .pure (capped.unmapRecord fits offset)
  refine capped.nodeCreate.bind fun ⟨t, leaf, newLeaf⟩ ⟨capped, same⟩ => ?_
  refine (splitLeaf_fitting (same ▸ fits)).bind fun ⟨leaf, newLeaf⟩ ⟨left, right⟩ => .after fun first => ?_
  exact ((capped.unmapRecord left _).unmapRecord right _).insertKeyToIndex.bind fun _ capped => .pure capped

theorem Capped.update : Ensures (t.update key value) fun r => r.2.Capped := by
  refine .after fun offset => capped.mapRecord.bind fun leaf fits => ?_
  dsimp only
  split
  · exact .ite (fun _ => .pure (capped.unmapRecord (by simpa using fits) _)) fun _ => .pure capped
  · exact .pure capped

end Insertion

section Removal

variable {t : BPlusTree} (capped : t.Capped)
include capped

theorem Capped.changeParentChild : Ensures (t.changeParentChild parent o n fuel) Capped := by
  induction fuel generalizing t parent with
  | zero => exact .error
  | succ fuel ih =>
    refine capped.mapIndex.bind fun node fits => .after fun slot => ?_
    have fits' : ∀ key, Fitting ({ node with
        children := node.children.set (findIndex node o) key } : Node Index).children :=
      fun _ => by simpa using fits
    exact .ite (fun _ => ih (capped.unmapIndex (fits' _) parent)) fun _ =>
      .pure (capped.unmapIndex (fits' _) parent)

theorem Capped.borrowRecord (fits : Fitting borrower.children) :
    Ensures (t.borrowRecord fromRight borrower) fun r => r.2.1.Capped ∧ Fitting r.2.2.children := by
  refine capped.mapRecord.bind fun lender lenderFits => .ite (fun _ => .ite (fun _ => ?_)
    fun _ => .pure ⟨capped, fits⟩) fun _ => .error
  have erased : ∀ i, Fitting (lender.children.eraseIdx i) := fun i =>
    (List.length_eraseIdx_le _ _).trans lenderFits
  refine .after fun lent => .ite (fun _ => ?_) fun _ => ?_
  · exact .after fun first => .after fun second => capped.changeParentChild.bind fun _ capped =>
      openSlot_fitting.bind fun slots fits => .pure ⟨capped.unmapRecord (erased _) _, fits⟩
  · exact .after fun first => capped.changeParentChild.bind fun _ capped =>
      openSlot_fitting.bind fun slots fits => .pure ⟨capped.unmapRecord (erased _) _, fits⟩

theorem Capped.borrowIndex (fits : Fitting borrower.children) :
    Ensures (t.borrowIndex fromRight borrower off) fun r => r.2.1.Capped ∧ Fitting r.2.2.children := by
  refine capped.mapIndex.bind fun lender lenderFits => .ite (fun _ => .ite (fun _ => ?_)
    fun _ => .pure ⟨capped, fits⟩) fun _ => .error
  have erased : ∀ i, Fitting (lender.children.eraseIdx i) := fun i =>
    (List.length_eraseIdx_le _ _).trans lenderFits
  refine .after fun lent => .ite (fun _ => capped.mapIndex.bind fun parent parentFits => ?_)
    fun _ => capped.mapIndex.bind fun parent parentFits => ?_
  · refine .after fun last => .after fun slot => .bind (P := fun r => r.1.Capped)
      (.pure (capped.unmapIndex (by simpa using parentFits) _)) fun ⟨t, borrower⟩ capped =>
        openSlot_fitting.bind fun slots fits => ?_
    exact capped.resetIndexChildrenParent.bind fun _ capped =>
      .pure ⟨capped.unmapIndex (erased _) _, fits⟩
  · refine .after fun first => .after fun slot => .after fun before => .bind (P := fun r => r.1.Capped)
      (.pure (capped.unmapIndex (by simpa using parentFits) _)) fun ⟨t, borrower⟩ capped =>
        openSlot_fitting.bind fun slots fits => ?_
    exact capped.resetIndexChildrenParent.bind fun _ capped =>
      .pure ⟨capped.unmapIndex (erased _) _, fits⟩

theorem Capped.borrowFromSiblings (fits : Fitting node.children) :
    Ensures (t.borrowFromSiblings node off first last) fun r =>
      r.2.1.Capped ∧ Fitting r.2.2.children := by
  refine .ite (fun _ => (capped.borrowIndex fits).bind fun ⟨borrowed, t, node⟩ ⟨capped, fits⟩ => ?_)
    fun _ => ?_
  all_goals exact .ite (fun _ => capped.borrowIndex fits) fun _ => .pure ⟨capped, fits⟩

theorem Capped.borrowFromNeighbours (fits : Fitting leaf.children) :
    Ensures (t.borrowFromNeighbours leaf) fun r => r.2.1.Capped ∧ Fitting r.2.2.children := by
  refine .ite (fun _ => (capped.borrowRecord fits).bind fun ⟨borrowed, t, leaf⟩ ⟨capped, fits⟩ => ?_)
    fun _ => ?_
  all_goals exact .ite (fun _ => capped.borrowRecord fits) fun _ => .pure ⟨capped, fits⟩

theorem Capped.mergeIndex : Ensures (t.mergeIndex node off last) Capped := by
  refine .ite (fun _ => .ite (fun _ => .ite (fun _ => ?_) fun _ => .error)
    fun _ => .ite (fun _ => ?_) fun _ => .error) fun _ => .error
  all_goals
    refine .after fun other => capped.resetIndexChildrenParent.bind fun t capped => ?_
    refine .bind (P := fun r : BPlusTree × Node Index => r.1.Capped ∧ Fitting r.2.children)
      (appendSlots_fitting.bind fun slots fits => capped.nodeRemove.mono fun r kept =>
        ⟨kept.1, by rw [kept.2]; exact fits⟩) fun ⟨t, merged⟩ ⟨capped, fits⟩ => .pure (capped.unmapIndex fits _)

theorem Capped.mergeLeaf : Ensures (t.mergeLeaf leaf off isLast) fun r => r.1.Capped := by
  refine .ite (fun _ => .ite (fun _ => .ite (fun _ => ?_) fun _ => .error)
    fun _ => .ite (fun _ => ?_) fun _ => .error) fun _ => .error
  all_goals
    refine .after fun other => .after fun first => .bind (P := fun leaf => Fitting leaf.children)
      (appendSlots_fitting.bind fun slots fits => .pure fits) fun merged fits => ?_
    exact capped.nodeRemove.bind fun ⟨t, merged⟩ ⟨capped, same⟩ =>
      .pure (capped.unmapRecord (same ▸ fits) _)

theorem Capped.removeFromIndex (fits : Fitting node.children) :
    Ensures (t.removeFromIndex off node key fuel) Capped := by
  induction fuel generalizing t off node key with
  | zero => exact .error
  | succ fuel ih =>
    refine .ite (fun _ => .after fun first => (deleteEntry_fitting fits).bind fun slots fits => ?_)
      fun _ => .error
    refine .ite (fun _ => .after fun only => .pure capped) fun _ => ?_
    refine .ite (fun _ => capped.mapIndex.bind fun parent parentFits => .after fun first =>
      .after fun last => ?_) fun _ => .pure (capped.unmapIndex fits _)
    refine (capped.borrowFromSiblings fits).bind fun ⟨borrowed, t, node⟩ ⟨capped, fits⟩ =>
      .ite (fun _ => .pure (capped.unmapIndex fits _)) fun _ => ?_
    exact capped.mergeIndex.bind fun _ capped => ih capped parentFits

theorem Capped.remove : Ensures (t.remove key) fun r => r.2.Capped := by
  refine .after fun parentOff => capped.mapIndex.bind fun parent parentFits => .after fun slot =>
    capped.mapRecord.bind fun leaf fits => ?_
  have erased : ∀ i, Fitting (leaf.children.eraseIdx i) := fun i =>
    (List.length_eraseIdx_le _ _).trans fits
  refine .ite (fun _ => .ite (fun _ => .ite (fun _ => ?_)
    fun _ => .pure (capped.unmapRecord (erased _) _)) fun _ => .error) fun _ => .pure capped
  refine (capped.borrowFromNeighbours (erased _)).bind fun ⟨borrowed, t, leaf⟩ ⟨capped, fits⟩ =>
    .ite (fun _ => .pure (capped.unmapRecord fits _)) fun _ => ?_
  exact capped.mergeLeaf.bind fun ⟨t, indexKey⟩ capped =>
    (capped.removeFromIndex parentFits).bind fun _ capped => .pure capped

/-- Live slots stay inside the array. -/
theorem Capped.call : Ensures (t.call c) fun r => r.2.Capped := by
  cases c with
  | insert => exact capped.insert.bind fun _ capped => .pure capped
  | update => exact capped.update.bind fun _ capped => .pure capped
  | remove => exact capped.remove.bind fun _ capped => .pure capped
  | search => exact .after fun _ => .pure capped

end Removal

/-- No array element outside the `BP_ORDER` slots of a node is read or written. -/
def InBounds (t : BPlusTree) (c : Call) : Prop := t.call c ≠ .error .bounds

/-- The only call that leaves the array of a node is the removal that deletes the
last entry of a full index node. -/
theorem inBounds_iff (t : BPlusTree) (wf : t.WellFormed) (c : Call) :
    t.InBounds c ↔ .overrun ∉ t.callDefects c := by
  obtain ⟨leaves, bounds, levels, shape⟩ := wf.shaped
  have represents : Represents t (dictionary Record.key Record.value (contents leaves)) :=
    ⟨wf.laid, leaves, bounds, levels, shape, rfl⟩
  by_cases clean : t.Clean c
  · obtain ⟨answer, t', run, -⟩ := represents.call clean
    refine ⟨fun _ => by rw [show t.callDefects c = [] from clean]; simp, fun _ => ?_⟩
    rw [InBounds, run]
    simp
  · cases c with
    | insert | update | search => exact absurd rfl clean
    | remove key =>
      rcases shape.remove_spec key with ⟨_, _, -, -, -, empty⟩ | ⟨P, r, S, -, -, -, removed⟩
      · exact absurd empty clean
      · constructor
        · intro inside overrun
          apply inside
          simp only [call, removed.fault overrun, bind, Except.bind]
        · intro fine
          obtain ⟨t', leaves', run, -⟩ := removed.fine fine
          simp [InBounds, call, run, bind, Except.bind, pure, Except.pure]

theorem inBounds_packed : Packed.tree.InBounds (.remove (Packed.number 5)) :=
  (inBounds_iff Packed.tree packed_wellFormed (.remove (Packed.number 5))).mpr (by decide +kernel)

/-- The root of the packed tree is full and loses its last entry. -/
theorem not_inBounds_packed : Packed.tree.WellFormed ∧
    ¬ Packed.tree.InBounds (.remove (Packed.number 1999)) := by
  refine ⟨packed_wellFormed, fun inside => inside ?_⟩
  decide +kernel

end BPlusTree
end Fdfs2qq.Bpt
