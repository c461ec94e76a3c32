import Fdfs2qq.Bpt.Edits

/-! The functions of the tree as rows of edits, one after the other. -/
namespace Fdfs2qq.Bpt
open Lib

/-- The pieces of the file, and nothing else, hold its blocks. -/
def Draft.Laid (s : Draft) : Prop := ∃ row, s.Tiled row

/-- By edits from one draft to another, which keeps the blocks of the first. -/
structure EditsTo (s s' : Draft) : Prop where
  edits : Edits s s'
  laid : s'.Laid
  written : ∀ {off kind}, s.tree.Written off kind → s'.tree.Written off kind

namespace EditsTo

variable {s s' s'' : Draft} {E : Type} {A : Type} {x : Except E A} {after : A → Draft}

theorem refl (laid : s.Laid) : EditsTo s s := ⟨⟨[], .refl s⟩, laid, id⟩

theorem of_edit {w : Write} (laid : s.Laid) (edit : Edit s w s') : EditsTo s s' := by
  obtain ⟨row, tiled⟩ := laid
  obtain ⟨⟨more, tiled'⟩, written⟩ := edit.keeps tiled
  exact ⟨⟨[w], .next edit (.refl s')⟩, ⟨_, tiled'⟩, written _ _⟩

theorem trans (first : EditsTo s s') (later : EditsTo s' s'') : EditsTo s s'' := by
  obtain ⟨writes, run⟩ := first.edits
  obtain ⟨writes', run'⟩ := later.edits
  exact ⟨⟨writes ++ writes', run.append run'⟩, later.laid, fun here => later.written (first.written here)⟩

theorem next {w : Write} (first : EditsTo s s') (edit : Edit s' w s'') : EditsTo s s'' :=
  first.trans (.of_edit first.laid edit)

/-- Edits before a computation that goes on with edits. -/
theorem andThen (first : EditsTo s s') (rest : Ensures x fun a => EditsTo s' (after a)) :
    Ensures x fun a => EditsTo s (after a) :=
  rest.mono fun _ later => first.trans later

end EditsTo

section Primitives

variable {s : Draft} {ps : List (Offset × Kind)} {t : BPlusTree} {α : Type} [NodeType α] [NodeKind α]

theorem get_of_map : Ensures (t.map α off) fun node =>
    t.file.get off = some ⟨node.toHeader, NodeType.body node.children⟩ := by
  intro node mapped
  rw [BPlusTree.map_eq] at mapped
  split at mapped
  next => cases mapped
  next b found =>
    split at mapped
    next => cases mapped
    next slots read =>
      cases mapped
      rw [found, ← NodeKind.body_children _ _ read]

theorem map_written : Ensures (t.map α off) fun _ => t.Written off (NodeKind.kind α) :=
  get_of_map.mono fun _ found => ⟨_, found, NodeKind.kind_body _⟩

theorem EditsTo.unmap (first : EditsTo s ⟨ps, t⟩) (here : t.Written off (NodeKind.kind α)) (node : Node α) :
    EditsTo s ⟨ps, t.unmap node off⟩ := by
  rw [← NodeKind.kind_body node.children] at here
  exact first.next (.unmap (b := ⟨node.toHeader, NodeType.body node.children⟩) here)

/-- The block that was allocated last is written. -/
theorem EditsTo.unmapFresh (first : EditsTo s ⟨(off, NodeKind.kind α) :: ps, t⟩) (node : Node α) :
    EditsTo s ⟨ps, t.unmap node off⟩ := by
  rw [← NodeKind.kind_body node.children] at first
  have edit : Edit ⟨[] ++ (off, (NodeType.body node.children).kind) :: ps, t⟩ _ ⟨[] ++ ps, t.unmap node off⟩ :=
    .fresh (b := ⟨node.toHeader, NodeType.body node.children⟩)
  exact first.next edit

theorem rewriteHeader_edits (laid : Draft.Laid ⟨ps, t⟩) :
    Ensures (t.rewriteHeader off change) fun t' => EditsTo ⟨ps, t⟩ ⟨ps, t'⟩ := by
  rw [BPlusTree.rewriteHeader_eq]
  split
  next => exact .error
  next b found => exact .ok (.of_edit laid (.header _ found))

theorem relinkPrev_edits (laid : Draft.Laid ⟨ps, t⟩) :
    Ensures (t.relinkPrev neighbour prev) fun t' => EditsTo ⟨ps, t⟩ ⟨ps, t'⟩ :=
  .ite (fun _ => rewriteHeader_edits laid) fun _ => .ok (.refl laid)

theorem resetIndexChildrenParent_edits (laid : Draft.Laid ⟨ps, t⟩) :
    Ensures (t.resetIndexChildrenParent slots parent) fun t' => EditsTo ⟨ps, t⟩ ⟨ps, t'⟩ := by
  induction slots generalizing t with
  | nil => exact .ok (.refl laid)
  | cons slot rest ih =>
    exact (rewriteHeader_edits laid).bind fun t' first => first.andThen (ih first.laid)

/-- The fresh block is pending until the caller writes it. -/
theorem nodeCreate_edits (laid : Draft.Laid ⟨ps, t⟩) {node : Node α} :
    Ensures (t.nodeCreate off node) fun r =>
      EditsTo ⟨ps, t⟩ ⟨(r.2.1.next, NodeKind.kind α) :: ps, r.1⟩ := by
  have alloc : EditsTo ⟨ps, t⟩ ⟨(t.info.slot, NodeKind.kind α) :: ps, (t.alloc α).2⟩ :=
    .of_edit laid (.alloc α)
  exact (relinkPrev_edits alloc.laid).bind fun t' linked => .pure ((alloc.trans linked).next .unmapMeta)

theorem nodeRemove_edits (laid : Draft.Laid ⟨ps, t⟩) {prev node : Node α} :
    Ensures (t.nodeRemove prev node) fun r => EditsTo ⟨ps, t⟩ ⟨ps, r.1⟩ := by
  have unalloc : EditsTo ⟨ps, t⟩ ⟨ps, t.unalloc α⟩ := .of_edit laid (.info _ (NodeKind.slot_counted ..))
  exact (relinkPrev_edits unalloc.laid).bind fun t' linked => .pure ((unalloc.trans linked).next .unmapMeta)

end Primitives

section Insertion

variable {ps : List (Offset × Kind)} {t : BPlusTree}

theorem insertRecordNoSplit_header {leaf : Node Record} :
    Ensures (BPlusTree.insertRecordNoSplit leaf key value) fun r => r.toHeader = leaf.toHeader :=
  .after fun _ => .pure rfl

theorem insertKeyToIndexNoSplit_header {node : Node Index} :
    Ensures (BPlusTree.insertKeyToIndexNoSplit node key value) fun r => r.toHeader = node.toHeader :=
  .after fun _ => .after fun _ => .pure rfl

theorem splitLeaf_next {leaf newLeaf : Node Record} :
    Ensures (BPlusTree.splitLeaf leaf newLeaf key value) fun r => r.1.next = leaf.next := by
  refine .after fun ⟨point, placeRight⟩ => .ite (fun _ => .after fun _ => .pure rfl) fun _ => ?_
  exact insertRecordNoSplit_header.bind fun _ same => .pure (congrArg Header.next same)

theorem splitIndex_next {node newNode : Node Index} :
    Ensures (BPlusTree.splitIndex node newNode key after) fun r => r.2.1.next = node.next := by
  refine .after fun ⟨point, placeRight⟩ => .after fun middle => .ite (fun _ => .after fun _ => .pure rfl) fun _ => ?_
  exact insertKeyToIndexNoSplit_header.bind fun _ same => .pure (congrArg Header.next same)

theorem update_edits (laid : Draft.Laid ⟨ps, t⟩) :
    Ensures (t.update key value) fun r => EditsTo ⟨ps, t⟩ ⟨ps, r.2⟩ := by
  refine .after fun offset => map_written.bind fun leaf here => ?_
  dsimp only
  split
  · exact .ite (fun _ => .pure ((EditsTo.refl laid).unmap here _)) fun _ => .pure (.refl laid)
  · exact .pure (.refl laid)

theorem createRoot_edits (laid : Draft.Laid ⟨ps, t⟩) :
    Ensures (t.createRoot key old after) fun t' => EditsTo ⟨ps, t⟩ ⟨ps, t'⟩ := by
  have alloc : EditsTo ⟨ps, t⟩ ⟨(t.info.slot, .internal) :: ps, (t.alloc Index).2⟩ := .of_edit laid (.alloc Index)
  have root := ((alloc.next (.info { (t.alloc Index).2.info with
    rootOffset := t.info.slot, height := t.info.height + 1 } rfl)).next .unmapMeta).unmapFresh
      (⟨⟨0, 0, 0⟩, [⟨key, old⟩, ⟨Key.empty, after⟩]⟩ : Node Index)
  exact root.andThen (resetIndexChildrenParent_edits root.laid)

theorem EditsTo.unmapBoth {α : Type} [NodeType α] [NodeKind α] {t' : BPlusTree} {node node' : Node α}
    (created : EditsTo ⟨ps, t⟩ ⟨(node.next, NodeKind.kind α) :: ps, t'⟩)
    (here : t.Written off (NodeKind.kind α)) (same : node'.next = node.next) (next : Node α) :
    EditsTo ⟨ps, t⟩ ⟨ps, (t'.unmap node' off).unmap next node'.next⟩ := by
  rw [← same] at created
  exact (created.unmap (created.written here) node').unmapFresh next

theorem insertKeyToIndex_edits (laid : Draft.Laid ⟨ps, t⟩) :
    Ensures (t.insertKeyToIndex off key old after fuel) fun t' => EditsTo ⟨ps, t⟩ ⟨ps, t'⟩ := by
  induction fuel generalizing t off key old after with
  | zero => exact .ite (fun _ => createRoot_edits laid) fun _ => .error
  | succ fuel ih =>
    refine .ite (fun _ => createRoot_edits laid) fun _ => map_written.bind fun node here => ?_
    refine .ite (fun _ => .ite (fun _ => ?_) fun _ => ?_) fun _ => .error
    · refine (nodeCreate_edits laid).bind fun ⟨t, node, newNode⟩ created => ?_
      refine splitIndex_next.bind fun ⟨middle, node', newNode⟩ same => ?_
      have both := created.unmapBoth here same newNode
      exact (resetIndexChildrenParent_edits both.laid).bind fun t children =>
        (both.trans children).andThen (ih children.laid)
    · exact .after fun node => .pure ((EditsTo.refl laid).unmap here node)

theorem insert_edits (laid : Draft.Laid ⟨ps, t⟩) :
    Ensures (t.insert key value) fun r => EditsTo ⟨ps, t⟩ ⟨ps, r.2⟩ := by
  refine .after fun parent => .after fun offset => map_written.bind fun leaf here => ?_
  refine .ite (fun _ => .pure (.refl laid)) fun _ => .ite (fun _ => ?_) fun _ => ?_
  · refine (nodeCreate_edits laid).bind fun ⟨t, leaf, newLeaf⟩ created => ?_
    refine splitLeaf_next.bind fun ⟨leaf', newLeaf⟩ same => .after fun first => ?_
    have both := created.unmapBoth here same newLeaf
    exact (insertKeyToIndex_edits both.laid).bind fun t climbed => .pure (both.trans climbed)
  · exact .after fun leaf => .pure ((EditsTo.refl laid).unmap here leaf)

end Insertion

section Removal

variable {ps : List (Offset × Kind)} {t : BPlusTree}

theorem changeParentChild_edits (laid : Draft.Laid ⟨ps, t⟩) :
    Ensures (t.changeParentChild parent o n fuel) fun t' => EditsTo ⟨ps, t⟩ ⟨ps, t'⟩ := by
  induction fuel generalizing t parent with
  | zero => exact .error
  | succ fuel ih =>
    refine map_written.bind fun node here => .after fun slot => ?_
    have written := (EditsTo.refl laid).unmap here { node with
      children := node.children.set (findIndex node o) { slot with key := n } }
    exact .ite (fun _ => written.andThen (ih written.laid)) fun _ => .pure written

theorem borrowRecord_edits (laid : Draft.Laid ⟨ps, t⟩) :
    Ensures (t.borrowRecord fromRight borrower) fun r => EditsTo ⟨ps, t⟩ ⟨ps, r.2.1⟩ := by
  refine map_written.bind fun lender here => .ite (fun _ => .ite (fun _ => ?_) fun _ => .pure (.refl laid))
    fun _ => .error
  refine .after fun lent => .ite (fun _ => ?_) fun _ => ?_
  · exact .after fun first => .after fun second => (changeParentChild_edits laid).bind fun t changed =>
      .after fun slots => .pure (changed.unmap (changed.written here) _)
  · exact .after fun first => (changeParentChild_edits laid).bind fun t changed =>
      .after fun slots => .pure (changed.unmap (changed.written here) _)

theorem borrowIndex_edits (laid : Draft.Laid ⟨ps, t⟩) :
    Ensures (t.borrowIndex fromRight borrower off) fun r => EditsTo ⟨ps, t⟩ ⟨ps, r.2.1⟩ := by
  refine map_written.bind fun lender here => .ite (fun _ => .ite (fun _ => ?_) fun _ => .pure (.refl laid))
    fun _ => .error
  -- the parent is written, then the child that moved, then the lender
  have rest {t' : BPlusTree} (parent : EditsTo ⟨ps, t⟩ ⟨ps, t'⟩) (lent : List Index) (lender : Node Index) :
      Ensures (t'.resetIndexChildrenParent lent off) fun t'' =>
        EditsTo ⟨ps, t⟩ ⟨ps, t''.unmap lender (if fromRight then borrower.next else borrower.prev)⟩ :=
    (resetIndexChildrenParent_edits parent.laid).mono fun t'' child =>
      (parent.trans child).unmap (child.written (parent.written here)) lender
  refine .after fun lent => .ite (fun _ => map_written.bind fun parent there => ?_)
    fun _ => map_written.bind fun parent there => ?_
  · refine .after fun last => .after fun slot => .bind (P := fun r => EditsTo ⟨ps, t⟩ ⟨ps, r.1⟩)
      (.pure ((EditsTo.refl laid).unmap there _)) fun ⟨t', borrower⟩ written => .after fun slots => ?_
    exact (rest written _ _).bind fun _ all => .pure all
  · refine .after fun first => .after fun slot => .after fun before =>
      .bind (P := fun r => EditsTo ⟨ps, t⟩ ⟨ps, r.1⟩)
      (.pure ((EditsTo.refl laid).unmap there _)) fun ⟨t', borrower⟩ written => .after fun slots => ?_
    exact (rest written _ _).bind fun _ all => .pure all

theorem borrowFromSiblings_edits (laid : Draft.Laid ⟨ps, t⟩) :
    Ensures (t.borrowFromSiblings node off first last) fun r => EditsTo ⟨ps, t⟩ ⟨ps, r.2.1⟩ := by
  refine .ite (fun _ => (borrowIndex_edits laid).bind fun ⟨borrowed, t', node⟩ left => ?_) fun _ => ?_
  · exact .ite (fun _ => left.andThen (borrowIndex_edits left.laid)) fun _ => .pure left
  · exact .ite (fun _ => borrowIndex_edits laid) fun _ => .pure (.refl laid)

theorem borrowIndex_header : Ensures (t.borrowIndex fromRight borrower off) fun r =>
    r.2.2.toHeader = borrower.toHeader := by
  refine .after fun lender => .ite (fun _ => .ite (fun _ => ?_) fun _ => .pure rfl) fun _ => .error
  refine .after fun lent => .ite (fun _ => .after fun parent => ?_) fun _ => .after fun parent => ?_
  · refine .after fun last => .after fun slot => .bind (P := fun r => r.2.toHeader = borrower.toHeader)
      (.pure rfl) fun ⟨t', borrower⟩ same => .after fun slots => .after fun t'' => .pure same
  · refine .after fun first => .after fun slot => .after fun before =>
      .bind (P := fun r => r.2.toHeader = borrower.toHeader)
      (.pure rfl) fun ⟨t', borrower⟩ same => .after fun slots => .after fun t'' => .pure same

theorem borrowFromSiblings_header : Ensures (t.borrowFromSiblings node off first last) fun r =>
    r.2.2.toHeader = node.toHeader := by
  refine .ite (fun _ => borrowIndex_header.bind fun ⟨borrowed, t', node'⟩ left => ?_) fun _ => ?_
  · exact .ite (fun _ => borrowIndex_header.mono fun _ same => same.trans left) fun _ => .pure left
  · exact .ite (fun _ => borrowIndex_header) fun _ => .pure rfl

theorem borrowFromNeighbours_edits (laid : Draft.Laid ⟨ps, t⟩) :
    Ensures (t.borrowFromNeighbours leaf) fun r => EditsTo ⟨ps, t⟩ ⟨ps, r.2.1⟩ := by
  refine .ite (fun _ => (borrowRecord_edits laid).bind fun ⟨borrowed, t', leaf⟩ left => ?_) fun _ => ?_
  · exact .ite (fun _ => left.andThen (borrowRecord_edits left.laid)) fun _ => .pure left
  · exact .ite (fun _ => borrowRecord_edits laid) fun _ => .pure (.refl laid)

theorem mergeKeys_edits (laid : Draft.Laid ⟨ps, t⟩) :
    Ensures (t.mergeKeys node next) fun r => EditsTo ⟨ps, t⟩ ⟨ps, r.1⟩ :=
  .after fun _ => nodeRemove_edits laid

theorem mergeIndex_edits (laid : Draft.Laid ⟨ps, t⟩) (here : t.Written off .internal) :
    Ensures (t.mergeIndex node off last) fun t' => EditsTo ⟨ps, t⟩ ⟨ps, t'⟩ := by
  refine .ite (fun _ => .ite (fun _ => .ite (fun _ => ?_) fun _ => .error)
    fun _ => .ite (fun _ => ?_) fun _ => .error) fun _ => .error
  · refine map_written.bind fun prev there => (resetIndexChildrenParent_edits laid).bind fun t' moved => ?_
    refine (mergeKeys_edits moved.laid).bind fun ⟨t', prev⟩ merged => ?_
    exact .pure ((moved.trans merged).unmap (merged.written (moved.written there)) prev)
  · refine .after fun next => (resetIndexChildrenParent_edits laid).bind fun t' moved => ?_
    refine (mergeKeys_edits moved.laid).bind fun ⟨t', node⟩ merged => ?_
    exact .pure ((moved.trans merged).unmap (merged.written (moved.written here)) node)

theorem mergeLeaf_edits (laid : Draft.Laid ⟨ps, t⟩) (here : t.Written off .leaf) :
    Ensures (t.mergeLeaf leaf off isLast) fun r => EditsTo ⟨ps, t⟩ ⟨ps, r.1⟩ := by
  refine .ite (fun _ => .ite (fun _ => .ite (fun _ => ?_) fun _ => .error)
    fun _ => .ite (fun _ => ?_) fun _ => .error) fun _ => .error
  · refine map_written.bind fun prev there => .after fun first => .after fun prev => ?_
    exact (nodeRemove_edits laid).bind fun ⟨t', prev⟩ merged => .pure (merged.unmap (merged.written there) prev)
  · refine .after fun next => .after fun first => .after fun leaf => ?_
    exact (nodeRemove_edits laid).bind fun ⟨t', leaf⟩ merged => .pure (merged.unmap (merged.written here) leaf)

theorem removeFromIndex_edits (laid : Draft.Laid ⟨ps, t⟩) (here : t.Written off .internal) :
    Ensures (t.removeFromIndex off node key fuel) fun t' => EditsTo ⟨ps, t⟩ ⟨ps, t'⟩ := by
  induction fuel generalizing t off node key with
  | zero => exact .error
  | succ fuel ih =>
    refine .ite (fun _ => .after fun first => .after fun slots => ?_) fun _ => .error
    refine .ite (fun _ => .after fun only => ?_) fun _ => .ite (fun _ => ?_) fun _ => ?_
    · have unalloc : EditsTo ⟨ps, t⟩ ⟨ps, t.unalloc Index⟩ := .of_edit laid (.info _ rfl)
      exact .pure ((unalloc.next (.info { (t.unalloc Index).info with
        height := (t.unalloc Index).info.height - 1, rootOffset := only.child } rfl)).next .unmapMeta)
    · refine map_written.bind fun parent there => .after fun first => .after fun last => ?_
      refine ((borrowFromSiblings_edits laid).and borrowFromSiblings_header).bind
        fun ⟨borrowed, t', node'⟩ ⟨tried, same⟩ => ?_
      refine .ite (fun _ => .pure (tried.unmap (tried.written here) node')) fun _ => ?_
      refine (mergeIndex_edits tried.laid (tried.written here)).bind fun t' merged => ?_
      rw [← congrArg Header.parent same] at there
      exact (tried.trans merged).andThen (ih merged.laid (merged.written (tried.written there)))
    · exact .pure ((EditsTo.refl laid).unmap here _)

theorem remove_edits (laid : Draft.Laid ⟨ps, t⟩) :
    Ensures (t.remove key) fun r => EditsTo ⟨ps, t⟩ ⟨ps, r.2⟩ := by
  refine .after fun parentOff => map_written.bind fun parent above => .after fun slot => ?_
  refine map_written.bind fun leaf here => .ite (fun _ => .ite (fun _ => .ite (fun _ => ?_)
    fun _ => .pure ((EditsTo.refl laid).unmap here _)) fun _ => .error) fun _ => .pure (.refl laid)
  refine (borrowFromNeighbours_edits laid).bind fun ⟨borrowed, t', leaf⟩ tried => ?_
  refine .ite (fun _ => .pure (tried.unmap (tried.written here) leaf)) fun _ => ?_
  refine (mergeLeaf_edits tried.laid (tried.written here)).bind fun ⟨t', indexKey⟩ merged => ?_
  have both := tried.trans merged
  exact (removeFromIndex_edits both.laid (both.written above)).bind fun _ climbed => .pure (both.trans climbed)

end Removal

theorem call_edits {t : BPlusTree} (laid : Draft.Laid ⟨[], t⟩) (c : Call) :
    Ensures (t.call c) fun r => EditsTo ⟨[], t⟩ ⟨[], r.2⟩ := by
  cases c with
  | insert => exact (insert_edits laid).bind fun _ reaches => .pure reaches
  | update => exact (update_edits laid).bind fun _ reaches => .pure reaches
  | remove => exact (remove_edits laid).bind fun _ reaches => .pure reaches
  | search => exact .after fun _ => .pure (.refl laid)

theorem Draft.Tiled.done {t : BPlusTree} {row : List (Offset × Kind)} (tiled : Draft.Tiled ⟨[], t⟩ row) :
    t.Laid row where
  tiles := tiled.tiles
  blocks off kind := (tiled.pieces off kind).trans (or_iff_left (List.not_mem_nil))

namespace BPlusTree.EndToEnd

variable {t : BPlusTree}

theorem draft (laid : t.EndToEnd) : Draft.Laid ⟨[], t⟩ := by
  obtain ⟨row, laid⟩ := laid
  exact ⟨row, laid.tiles, fun off kind => (laid.blocks off kind).trans (or_iff_left (List.not_mem_nil)).symm,
    fun _ _ => nofun, List.nodup_nil⟩

theorem of_edits {t' : BPlusTree} (edits : EditsTo ⟨[], t⟩ ⟨[], t'⟩) : t'.EndToEnd := by
  obtain ⟨row, tiled⟩ := edits.laid
  exact ⟨row, tiled.done⟩

variable (laid : t.EndToEnd)
include laid

theorem insert : Ensures (t.insert key value) fun r => r.2.EndToEnd :=
  (insert_edits laid.draft).mono fun _ => of_edits

theorem update : Ensures (t.update key value) fun r => r.2.EndToEnd :=
  (update_edits laid.draft).mono fun _ => of_edits

theorem remove : Ensures (t.remove key) fun r => r.2.EndToEnd :=
  (remove_edits laid.draft).mono fun _ => of_edits

theorem borrowRecord {leaf : Node Record} (read : t.map Record off = .ok leaf) :
    Ensures (t.borrowRecord fromRight borrower) fun r => (r.2.1.unmap r.2.2 off).EndToEnd := by
  refine (borrowRecord_edits laid.draft).mono fun r borrowed => ?_
  exact of_edits (borrowed.unmap (borrowed.written (map_written _ read)) r.2.2)

end BPlusTree.EndToEnd

end Fdfs2qq.Bpt
