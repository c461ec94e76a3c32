import Fdfs2qq.Bpt.EditProofs
import Fdfs2qq.Bpt.ImageBlocks
import Fdfs2qq.Bpt.Overrun
import Fdfs2qq.Lib.Mirrors

/-! The bytes of the file hold the blocks of the model, and the primitives keep it so. -/
namespace Fdfs2qq.Bpt
open Lib

/-- The tree of an object with this file. -/
def BPlusTree.over (t : BPlusTree) (f : Image) : BPlusTree Image := ⟨t.info, f⟩

/-- Every number of the meta fits its field; a counter is below `slot`, as its blocks are. -/
structure Meta.Sized (m : Meta) : Prop where
  order : m.order < 2 ^ 64
  valueSize : m.valueSize < 2 ^ 64
  keySize : m.keySize < 2 ^ 64
  internalNodeNum : m.internalNodeNum ≤ m.slot
  leafNodeNum : m.leafNodeNum ≤ m.slot
  height : m.height ≤ m.slot
  slot : m.slot < 2 ^ 64
  rootOffset : m.rootOffset < 2 ^ 64
  leafOffset : m.leafOffset < 2 ^ 64

theorem Meta.Sized.fits {m : Meta} (sized : m.Sized) : m.Fits := by
  simp only [Meta.Fits, Meta.fields, List.forall_mem_cons, List.not_mem_nil, false_implies, implies_true, and_true]
  exact ⟨sized.order, sized.valueSize, sized.keySize, sized.internalNodeNum.trans_lt sized.slot,
    sized.leafNodeNum.trans_lt sized.slot, sized.height.trans_lt sized.slot, sized.slot, sized.rootOffset,
    sized.leafOffset⟩

/-- The bytes of the file hold the blocks, and every number fits its field. -/
structure Shows (ps : List (Offset × Kind)) (t : BPlusTree) (f : Image) : Prop where
  laid : Draft.Laid ⟨ps, t⟩
  sized : t.info.Sized
  blocks : ∀ off b, t.file.get off = some b → b.Fits ∧ f.HoldsBlock off b
  distinct : (t.file.blocks.map Prod.fst).Nodup
  spares : f.spoilt = false

def Shown (ps : List (Offset × Kind)) (t : BPlusTree) (i : BPlusTree Image) : Prop :=
  ∃ f, i = t.over f ∧ Shows ps t f

abbrev Node.Fits {α : Type} [NodeType α] (node : Node α) : Prop :=
  Block.Fits ⟨node.toHeader, NodeType.body node.children⟩

section Primitives

variable {ps : List (Offset × Kind)} {t : BPlusTree} {f : Image} {α : Type} [NodeType α] [NodeKind α]

theorem mem_writeBlock {off o : Offset} {block : Block} {blocks : List (Offset × Block)} :
    o ∈ (writeBlock off block blocks).map Prod.fst ↔ o = off ∨ o ∈ blocks.map Prod.fst := by
  induction blocks with
  | nil => simp [writeBlock]
  | cons entry rest ih =>
    obtain ⟨p, b⟩ := entry
    by_cases here : p = off
    · subst here
      simp [writeBlock]
    · simp only [writeBlock, here, if_false, List.map_cons, List.mem_cons, ih]
      tauto

theorem nodup_writeBlock {off : Offset} {block : Block} {blocks : List (Offset × Block)}
    (distinct : (blocks.map Prod.fst).Nodup) : ((writeBlock off block blocks).map Prod.fst).Nodup := by
  induction blocks with
  | nil => simp [writeBlock]
  | cons entry rest ih =>
    obtain ⟨p, b⟩ := entry
    obtain ⟨fresh, distinct'⟩ := List.nodup_cons.mp distinct
    by_cases here : p = off
    · subst here
      simpa [writeBlock] using distinct
    · simp only [writeBlock, here, if_false, List.map_cons]
      refine List.nodup_cons.mpr ⟨?_, ih distinct'⟩
      rw [mem_writeBlock]
      exact not_or.mpr ⟨here, fresh⟩

theorem Shows.offset (shows : Shows ps t f) {kind : Kind} (here : t.Written off kind) :
    off < 2 ^ 64 ∧ offsetBlock ≤ off := by
  obtain ⟨row, tiled⟩ := shows.laid
  obtain ⟨above, below⟩ := tiled.tiles.bounds ((tiled.pieces _ _).mpr (.inl here))
  exact ⟨(Nat.le_add_right ..).trans_lt (below.trans_lt shows.sized.slot), above⟩

theorem Shows.put {b : Block} {off : Offset} {f' : Image} (shows : Shows ps t f) {row : List (Offset × Kind)}
    (tiled : Draft.Tiled ⟨ps, t⟩ row) (here : (off, b.body.kind) ∈ row) (fits : b.Fits) (new : f'.HoldsBlock off b)
    (others : ∀ o c, f.HoldsBlock o c → o + c.body.kind.size ≤ off ∨ off + b.body.kind.size ≤ o → f'.HoldsBlock o c) :
    ∀ o c, (t.file.put off b).get o = some c → c.Fits ∧ f'.HoldsBlock o c := by
  intro o c found
  rw [File.get_put] at found
  split at found
  next same =>
    subst same
    cases found
    exact ⟨fits, new⟩
  next other =>
    obtain ⟨fits', holds⟩ := shows.blocks o c found
    refine ⟨fits', others o c holds ?_⟩
    obtain same | before | behind := tiled.tiles.apart here (tiled.mem_row found)
    · exact absurd (Prod.mk.inj same).1.symm other
    · exact .inr before
    · exact .inl behind

theorem Shows.unmap (shows : Shows ps t f) (here : t.Written off (NodeKind.kind α)) {node : Node α}
    (fits : node.Fits) : Shows ps (t.unmap node off) (BlockFile.writeNode f node off) := by
  obtain ⟨row, tiled⟩ := id shows.laid
  have kind : (NodeType.body node.children).kind = NodeKind.kind α := NodeKind.kind_body _
  have size : (NodeType.body node.children).kind.size = NodeType.size α := by rw [kind, NodeKind.size_kind]
  have spares := (Image.spoilt_writeNode node (shows.offset here).2).trans shows.spares
  rw [← kind] at here
  refine ⟨⟨row, tiled.put_same here⟩, shows.sized, ?_, nodup_writeBlock shows.distinct, spares⟩
  refine shows.put tiled ((tiled.pieces _ _).mpr (.inl here)) fits (Image.holdsBlock_writeNode node off fits) ?_
  exact fun o c holds apart => holds.writeNode fits.body.count_le (size ▸ apart)

/-- An allocated block is written. -/
theorem Shows.unmapPending {before : List (Offset × Kind)}
    (shows : Shows (before ++ (off, NodeKind.kind α) :: ps) t f) {node : Node α} (fits : node.Fits) :
    Shows (before ++ ps) (t.unmap node off) (BlockFile.writeNode f node off) := by
  obtain ⟨row, tiled⟩ := id shows.laid
  have kind : (NodeType.body node.children).kind = NodeKind.kind α := NodeKind.kind_body _
  have size : (NodeType.body node.children).kind.size = NodeType.size α := by rw [kind, NodeKind.size_kind]
  rw [← kind] at tiled
  have inRow := (tiled.pieces _ _).mpr (.inr (List.mem_append_right _ List.mem_cons_self))
  have fresh : Draft.Tiled ⟨before ++ ps, t.unmap node off⟩ row :=
    Draft.Tiled.put_fresh (b := ⟨node.toHeader, NodeType.body node.children⟩) tiled
  have spares := (Image.spoilt_writeNode node (tiled.tiles.bounds inRow).1).trans shows.spares
  refine ⟨⟨row, fresh⟩, shows.sized, ?_, nodup_writeBlock shows.distinct, spares⟩
  rw [← kind] at shows
  refine shows.put tiled inRow fits (Image.holdsBlock_writeNode node off fits) ?_
  exact fun o c holds apart => holds.writeNode fits.body.count_le (size ▸ apart)

theorem Shows.unmapFresh (shows : Shows ((off, NodeKind.kind α) :: ps) t f) {node : Node α} (fits : node.Fits) :
    Shows ps (t.unmap node off) (BlockFile.writeNode f node off) :=
  @Shows.unmapPending ps t f α _ _ off [] shows node fits

theorem Shows.info (shows : Shows ps t f) {m : Meta} (slot : m.slot = t.info.slot) (sized : m.Sized) :
    Shows ps { t with info := m } f := by
  obtain ⟨row, tiled⟩ := shows.laid
  exact ⟨⟨row, tiled.congr _ slot fun _ => rfl⟩, sized, shows.blocks, shows.distinct, shows.spares⟩

theorem Shows.unmapMeta (shows : Shows ps t f) : Shows ps t.unmapMeta (BlockFile.writeMeta f t.info) := by
  obtain ⟨row, tiled⟩ := shows.laid
  have fits : (f.spoilt || decide ¬ t.info.Fits) = false := by
    rw [shows.spares, decide_eq_false (not_not.mpr shows.sized.fits), Bool.or_false]
  refine ⟨⟨row, tiled.congr _ rfl fun _ => rfl⟩, shows.sized, fun off b found => ?_, shows.distinct, fits⟩
  obtain ⟨fits, holds⟩ := shows.blocks off b found
  exact ⟨fits, holds.writeMeta (tiled.tiles.bounds (tiled.mem_row found)).1 t.info⟩

theorem Shows.alloc (shows : Shows ps t f) (sized : (t.alloc α).2.info.Sized) :
    Shows ((t.info.slot, NodeKind.kind α) :: ps) (t.alloc α).2 f := by
  have laid : Draft.Laid ⟨(t.info.slot, NodeKind.kind α) :: ps, (t.alloc α).2⟩ :=
    (EditsTo.of_edit shows.laid (.alloc α)).laid
  exact ⟨laid, sized, shows.blocks, shows.distinct, shows.spares⟩

theorem Shows.length_le {n : Nat} (shows : Shows ps t f)
    (below : ∀ off b, t.file.get off = some b → off + b.body.kind.size ≤ n) : t.file.blocks.length ≤ n := by
  have inside : t.file.blocks.map Prod.fst ⊆ List.range n := by
    intro o mem
    obtain ⟨b, found⟩ := exists_readBlock mem
    rw [List.mem_range]
    exact (Nat.lt_add_of_pos_right b.body.kind.size_pos).trans_le (below o b found)
  simpa using (shows.distinct.subperm inside).length_le

/-- A climb has as many steps on the bytes. -/
theorem Shows.few (shows : Shows ps t f) : t.file.blocks.length ≤ f.length :=
  shows.length_le fun off b found => (shows.blocks off b found).2.inside

theorem Shows.blocks_le (shows : Shows ps t f) : t.file.blocks.length ≤ t.info.slot := by
  obtain ⟨row, tiled⟩ := shows.laid
  exact shows.length_le fun off b found => (tiled.tiles.bounds (tiled.mem_row found)).2

theorem Shows.map (shows : Shows ps t f) : Mirrors (t.map α off) ((t.over f).map α off)
    fun node node' => node' = node ∧ node.Fits ∧ t.Written off (NodeKind.kind α) := by
  intro node mapped
  have found := get_of_map node mapped
  obtain ⟨fits, holds⟩ := shows.blocks _ _ found
  exact ⟨node, holds.readNode fits.body.count_le, rfl, fits, map_written node mapped⟩

theorem Shows.rewriteHeader (shows : Shows ps t f) {change : Header → Header}
    (fits : ∀ h : Header, h.Fits → (change h).Fits) :
    Mirrors (t.rewriteHeader off change) ((t.over f).rewriteHeader off change) fun t' i' =>
      Shown ps t' i' ∧ t'.info = t.info := by
  rw [BPlusTree.rewriteHeader_eq]
  split
  next => exact .error
  next b found =>
    obtain ⟨fits', holds⟩ := shows.blocks _ _ found
    obtain ⟨bytes, changed, here, others⟩ := holds.changeHeader (fits _ fits'.header) fits'.body.count_le
    obtain ⟨row, tiled⟩ := id shows.laid
    have here' : t.Written off ({ b with toHeader := change b.toHeader } : Block).body.kind := ⟨b, found, rfl⟩
    have spares := (Image.spoilt_write sizeNoChildren bytes (shows.offset here').2).trans shows.spares
    rintro _ ⟨⟩
    refine ⟨_, ?_, ⟨_, rfl, ⟨row, tiled.put_same here'⟩, shows.sized, ?_, nodup_writeBlock shows.distinct, spares⟩, rfl⟩
    · simp only [BPlusTree.rewriteHeader, BPlusTree.over, changed, Except.map]
    · have inRow : (off, b.body.kind) ∈ row := tiled.mem_row found
      exact shows.put tiled inRow ⟨fits _ fits'.header, fits'.body⟩ here others

theorem Shows.relinkPrev {neighbour prev : Offset} (shows : Shows ps t f) (small : prev < 2 ^ 64) :
    Mirrors (t.relinkPrev neighbour prev) ((t.over f).relinkPrev neighbour prev) fun t' i' =>
      Shown ps t' i' ∧ t'.info = t.info :=
  .ite (fun _ => shows.rewriteHeader fun _ fits => ⟨fits.parent, fits.next, small⟩)
    fun _ => .ok ⟨⟨f, rfl, shows⟩, rfl⟩

theorem Shows.resetIndexChildrenParent {slots : List Index} {parent : Offset} (shows : Shows ps t f)
    (small : parent < 2 ^ 64) : Mirrors (t.resetIndexChildrenParent slots parent)
      ((t.over f).resetIndexChildrenParent slots parent) fun t' i' => Shown ps t' i' ∧ t'.info = t.info := by
  have change : ∀ h : Header, h.Fits → ({ h with parent := parent } : Header).Fits :=
    fun _ fits => ⟨small, fits.next, fits.prev⟩
  induction slots generalizing t f with
  | nil => exact .ok ⟨⟨f, rfl, shows⟩, rfl⟩
  | cons slot rest ih =>
    refine (shows.rewriteHeader change).bind fun t' _ ⟨⟨f', same, shows'⟩, info⟩ => ?_
    subst same
    exact (ih shows').mono fun t'' i'' ⟨shown, info'⟩ => ⟨shown, info'.trans info⟩

/-- The same nodes are made of `node`, and the fresh one is allocated. -/
structure Created (ps : List (Offset × Kind)) (t : BPlusTree) (r : BPlusTree × Node α × Node α)
    (r' : BPlusTree Image × Node α × Node α) : Prop where
  nodes : r'.2 = r.2
  shown : Shown ((r.2.1.next, NodeKind.kind α) :: ps) r.1 r'.1
  edits : EditsTo ⟨ps, t⟩ ⟨(r.2.1.next, NodeKind.kind α) :: ps, r.1⟩
  info : r.1.info = (t.alloc α).2.info
  fits : r.2.1.Fits
  fresh : r.2.2.toHeader.Fits

theorem Shows.nodeCreate (shows : Shows ps t f) {node : Node α} (fits : node.Fits) (small : off < 2 ^ 64)
    (sized : (t.alloc α).2.info.Sized) :
    Mirrors (t.nodeCreate off node) ((t.over f).nodeCreate off node) (Created ps t) := by
  have alloc : EditsTo ⟨ps, t⟩ ⟨(t.info.slot, NodeKind.kind α) :: ps, (t.alloc α).2⟩ := .of_edit shows.laid (.alloc α)
  refine (((shows.alloc sized).relinkPrev shows.sized.slot).and (relinkPrev_edits alloc.laid)).bind
    fun t' _ ⟨⟨⟨f', same, shows'⟩, info⟩, linked⟩ => ?_
  subst same
  exact .pure ⟨rfl, ⟨_, rfl, shows'.unmapMeta⟩, (alloc.trans linked).next .unmapMeta, info,
    ⟨⟨fits.header.parent, shows.sized.slot, fits.header.prev⟩, fits.body⟩,
    ⟨fits.header.parent, fits.header.next, small⟩⟩

theorem Shows.nodeRemove (shows : Shows ps t f) {prev node : Node α} (fits : prev.Fits) (links : node.toHeader.Fits)
    (sized : (t.unalloc α).info.Sized) :
    Mirrors (t.nodeRemove prev node) ((t.over f).nodeRemove prev node) fun r r' =>
      Shown ps r.1 r'.1 ∧ r'.2 = r.2 ∧ r.2.Fits := by
  have unalloc : Shows ps (t.unalloc α) f := shows.info (NodeKind.slot_counted ..) sized
  refine (unalloc.relinkPrev links.prev).bind fun t' _ ⟨⟨f', same, shows'⟩, info⟩ => ?_
  subst same
  exact .pure ⟨⟨_, rfl, shows'.unmapMeta⟩, rfl, ⟨fits.header.parent, links.next, fits.header.prev⟩, fits.body⟩

end Primitives

section Nodes

/-- The children of these slots have offsets of 64 bits. -/
abbrev Small (slots : List Index) : Prop := ∀ slot ∈ slots, slot.child < 2 ^ 64

theorem fits_index {node : Node Index} :
    node.Fits ↔ node.toHeader.Fits ∧ Fitting node.children ∧ Small node.children :=
  ⟨fun ⟨header, few, small⟩ => ⟨header, few, small⟩, fun ⟨header, few, small⟩ => ⟨header, few, small⟩⟩

theorem fits_record {node : Node Record} : node.Fits ↔ node.toHeader.Fits ∧ Fitting node.children :=
  ⟨fun ⟨header, few⟩ => ⟨header, few⟩, fun ⟨header, few⟩ => ⟨header, few⟩⟩

theorem slotAt_mem {slots : List α} : Ensures (slotAt slots i) (· ∈ slots) := by
  intro slot found
  unfold slotAt at found
  split at found
  next present =>
    cases found
    exact List.mem_of_getElem? present
  next => cases found

theorem openSlot_small {slots : List Index} (small : Small slots) (child : slot.child < 2 ^ 64) :
    Ensures (openSlot slots i slot) fun opened => Fitting opened ∧ Small opened := by
  refine openSlot_fitting.and (.ite (fun _ => .ok fun s mem => ?_) fun _ => .error)
  obtain rfl | mem := List.eq_or_mem_of_mem_insertIdx mem
  · exact child
  · exact small s mem

theorem Small.modify {slots : List Index} (small : Small slots) (change : Index → Index)
    (kept : ∀ slot : Index, slot.child < 2 ^ 64 → (change slot).child < 2 ^ 64) : Small (slots.modify i change) := by
  intro s mem
  obtain ⟨j, found⟩ := List.mem_iff_getElem?.mp mem
  rw [List.getElem?_modify] at found
  obtain ⟨slot, present, rfl⟩ := Option.map_eq_some_iff.mp found
  have small := small slot (List.mem_of_getElem? present)
  split
  · exact kept slot small
  · exact small

theorem Small.eraseIdx {slots : List Index} (small : Small slots) : Small (slots.eraseIdx i) :=
  fun s mem => small s (List.mem_of_mem_eraseIdx mem)

theorem Small.set {slots : List Index} (small : Small slots) (child : slot.child < 2 ^ 64) :
    Small (slots.set i slot) := by
  intro s mem
  obtain mem | rfl := List.mem_or_eq_of_mem_set mem
  · exact small s mem
  · exact child

theorem insertKeyToIndexNoSplit_fits {node : Node Index} (fits : node.Fits) (child : value < 2 ^ 64) :
    Ensures (BPlusTree.insertKeyToIndexNoSplit node key value) Node.Fits := by
  obtain ⟨header, -, small⟩ := fits_index.mp fits
  refine slotAt_mem.bind fun displaced mem => ?_
  have child' : (⟨key, displaced.child⟩ : Index).child < 2 ^ 64 := small displaced mem
  refine (openSlot_small small child').bind fun slots ⟨few, small⟩ => .pure (fits_index.mpr ⟨header, ?_, ?_⟩)
  · rwa [Fitting, List.length_modify]
  · exact small.modify (fun slot => { slot with child := value }) fun _ _ => child

theorem insertRecordNoSplit_fits (leaf : Node Record) (header : leaf.toHeader.Fits) :
    Ensures (BPlusTree.insertRecordNoSplit leaf key value) Node.Fits :=
  openSlot_fitting.bind fun _ few => .pure (fits_record.mpr ⟨header, few⟩)

theorem splitLeaf_fits {leaf newLeaf : Node Record} (fits : leaf.Fits) (header : newLeaf.toHeader.Fits) :
    Ensures (BPlusTree.splitLeaf leaf newLeaf key value) fun halves => halves.1.Fits ∧ halves.2.Fits := by
  obtain ⟨header', few⟩ := fits_record.mp fits
  refine .after fun ⟨point, placeRight⟩ => .ite (fun _ => ?_) fun _ => ?_
  · have left : Node.Fits { leaf with children := leaf.children.take point } :=
      fits_record.mpr ⟨header', (List.take_sublist _ _).length_le.trans few⟩
    exact (insertRecordNoSplit_fits { newLeaf with children := leaf.children.drop point } header).bind
      fun _ right => .pure ⟨left, right⟩
  · have right : Node.Fits { newLeaf with children := leaf.children.drop point } :=
      fits_record.mpr ⟨header, (List.drop_sublist _ _).length_le.trans few⟩
    exact (insertRecordNoSplit_fits { leaf with children := leaf.children.take point } header').bind
      fun _ left => .pure ⟨left, right⟩

theorem splitIndex_fits {node newNode : Node Index} (fits : node.Fits) (header : newNode.toHeader.Fits)
    (child : after < 2 ^ 64) : Ensures (BPlusTree.splitIndex node newNode key after) fun halves =>
      halves.2.1.Fits ∧ halves.2.2.Fits := by
  obtain ⟨header', few, small⟩ := fits_index.mp fits
  refine .after fun ⟨point, placeRight⟩ => .after fun middle => ?_
  have left : Node.Fits { node with children := node.children.take (point + 1) } := fits_index.mpr
    ⟨header', (List.take_sublist _ _).length_le.trans few, fun s mem => small s (List.mem_of_mem_take mem)⟩
  have right : Node.Fits { newNode with children := node.children.drop (point + 1) } := fits_index.mpr
    ⟨header, (List.drop_sublist _ _).length_le.trans few, fun s mem => small s (List.mem_of_mem_drop mem)⟩
  refine .ite (fun _ => ?_) fun _ => ?_
  · exact (insertKeyToIndexNoSplit_fits right child).bind fun _ right => .pure ⟨left, right⟩
  · exact (insertKeyToIndexNoSplit_fits left child).bind fun _ left => .pure ⟨left, right⟩

theorem deleteEntry_small {slots : List Index} (few : Fitting slots) (small : Small slots) :
    Ensures (deleteEntry slots i) fun left => Fitting left ∧ Small left := by
  refine (deleteEntry_fitting few).and (slotAt_mem.bind fun deleted mem => .ite (fun _ => .pure ?_) fun _ => .error)
  exact (small.modify (fun slot => { slot with child := deleted.child }) fun _ _ => small deleted mem).eraseIdx

theorem appendSlots_small {left right : List Index} (small : Small left) (small' : Small right) :
    Ensures (appendSlots left right) fun slots => Fitting slots ∧ Small slots :=
  appendSlots_fitting.and (.ite (fun _ => .ok fun s mem => (List.mem_append.mp mem).elim (small s) (small' s))
    fun _ => .error)

end Nodes

end Fdfs2qq.Bpt
