import Fdfs2qq.Bpt.ImageProofs

/-! Every call does to the bytes what it does to the blocks. -/
namespace Fdfs2qq.Bpt
open Lib

/-- There is room in the numbers of 64 bits for this many internal nodes. -/
def Room (t : BPlusTree) (nodes : Nat) : Prop := t.info.slot + nodes * NodeType.size Index < 2 ^ 64

/-- There is room for the blocks of any insertion in a file of this length. -/
def BPlusTree.Roomy (t : BPlusTree) : Prop := t.info.slot ≤ 2 ^ 53

instance (t : BPlusTree) : Decidable t.Roomy := inferInstanceAs (Decidable (t.info.slot ≤ 2 ^ 53))

/-- The same answer, and the bytes of the tree after it. -/
def Answers (ps : List (Offset × Kind)) (r : A × BPlusTree) (r' : A × BPlusTree Image) : Prop :=
  r'.1 = r.1 ∧ Shown ps r.2 r'.2

section Numbers

variable {t t' : BPlusTree}

theorem Room.mono {n m : Nat} (room : Room t n) (fewer : m ≤ n) : Room t m :=
  (Nat.add_le_add_left (Nat.mul_le_mul_right _ fewer) _).trans_lt room

theorem BPlusTree.Roomy.room (roomy : t.Roomy)
    (few : t'.file.blocks.length ≤ t'.info.slot) (slot : t'.info.slot = t.info.slot + NodeType.size Record) :
    Room t' (t'.climbFuel + 1) := by
  have room (n : Nat) (roomy : n ≤ 2 ^ 53) : n + 1392 + (n + 1392 + 1 + 1) * 1472 < 2 ^ 64 := by omega
  rw [slot] at few
  rw [Room, slot]
  exact lt_of_le_of_lt (Nat.add_le_add_left (Nat.mul_le_mul_right _ (Nat.add_le_add_right few 2)) _) (room _ roomy)

theorem Meta.Sized.allocIndex (sized : t.info.Sized) (room : Room t 1) :
    (t.alloc Index).2.info.Sized :=
  { sized with
    internalNodeNum := Nat.add_le_add sized.internalNodeNum (by decide : 1 ≤ NodeType.size Index)
    leafNodeNum := sized.leafNodeNum.trans (Nat.le_add_right ..)
    height := sized.height.trans (Nat.le_add_right ..)
    slot := (Nat.add_le_add_left (Nat.one_mul _).ge _).trans_lt room }

theorem Meta.Sized.allocRecord (sized : t.info.Sized) (room : Room t 1) :
    (t.alloc Record).2.info.Sized :=
  { sized with
    internalNodeNum := sized.internalNodeNum.trans (Nat.le_add_right ..)
    leafNodeNum := Nat.add_le_add sized.leafNodeNum (by decide : 1 ≤ NodeType.size Record)
    height := sized.height.trans (Nat.le_add_right ..)
    slot := (Nat.add_le_add_left (by decide : NodeType.size Record ≤ 1 * NodeType.size Index) _).trans_lt room }

theorem Meta.Sized.unallocIndex (sized : t.info.Sized) : (t.unalloc Index).info.Sized :=
  { sized with internalNodeNum := (Nat.sub_le ..).trans sized.internalNodeNum }

theorem Meta.Sized.unallocRecord (sized : t.info.Sized) : (t.unalloc Record).info.Sized :=
  { sized with leafNodeNum := (Nat.sub_le ..).trans sized.leafNodeNum }

end Numbers

section Reading

variable {ps : List (Offset × Kind)} {t : BPlusTree} {f : Image} (shows : Shows ps t f)
include shows

theorem Shows.searchIndex : Mirrors (t.searchIndex key) ((t.over f).searchIndex key) fun off off' => off' = off := by
  have from_ (levels : Nat) (org : Offset) : Mirrors (t.searchIndexFrom key levels org)
      ((t.over f).searchIndexFrom key levels org) fun off off' => off' = off := by
    induction levels generalizing org with
    | zero => exact .ok rfl
    | succ levels ih =>
      refine shows.map.bind fun _ node ⟨same, _⟩ => ?_
      subst same
      exact .same .trivial fun slot _ => ih slot.child
  exact from_ _ _

theorem Shows.searchLeafFrom : Mirrors (t.searchLeafFrom off key) ((t.over f).searchLeafFrom off key)
    fun leaf leaf' => leaf' = leaf := by
  refine shows.map.bind fun _ node ⟨same, _⟩ => ?_
  subst same
  exact .same .trivial fun slot _ => .pure rfl

theorem Shows.searchLeaf : Mirrors (t.searchLeaf key) ((t.over f).searchLeaf key) fun off off' => off' = off := by
  refine shows.searchIndex.bind fun _ off same => ?_
  subst same
  exact shows.searchLeafFrom

theorem Shows.search : Mirrors (t.search key) ((t.over f).search key) fun r r' => r' = r := by
  refine shows.searchLeaf.bind fun _ off same => ?_
  subst same
  refine shows.map.bind fun _ leaf ⟨same, _⟩ => ?_
  subst same
  split
  · exact .pure rfl
  · exact .pure rfl

end Reading

section Insertion

variable {ps : List (Offset × Kind)} {t : BPlusTree} {f : Image} (shows : Shows ps t f)
include shows

theorem Shows.update : Mirrors (t.update key value) ((t.over f).update key value) (Answers ps) := by
  refine shows.searchLeaf.bind fun _ off same => ?_
  subst same
  refine shows.map.bind fun _ leaf ⟨same, fits, here⟩ => ?_
  subst same
  dsimp only
  split
  next record found =>
    refine .ite (fun _ => .pure ⟨rfl, _, rfl, shows.unmap here ?_⟩) fun _ => .pure ⟨rfl, _, rfl, shows⟩
    obtain ⟨header, few⟩ := fits_record.mp fits
    exact fits_record.mpr ⟨header, by simpa using few⟩
  next => exact .pure ⟨rfl, _, rfl, shows⟩

theorem Shows.createRoot (room : Room t 1) (old_ : old < 2 ^ 64) (after_ : after < 2 ^ 64) :
    Mirrors (t.createRoot key old after) ((t.over f).createRoot key old after) (Shown ps) := by
  have sized := shows.sized.allocIndex room
  have alloc : Shows ((t.info.slot, .internal) :: ps) (t.alloc Index).2 f := shows.alloc sized
  have root : Shows _ { (t.alloc Index).2 with info := { (t.alloc Index).2.info with
      rootOffset := t.info.slot, height := t.info.height + 1 } } f := alloc.info rfl
    { sized with
      rootOffset := shows.sized.slot
      height := Nat.add_le_add shows.sized.height (by decide : 1 ≤ NodeType.size Index) }
  have zero : 0 < 2 ^ 64 := Nat.two_pow_pos 64
  have node : Node.Fits (⟨⟨0, 0, 0⟩, [⟨key, old⟩, ⟨Key.empty, after⟩]⟩ : Node Index) := fits_index.mpr
    ⟨⟨zero, zero, zero⟩, Nat.le_of_ble_eq_true rfl,
      List.forall_mem_cons.mpr ⟨old_, List.forall_mem_singleton.mpr after_⟩⟩
  exact ((root.unmapMeta.unmapFresh node).resetIndexChildrenParent shows.sized.slot).mono fun _ _ shown => shown.1

theorem Shows.insertKeyToIndex {off old after : Offset} {fuel fuel' : Nat} (room : Room t (fuel + 1))
    (old_ : old < 2 ^ 64) (after_ : after < 2 ^ 64) (more : fuel ≤ fuel') :
    Mirrors (t.insertKeyToIndex off key old after fuel) ((t.over f).insertKeyToIndex off key old after fuel')
      (Shown ps) := by
  -- On `fuel`: a full node takes a block of the room and the climb goes on with one less.
  induction fuel generalizing t f off key old after fuel' with
  | zero => cases fuel' <;> exact .ite (fun _ => shows.createRoot room old_ after_) fun _ => .error
  | succ fuel ih =>
    obtain ⟨steps, rfl⟩ := Nat.exists_eq_add_of_lt more
    have one : Room t 1 := room.mono (Nat.le_add_left ..)
    refine .ite (fun _ => shows.createRoot one old_ after_) fun _ => shows.map.bind fun _ node ⟨same, fits, here⟩ => ?_
    subst same
    have small := (shows.offset here).1
    refine .ite (fun _ => .ite (fun _ => ?_) fun _ => ?_) fun _ => .error
    · refine (shows.nodeCreate fits small (shows.sized.allocIndex one)).bind
        fun ⟨t', node', newNode⟩ ⟨_, _⟩ ⟨same, ⟨f', same', shows'⟩, created, info, full, fresh⟩ => ?_
      cases same
      cases same'
      refine .same ((splitIndex_fits full fresh after_).and splitIndex_next)
        fun ⟨middle, node'', newNode⟩ ⟨⟨left, right⟩, next⟩ => ?_
      rw [← next] at shows'
      have both := (shows'.unmap (created.written here) left).unmapFresh right
      refine (both.resetIndexChildrenParent left.header.next).bind fun t'' _ ⟨⟨f'', same, shows''⟩, info'⟩ => ?_
      subst same
      have slot : t''.info.slot = t.info.slot + NodeType.size Index := by
        rw [info']
        exact congrArg Meta.slot info
      refine ih shows'' ?_ small left.header.next (Nat.le_add_right ..)
      rw [Room, slot, Nat.add_assoc, Nat.add_comm (NodeType.size Index), ← Nat.succ_mul]
      exact room
    · exact .same (insertKeyToIndexNoSplit_fits fits after_) fun node fits => .pure ⟨_, rfl, shows.unmap here fits⟩

theorem Shows.insert (roomy : t.Roomy) : Mirrors (t.insert key value) ((t.over f).insert key value) (Answers ps) := by
  refine shows.searchIndex.bind fun _ parent same => ?_
  subst same
  refine shows.searchLeafFrom.bind fun _ off same => ?_
  subst same
  refine shows.map.bind fun _ leaf ⟨same, fits, here⟩ => ?_
  subst same
  have small := (shows.offset here).1
  have one : Room t 1 := Nat.lt_of_le_of_lt (Nat.add_le_add_right roomy _) (by decide)
  refine .ite (fun _ => .pure ⟨rfl, _, rfl, shows⟩) fun _ => .ite (fun _ => ?_) fun _ => ?_
  · refine (shows.nodeCreate fits small (shows.sized.allocRecord one)).bind
      fun ⟨t', leaf', newLeaf⟩ ⟨_, _⟩ ⟨same, ⟨f', same', shows'⟩, created, info, full, fresh⟩ => ?_
    cases same
    cases same'
    refine .same ((splitLeaf_fits full fresh).and splitLeaf_next) fun ⟨leaf'', newLeaf⟩ ⟨⟨left, right⟩, next⟩ => ?_
    rw [← next] at shows'
    have both := (shows'.unmap (created.written here) left).unmapFresh right
    have room := roomy.room both.blocks_le (congrArg Meta.slot info)
    refine .same .trivial fun first _ => ?_
    exact (both.insertKeyToIndex room small left.header.next (Nat.succ_le_succ both.few)).bind
      fun _ _ shown => .pure ⟨rfl, shown⟩
  · exact .same (insertRecordNoSplit_fits _ fits.header) fun leaf fits => .pure ⟨rfl, _, rfl, shows.unmap here fits⟩

end Insertion

/-- The same attempt to borrow, the bytes of the tree after it, and a borrower that fits. -/
structure Borrows {α : Type} [NodeType α] (ps : List (Offset × Kind)) (r : Bool × BPlusTree × Node α)
    (r' : Bool × BPlusTree Image × Node α) : Prop where
  borrowed : r'.1 = r.1
  node : r'.2.2 = r.2.2
  shown : Shown ps r.2.1 r'.2.1
  fits : r.2.2.Fits

/-- The parent is written before an index entry moves. -/
structure Moved (ps : List (Offset × Kind)) (t : BPlusTree) (r : BPlusTree × Node Index)
    (r' : BPlusTree Image × Node Index) : Prop where
  node : r'.2 = r.2
  shown : Shown ps r.1 r'.1
  edits : EditsTo ⟨ps, t⟩ ⟨ps, r.1⟩
  fits : r.2.Fits

theorem assertSlot_mem {slots : List α} : Ensures (assertSlot slots i) (· ∈ slots) := by
  intro slot found
  unfold assertSlot at found
  split at found
  next present =>
    cases found
    exact List.mem_of_getElem? present
  next => cases found

theorem mergeLeafs_fits {left : Node Record} (header : left.toHeader.Fits) :
    Ensures (BPlusTree.mergeLeafs left right) Node.Fits :=
  appendSlots_fitting.bind fun _ few => .pure (fits_record.mpr ⟨header, few⟩)

theorem fits_setKey {node : Node Index} (fits : node.Fits) (mem : slot ∈ node.children) (key : Key) (w : Nat) :
    Node.Fits { node with children := node.children.set w { slot with key := key } } := by
  obtain ⟨header, few, small⟩ := fits_index.mp fits
  exact fits_index.mpr ⟨header, by simpa using few, small.set (small slot mem)⟩

section Removal

variable {ps : List (Offset × Kind)} {t : BPlusTree} {f : Image} (shows : Shows ps t f)
include shows

theorem Shows.changeParentChild {fuel fuel' : Nat} (more : fuel ≤ fuel') :
    Mirrors (t.changeParentChild parent o n fuel) ((t.over f).changeParentChild parent o n fuel') (Shown ps) := by
  induction fuel generalizing t f parent fuel' with
  | zero => exact .error
  | succ fuel ih =>
    obtain ⟨steps, rfl⟩ := Nat.exists_eq_add_of_lt more
    refine shows.map.bind fun _ node ⟨same, fits, here⟩ => ?_
    subst same
    refine .same assertSlot_mem fun slot mem => ?_
    have written := shows.unmap here (fits_setKey fits mem n (findIndex node o))
    exact .ite (fun _ => ih written (Nat.le_add_right ..)) fun _ => .pure ⟨_, rfl, written⟩

theorem Shows.climb : Mirrors (t.changeParentChild parent o n t.climbFuel)
    ((t.over f).changeParentChild parent o n (t.over f).climbFuel) fun t' i' =>
      Shown ps t' i' ∧ EditsTo ⟨ps, t⟩ ⟨ps, t'⟩ :=
  (shows.changeParentChild (Nat.succ_le_succ shows.few)).and (changeParentChild_edits shows.laid)

theorem Shows.borrowRecord (fits : borrower.Fits) :
    Mirrors (t.borrowRecord fromRight borrower) ((t.over f).borrowRecord fromRight borrower) (Borrows ps) := by
  refine shows.map.bind fun _ lender ⟨same, lenderFits, here⟩ => ?_
  subst same
  refine .ite (fun _ => .ite (fun _ => ?_) fun _ => .pure ⟨rfl, rfl, ⟨_, rfl, shows⟩, fits⟩) fun _ => .error
  obtain ⟨header, few⟩ := fits_record.mp lenderFits
  have erased (i : Nat) : Node.Fits { lender with children := lender.children.eraseIdx i } :=
    fits_record.mpr ⟨header, (List.length_eraseIdx_le _ _).trans few⟩
  refine .same .trivial fun lent _ => .ite (fun _ => ?_) fun _ => ?_
  · refine .same .trivial fun first _ => .same .trivial fun second _ => shows.climb.bind
      fun t' _ ⟨⟨f', same, shows'⟩, changed⟩ => ?_
    subst same
    exact .same openSlot_fitting fun slots few => .pure ⟨rfl, rfl,
      ⟨_, rfl, shows'.unmap (changed.written here) (erased _)⟩, fits_record.mpr ⟨fits.header, few⟩⟩
  · refine .same .trivial fun first _ => shows.climb.bind fun t' _ ⟨⟨f', same, shows'⟩, changed⟩ => ?_
    subst same
    exact .same openSlot_fitting fun slots few => .pure ⟨rfl, rfl,
      ⟨_, rfl, shows'.unmap (changed.written here) (erased _)⟩, fits_record.mpr ⟨fits.header, few⟩⟩

theorem Shows.borrowIndex (fits : borrower.Fits) (small : off < 2 ^ 64) :
    Mirrors (t.borrowIndex fromRight borrower off) ((t.over f).borrowIndex fromRight borrower off) (Borrows ps) := by
  refine shows.map.bind fun _ lender ⟨same, lenderFits, here⟩ => ?_
  subst same
  refine .ite (fun _ => .ite (fun _ => ?_) fun _ => .pure ⟨rfl, rfl, ⟨_, rfl, shows⟩, fits⟩) fun _ => .error
  obtain ⟨header, few, children⟩ := fits_index.mp lenderFits
  obtain ⟨header', few', children'⟩ := fits_index.mp fits
  have erased (i : Nat) : Node.Fits { lender with children := lender.children.eraseIdx i } :=
    fits_index.mpr ⟨header, (List.length_eraseIdx_le _ _).trans few, children.eraseIdx⟩
  -- Both ways end alike: the child that moved is written, then the lender.
  have rest {lent : Index} (mem : lent ∈ lender.children) (put i : Nat) {r : BPlusTree × Node Index}
      {r' : BPlusTree Image × Node Index} (moved : Moved ps t r r') : Mirrors
        (do let slots ← openSlot r.2.children put lent
            let t ← r.1.resetIndexChildrenParent [lent] off
            pure (true, t.unmap { lender with children := lender.children.eraseIdx i }
              (if fromRight then borrower.next else borrower.prev), { r.2 with children := slots }))
        (do let slots ← openSlot r'.2.children put lent
            let t ← r'.1.resetIndexChildrenParent [lent] off
            pure (true, t.unmap { lender with children := lender.children.eraseIdx i }
              (if fromRight then borrower.next else borrower.prev), { r'.2 with children := slots })) (Borrows ps) := by
    obtain ⟨t', borrower'⟩ := r
    obtain ⟨_, _⟩ := r'
    obtain ⟨same, ⟨f', same', shows'⟩, written, fits'⟩ := moved
    cases same
    cases same'
    obtain ⟨header', -, children'⟩ := fits_index.mp fits'
    refine .same (openSlot_small children' (children lent mem)) fun slots ⟨few, small'⟩ => ?_
    refine ((shows'.resetIndexChildrenParent small).and (resetIndexChildrenParent_edits written.laid)).bind
      fun t'' _ ⟨⟨⟨f'', same, shows''⟩, _⟩, child⟩ => ?_
    subst same
    exact .pure ⟨rfl, rfl, ⟨_, rfl, shows''.unmap (child.written (written.written here)) (erased i)⟩,
      fits_index.mpr ⟨header', few, small'⟩⟩
  refine .same slotAt_mem fun lent mem => .ite (fun _ => shows.map.bind fun _ parent ⟨same, parentFits, there⟩ => ?_)
    fun _ => shows.map.bind fun _ parent ⟨same, parentFits, there⟩ => ?_
  all_goals subst same
  · refine .same .trivial fun last _ => .same slotAt_mem fun slot inside => ?_
    have parent' := fits_setKey parentFits inside lent.key
      (lowerBound (parent.children.dropLast.map Index.key) last.key)
    have moved : Moved ps t (_, borrower) (_, borrower) :=
      ⟨rfl, ⟨_, rfl, shows.unmap there parent'⟩, (EditsTo.refl shows.laid).unmap there _, fits⟩
    exact .bind (.pure moved) fun _ _ moved => rest mem _ _ moved
  · refine .same .trivial fun first _ => .same slotAt_mem fun slot inside => .same .trivial fun before _ => ?_
    have parent' := fits_setKey parentFits inside before.key (findIndex parent first.key)
    have overwritten : Node.Fits { borrower with
        children := borrower.children.modify 0 fun s => { s with key := slot.key } } :=
      fits_index.mpr ⟨header', by simpa using few',
        children'.modify (fun s => { s with key := slot.key }) fun _ small => small⟩
    have moved : Moved ps t (_, _) (_, _) :=
      ⟨rfl, ⟨_, rfl, shows.unmap there parent'⟩, (EditsTo.refl shows.laid).unmap there _, overwritten⟩
    exact .bind (.pure moved) fun _ _ moved => rest mem _ _ moved

theorem Shows.borrowFromSiblings (fits : node.Fits) (small : off < 2 ^ 64) :
    Mirrors (t.borrowFromSiblings node off first last) ((t.over f).borrowFromSiblings node off first last)
      (Borrows ps) := by
  refine .ite (fun _ => (shows.borrowIndex fits small).bind fun ⟨borrowed, t', node⟩ ⟨_, _, _⟩ tried => ?_) fun _ => ?_
  · obtain ⟨same, same', ⟨f', same'', shows'⟩, fits'⟩ := tried
    cases same
    cases same'
    cases same''
    exact .ite (fun _ => shows'.borrowIndex fits' small) fun _ => .pure ⟨rfl, rfl, ⟨_, rfl, shows'⟩, fits'⟩
  · exact .ite (fun _ => shows.borrowIndex fits small) fun _ => .pure ⟨rfl, rfl, ⟨_, rfl, shows⟩, fits⟩

theorem Shows.borrowFromNeighbours (fits : leaf.Fits) :
    Mirrors (t.borrowFromNeighbours leaf) ((t.over f).borrowFromNeighbours leaf) (Borrows ps) := by
  refine .ite (fun _ => (shows.borrowRecord fits).bind fun ⟨borrowed, t', leaf⟩ ⟨_, _, _⟩ tried => ?_) fun _ => ?_
  · obtain ⟨same, same', ⟨f', same'', shows'⟩, fits'⟩ := tried
    cases same
    cases same'
    cases same''
    exact .ite (fun _ => shows'.borrowRecord fits') fun _ => .pure ⟨rfl, rfl, ⟨_, rfl, shows'⟩, fits'⟩
  · exact .ite (fun _ => shows.borrowRecord fits) fun _ => .pure ⟨rfl, rfl, ⟨_, rfl, shows⟩, fits⟩

theorem Shows.mergeKeys (fits : node.Fits) (fits' : next.Fits) :
    Mirrors (t.mergeKeys node next) ((t.over f).mergeKeys node next) fun r r' =>
      Shown ps r.1 r'.1 ∧ r'.2 = r.2 ∧ r.2.Fits := by
  obtain ⟨header, -, small⟩ := fits_index.mp fits
  obtain ⟨header', -, small'⟩ := fits_index.mp fits'
  exact .same (appendSlots_small small small') fun slots appended =>
    shows.nodeRemove (fits_index.mpr ⟨header, appended⟩) header' shows.sized.unallocIndex

theorem Shows.mergeIndex (fits : node.Fits) (here : t.Written off .internal) :
    Mirrors (t.mergeIndex node off last) ((t.over f).mergeIndex node off last) (Shown ps) := by
  refine .ite (fun _ => .ite (fun _ => .ite (fun _ => ?_) fun _ => .error)
    fun _ => .ite (fun _ => ?_) fun _ => .error) fun _ => .error
  · refine shows.map.bind fun _ prev ⟨same, prevFits, there⟩ => ?_
    subst same
    refine ((shows.resetIndexChildrenParent fits.header.prev).and (resetIndexChildrenParent_edits shows.laid)).bind
      fun t' _ ⟨⟨⟨f', same, shows'⟩, _⟩, moved⟩ => ?_
    subst same
    refine ((shows'.mergeKeys prevFits fits).and (mergeKeys_edits moved.laid)).bind
      fun ⟨t'', prev'⟩ ⟨_, _⟩ ⟨⟨⟨f'', same, shows''⟩, same', fits''⟩, merged⟩ => ?_
    cases same
    cases same'
    exact .pure ⟨_, rfl, shows''.unmap (merged.written (moved.written there)) fits''⟩
  · refine shows.map.bind fun _ next ⟨same, nextFits, _⟩ => ?_
    subst same
    refine ((shows.resetIndexChildrenParent (shows.offset here).1).and (resetIndexChildrenParent_edits shows.laid)).bind
      fun t' _ ⟨⟨⟨f', same, shows'⟩, _⟩, moved⟩ => ?_
    subst same
    refine ((shows'.mergeKeys fits nextFits).and (mergeKeys_edits moved.laid)).bind
      fun ⟨t'', node'⟩ ⟨_, _⟩ ⟨⟨⟨f'', same, shows''⟩, same', fits''⟩, merged⟩ => ?_
    cases same
    cases same'
    exact .pure ⟨_, rfl, shows''.unmap (merged.written (moved.written here)) fits''⟩

theorem Shows.mergeLeaf (fits : leaf.Fits) (here : t.Written off .leaf) :
    Mirrors (t.mergeLeaf leaf off isLast) ((t.over f).mergeLeaf leaf off isLast) fun r r' =>
      Shown ps r.1 r'.1 ∧ r'.2 = r.2 := by
  refine .ite (fun _ => .ite (fun _ => .ite (fun _ => ?_) fun _ => .error)
    fun _ => .ite (fun _ => ?_) fun _ => .error) fun _ => .error
  · refine shows.map.bind fun _ prev ⟨same, prevFits, there⟩ => ?_
    subst same
    refine .same .trivial fun first _ => .same (mergeLeafs_fits prevFits.header) fun both bothFits => ?_
    refine ((shows.nodeRemove bothFits fits.header shows.sized.unallocRecord).and (nodeRemove_edits shows.laid)).bind
      fun ⟨t', both'⟩ ⟨_, _⟩ ⟨⟨⟨f', same, shows'⟩, same', fits'⟩, removed⟩ => ?_
    cases same
    cases same'
    exact .pure ⟨⟨_, rfl, shows'.unmap (removed.written there) fits'⟩, rfl⟩
  · refine shows.map.bind fun _ next ⟨same, nextFits, _⟩ => ?_
    subst same
    refine .same .trivial fun first _ => .same (mergeLeafs_fits fits.header) fun both bothFits => ?_
    refine ((shows.nodeRemove bothFits nextFits.header shows.sized.unallocRecord).and
      (nodeRemove_edits shows.laid)).bind fun ⟨t', both'⟩ ⟨_, _⟩ ⟨⟨⟨f', same, shows'⟩, same', fits'⟩, removed⟩ => ?_
    cases same
    cases same'
    exact .pure ⟨⟨_, rfl, shows'.unmap (removed.written here) fits'⟩, rfl⟩

theorem Shows.removeFromIndex {fuel fuel' : Nat} (fits : node.Fits) (here : t.Written off .internal)
    (more : fuel ≤ fuel') : Mirrors (t.removeFromIndex off node key fuel)
      ((t.over f).removeFromIndex off node key fuel') (Shown ps) := by
  induction fuel generalizing t f off node key fuel' with
  | zero => exact .error
  | succ fuel ih =>
    obtain ⟨steps, rfl⟩ := Nat.exists_eq_add_of_lt more
    obtain ⟨header, few, small⟩ := fits_index.mp fits
    refine .ite (fun _ => .same .trivial fun first _ => .same (deleteEntry_small few small)
      fun slots ⟨few, small⟩ => ?_) fun _ => .error
    have fits' : Node.Fits { node with children := slots } := fits_index.mpr ⟨header, few, small⟩
    refine .ite (fun _ => .same slotAt_mem fun only mem => ?_) fun _ => .ite (fun _ => ?_) fun _ => ?_
    · have sized := shows.sized.unallocIndex
      have root : Shows ps { t with info := { (t.unalloc Index).info with
          height := (t.unalloc Index).info.height - 1, rootOffset := only.child } } f :=
        shows.info rfl { sized with
          height := (Nat.sub_le ..).trans sized.height
          rootOffset := small only mem }
      exact .pure ⟨_, rfl, root.unmapMeta⟩
    · refine shows.map.bind fun _ parent ⟨same, parentFits, there⟩ => ?_
      subst same
      refine .same .trivial fun first _ => .same .trivial fun last _ => ?_
      refine ((shows.borrowFromSiblings fits' (shows.offset here).1).and
        ((borrowFromSiblings_edits shows.laid).and borrowFromSiblings_header)).bind
        fun ⟨borrowed, t', node'⟩ ⟨_, _, _⟩ ⟨⟨same, same', ⟨f', same'', shows'⟩, fits'⟩, tried, links⟩ => ?_
      cases same
      cases same'
      cases same''
      refine .ite (fun _ => .pure ⟨_, rfl, shows'.unmap (tried.written here) fits'⟩) fun _ => ?_
      refine ((shows'.mergeIndex fits' (tried.written here)).and
        (mergeIndex_edits tried.laid (tried.written here))).bind fun t'' _ ⟨⟨f'', same, shows''⟩, merged⟩ => ?_
      subst same
      rw [← congrArg Header.parent links] at there
      exact ih shows'' parentFits (merged.written (tried.written there)) (Nat.le_add_right ..)
    · exact .pure ⟨_, rfl, shows.unmap here fits'⟩

theorem Shows.remove : Mirrors (t.remove key) ((t.over f).remove key) (Answers ps) := by
  refine shows.searchIndex.bind fun _ parentOff same => ?_
  subst same
  refine shows.map.bind fun _ parent ⟨same, parentFits, above⟩ => ?_
  subst same
  refine .same .trivial fun slot _ => shows.map.bind fun _ leaf ⟨same, fits, here⟩ => ?_
  subst same
  obtain ⟨header, few⟩ := fits_record.mp fits
  have erased (i : Nat) : Node.Fits { leaf with children := leaf.children.eraseIdx i } :=
    fits_record.mpr ⟨header, (List.length_eraseIdx_le _ _).trans few⟩
  refine .ite (fun _ => .ite (fun _ => .ite (fun _ => ?_) fun _ => .pure ⟨rfl, _, rfl, shows.unmap here (erased _)⟩)
    fun _ => .error) fun _ => .pure ⟨rfl, _, rfl, shows⟩
  refine ((shows.borrowFromNeighbours (erased _)).and (borrowFromNeighbours_edits shows.laid)).bind
    fun ⟨borrowed, t', leaf'⟩ ⟨_, _, _⟩ ⟨⟨same, same', ⟨f', same'', shows'⟩, fits'⟩, tried⟩ => ?_
  cases same
  cases same'
  cases same''
  refine .ite (fun _ => .pure ⟨rfl, _, rfl, shows'.unmap (tried.written here) fits'⟩) fun _ => ?_
  refine ((shows'.mergeLeaf fits' (tried.written here)).and (mergeLeaf_edits tried.laid (tried.written here))).bind
    fun ⟨t'', indexKey⟩ ⟨_, _⟩ ⟨⟨⟨f'', same, shows''⟩, same'⟩, merged⟩ => ?_
  cases same
  cases same'
  exact (shows''.removeFromIndex parentFits (merged.written (tried.written above)) (Nat.succ_le_succ shows''.few)).bind
    fun _ _ shown => .pure ⟨rfl, shown⟩

end Removal

theorem Shows.call {t : BPlusTree} {f : Image} (shows : Shows ps t f) (roomy : t.Roomy) (c : Call) :
    Mirrors (t.call c) ((t.over f).call c) (Answers ps) := by
  cases c with
  | insert key value =>
    exact (shows.insert roomy).bind fun r r' ⟨same, shown⟩ => .pure ⟨congrArg (·, none) same, shown⟩
  | update key value => exact shows.update.bind fun r r' ⟨same, shown⟩ => .pure ⟨congrArg (·, none) same, shown⟩
  | remove key => exact shows.remove.bind fun r r' ⟨same, shown⟩ => .pure ⟨congrArg (·, none) same, shown⟩
  | search key => exact shows.search.bind fun r r' same => .pure ⟨same, _, rfl, shows⟩

end Fdfs2qq.Bpt
