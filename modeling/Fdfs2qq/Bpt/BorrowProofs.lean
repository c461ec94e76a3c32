import Fdfs2qq.Bpt.Defects
import Fdfs2qq.Bpt.SplitProofs
import Fdfs2qq.Bpt.Levels

/-! The repairs of an internal node that lost an entry: no repair, a slot
borrowed from either side, a merge with either side. -/
namespace Fdfs2qq.Bpt
open Lib

/-- The slots that are left when the children of `ex` and `ey` became one,
depending on which of the two entries is deleted. -/
def keptSlots (lastGone : Bool) (X : List Index) (ex ey : Index) (Y : List Index) : List Index :=
  if lastGone then X ++ ex :: Y else X ++ { ey with child := ex.child } :: Y

theorem modify_append_succ_nil (X : List γ) (x : γ) (f : γ → γ) :
    (X ++ [x]).modify (X.length + 1) f = X ++ [x] := by
  have := modify_length (X ++ [x]) f
  simpa using this

theorem deleteEntry_kept {X Y : List Index} {ex ey : Index} (atMost : (X ++ ex :: ey :: Y).length ≤ bpOrder) :
    deleteEntry (X ++ ex :: ey :: Y) X.length = .ok (keptSlots false X ex ey Y) := by
  have room : X.length + 1 < bpOrder := by
    simp only [List.length_append, List.length_cons] at atMost
    omega
  simp only [deleteEntry, slotAt_append_length, bind, Except.bind, room, if_true,
    modify_append_length_succ, eraseIdx_append_length, pure, Except.pure, keptSlots,
    Bool.false_eq_true, if_false]

/-- Deleting the last entry writes one slot further. -/
theorem deleteEntry_last {Z : List Index} {ey : Index} :
    deleteEntry (Z ++ [ey]) Z.length =
      if Z.length + 1 < bpOrder then .ok Z else .error .bounds := by
  simp only [deleteEntry, slotAt_append_length, bind, Except.bind, modify_append_succ_nil,
    eraseIdx_append_length, pure, Except.pure, List.append_nil]

theorem slotKids_kept (lastGone : Bool) (owner : Offset) (X : List Index) (ex ey : Index)
    (Y : List Index) : slotKids owner (keptSlots lastGone X ex ey Y) =
      slotKids owner (X ++ { ey with child := ex.child } :: Y) := by
  cases lastGone <;> simp [keptSlots]

theorem length_kept (lastGone : Bool) (X : List Index) (ex ey : Index) (Y : List Index) :
    (keptSlots lastGone X ex ey Y).length + 1 = (X ++ ex :: ey :: Y).length := by
  cases lastGone <;> simp [keptSlots] <;> omega

/-- What every climb keeps: the row below it up to parent fields, the counters
of the leaf level, and all blocks outside `lower` and `offs`. -/
structure Kept [NodeType α] (t t' : BPlusTree) (lower lower' : List (Cell α))
    (offs : List Offset) : Prop where
  row : LinkedRow t'.file lower'
  same : bodies lower' = bodies lower
  order : t'.info.order = t.info.order
  leafNodeNum : t'.info.leafNodeNum = t.info.leafNodeNum
  leafOffset : t'.info.leafOffset = t.info.leafOffset
  slot : t'.info.slot = t.info.slot
  frame : ∀ o ∉ offsets lower ++ offs, t'.file.get o = t.file.get o

theorem lowerBound_le (keys : List Key) (k : Key) : lowerBound keys k ≤ keys.length :=
  List.findIdx_le_length

theorem exists_split_of_le {slots : List γ} (filled : slots ≠ []) (inside : i ≤ slots.dropLast.length) :
    ∃ Z e W, slots = Z ++ e :: W ∧ Z.length = i := by
  have pos := List.length_pos_iff.mpr filled
  have less : i < slots.length := by
    rw [List.length_dropLast] at inside
    omega
  refine ⟨slots.take i, slots[i], slots.drop (i + 1), ?_, by simp; omega⟩
  rw [List.getElem_cons_drop, List.take_append_drop]

namespace BPlusTree

section Lending

variable {t : BPlusTree} (node : Node Index) (off : Offset) {lender parent : Node Index}
  {I J Z W : List Index} {e z s i before : Index}

theorem borrowIndex_right_run (order : t.info.order = bpOrder) (readL : t.map Index node.next = .ok lender)
    (readP : t.map Index node.parent = .ok parent) (slotsL : lender.children = e :: J)
    (more : bpOrder / 2 < lender.children.length) (slots : node.children = I ++ [z])
    (slotsP : parent.children = Z ++ s :: W)
    (place : lowerBound (parent.children.dropLast.map Index.key) z.key = Z.length)
    (reset : (t.unmap { parent with children := Z ++ { s with key := e.key } :: W }
      node.parent).resetIndexChildrenParent [e] off = .ok t') :
    t.borrowIndex true node off = if node.children.length < bpOrder then
      .ok (true, t'.unmap { lender with children := J } node.next,
        { node with children := node.children ++ [e] })
    else .error .bounds := by
  have enough : bpOrder / 2 ≤ lender.children.length := more.le
  have head : slotAt lender.children 0 = .ok e := by rw [slotsL]; rfl
  have last : slotAt node.children (node.children.length - 1) = .ok z := by
    rw [slots, List.length_append, List.length_singleton, Nat.add_sub_cancel, slotAt_append_length]
  have here : slotAt parent.children Z.length = .ok s := by rw [slotsP, slotAt_append_length]
  have there : parent.children.set Z.length { s with key := e.key } =
      Z ++ { s with key := e.key } :: W := by rw [slotsP, set_append_length]
  have lost : lender.children.eraseIdx 0 = J := by rw [slotsL]; rfl
  have opened : openSlot node.children node.children.length e =
      if node.children.length < bpOrder then .ok (node.children ++ [e]) else .error .bounds := by
    simp only [openSlot, List.insertIdx_length_self]
  simp only [borrowIndex, if_true, readL, readP, bind, Except.bind, order, enough, ne_eq, more.ne',
    not_false_eq_true, head, last, place, here, there, pure, Except.pure, opened]
  by_cases room : node.children.length < bpOrder
  · simp only [room, if_true, reset, lost]
  · simp only [room, if_false]

theorem borrowIndex_left_run (order : t.info.order = bpOrder) (readL : t.map Index node.prev = .ok lender)
    (readP : t.map Index lender.parent = .ok parent)
    (slotsL : lender.children = I ++ [before, e]) (more : bpOrder / 2 < lender.children.length)
    (first : lender.children.head? = some i) (slotsP : parent.children = Z ++ s :: W)
    (place : findIndex parent i.key = Z.length)
    (reset : (t.unmap { parent with children := Z ++ { s with key := before.key } :: W }
      lender.parent).resetIndexChildrenParent [e] off = .ok t') :
    t.borrowIndex false node off = if node.children.length < bpOrder then
      .ok (true, t'.unmap { lender with children := I ++ [before] } node.prev,
        { node with children := e :: node.children.modify 0 fun x => { x with key := s.key } })
    else .error .bounds := by
  have enough : bpOrder / 2 ≤ lender.children.length := more.le
  have len : lender.children.length - 1 = (I ++ [before]).length := by simp [slotsL]
  have lender_ : lender.children = (I ++ [before]) ++ e :: [] := by simp [slotsL]
  have last : slotAt lender.children (lender.children.length - 1) = .ok e := by
    rw [len, lender_, slotAt_append_length]
  have second : slotAt lender.children (lender.children.length - 1 - 1) = .ok before := by
    rw [len, List.length_append, List.length_singleton, Nat.add_sub_cancel, slotsL,
      slotAt_append_length]
  have lost : lender.children.eraseIdx (lender.children.length - 1) = I ++ [before] := by
    rw [len, lender_, eraseIdx_append_length, List.append_nil]
  have head : slotAt lender.children 0 = .ok i := slotAt_of_getElem? (List.head?_eq_getElem? ▸ first)
  have here : slotAt parent.children Z.length = .ok s := by rw [slotsP, slotAt_append_length]
  have there : parent.children.set Z.length { s with key := before.key } =
      Z ++ { s with key := before.key } :: W := by rw [slotsP, set_append_length]
  have opened : openSlot (node.children.modify 0 fun x => { x with key := s.key }) 0 e =
      if node.children.length < bpOrder then
        .ok (e :: node.children.modify 0 fun x => { x with key := s.key }) else .error .bounds := by
    simp only [openSlot, List.length_modify, List.insertIdx_zero]
  simp only [borrowIndex, Bool.false_eq_true, if_false, readL, readP, bind, Except.bind, order, enough,
    if_true, ne_eq, more.ne', not_false_eq_true, last, head, second, place, here, there, pure,
    Except.pure, opened]
  by_cases room : node.children.length < bpOrder
  · simp only [room, if_true, reset, lost]
  · simp only [room, if_false]

end Lending

end BPlusTree

namespace BPlusTree

section Neighbours

variable [NodeType α] {t : BPlusTree} {lower : List (Cell α)} {L R : List (Cell Index)}
  {c d : Cell Index} {K : List Index} {L₂ R₂ : List (Cell Index)} {p : Cell Index}

theorem apart_row {xs ys zs : List Offset} (placed : Placed slot (xs ++ (ys ++ zs)))
    (mem : o ∈ xs ++ zs) (first : o₁ ∈ ys) (second : o₂ ∈ ys) : o ≠ o₁ ∧ o ≠ o₂ := by
  rcases List.mem_append.mp mem with mem | mem
  · have outside : o ∉ ys := fun inside => placed.apart mem (List.mem_append_left _ inside)
    exact ⟨(ne_of_mem_of_not_mem first outside).symm, (ne_of_mem_of_not_mem second outside).symm⟩
  · have outside : o ∉ ys := placed.right.apart' mem
    exact ⟨(ne_of_mem_of_not_mem first outside).symm, (ne_of_mem_of_not_mem second outside).symm⟩

/-- The parent is written and some cells of the row below get another parent. -/
theorem reset_rows {A M B : List (Cell α)} {row : List (Cell Index)} {S : List Index}
    (linked : LinkedRow t.file (A ++ (M ++ B))) (linkedUp : LinkedRow t.file row)
    (linkedTop : LinkedRow t.file (L₂ ++ p :: R₂))
    (placed : Placed t.info.slot
      (offsets (A ++ (M ++ B)) ++ (offsets row ++ offsets (L₂ ++ p :: R₂))))
    (same : S.map Index.child = offsets M) (owner : Offset) (slots : List Index) :
    ∃ t', (t.unmap ((⟨p.off, p.parent, slots⟩ : Cell Index).node (firstOff R₂) (lastOff L₂))
        p.off).resetIndexChildrenParent S owner = .ok t' ∧ t'.info = t.info ∧
      LinkedRow t'.file (A ++ (M.map (Cell.reparent owner) ++ B)) ∧ LinkedRow t'.file row ∧
      LinkedRow t'.file (L₂ ++ ⟨p.off, p.parent, slots⟩ :: R₂) ∧
      ∀ o ∉ offsets M, o ≠ p.off → t'.file.get o = t.file.get o := by
  have apartLow : ∀ o ∈ offsets (A ++ (M ++ B)), o ≠ p.off := fun o mem =>
    ne_of_mem_of_not_mem mem (placed.apart' (by simp))
  have outM : ∀ o ∈ offsets row ++ offsets (L₂ ++ p :: R₂), o ∉ offsets M := fun o mem mem' =>
    placed.apart (by simp [mem']) mem
  obtain ⟨t', reset, info, linked', frame⟩ := resetIndexChildrenParent_row
    (linked_frame (fun o mem => get_unmap_ne t ((⟨p.off, p.parent, slots⟩ : Cell Index).node
      (firstOff R₂) (lastOff L₂)) (apartLow o mem)) linked) placed.left.distinct same owner
  refine ⟨t', reset, info, linked', linked_frame (fun o mem => ?_) linkedUp,
    linked_frame (fun o mem => frame o (outM o (List.mem_append_right _ ?_)))
      (unmap_row linkedTop placed.right.right.distinct slots), fun o outside notP => ?_⟩
  · rw [frame o (outM o (List.mem_append_left _ mem)), get_unmap_ne _ _]
    exact ne_of_mem_of_not_mem mem (placed.right.apart' (by simp))
  · simpa using mem
  · rw [frame o outside, get_unmap_ne _ _ notP]

/-- Borrowing from the left, when the search in the parent ends at slot `e`. -/
theorem borrowIndex_left {I Z W : List Index} {before lent i e : Index}
    (linked : LinkedRow t.file lower) (linkedUp : LinkedRow t.file (L ++ d :: c :: R))
    (linkedTop : LinkedRow t.file (L₂ ++ p :: R₂)) (items : d.items = I ++ [before, lent])
    (first : d.items.head? = some i)
    (listed : ids lower = kids L ++ (slotKids d.off d.items ++ (slotKids c.off K ++ kids R)))
    (placed : Placed t.info.slot
      (offsets lower ++ (offsets (L ++ d :: c :: R) ++ offsets (L₂ ++ p :: R₂))))
    (family : d.parent = p.off) (slots : p.items = Z ++ e :: W)
    (place : ∀ next prev, findIndex (p.node next prev) i.key = Z.length)
    (order : t.info.order = bpOrder) (more : bpOrder / 2 < d.items.length)
    (short : K.length < bpOrder / 2) :
    ∃ t' node' lower', t.borrowIndex false
        ((⟨c.off, c.parent, K⟩ : Cell Index).node (firstOff R) d.off) c.off = .ok (true, t', node') ∧
      (t'.unmap node' c.off).info = t.info ∧ LinkedRow (t'.unmap node' c.off).file lower' ∧
      bodies lower' = bodies lower ∧
      ids lower' = kids L ++ (slotKids d.off (I ++ [before]) ++ (slotKids c.off (lent :: K) ++ kids R)) ∧
      LinkedRow (t'.unmap node' c.off).file (L ++ ⟨d.off, d.parent, I ++ [before]⟩ ::
        ⟨c.off, c.parent, lent :: K.modify 0 fun x => { x with key := e.key }⟩ :: R) ∧
      LinkedRow (t'.unmap node' c.off).file
        (L₂ ++ ⟨p.off, p.parent, Z ++ { e with key := before.key } :: W⟩ :: R₂) ∧
      ∀ o ∉ offsets lower ++ (offsets (L ++ d :: c :: R) ++ offsets (L₂ ++ p :: R₂)),
        (t'.unmap node' c.off).file.get o = t.file.get o := by
  obtain ⟨_, heldD, _⟩ := LinkedRow.at_iff.mp linkedUp
  obtain ⟨_, heldP, _⟩ := LinkedRow.at_iff.mp linkedTop
  have listed' : ids lower = (kids L ++ slotKids d.off (I ++ [before])) ++
      (slotKids d.off [lent] ++ (slotKids c.off K ++ kids R)) := by
    rw [listed, items]
    simp
  obtain ⟨A, M, N, B, rfl, listedA, listedM, listedN, listedB⟩ := row_of_ids listed'
  obtain ⟨t₂, reset, info₂, linked₂, linkedUp₂, linkedTop₂, frame₂⟩ := reset_rows (S := [lent])
    linked linkedUp linkedTop placed (offsets_of_slotKids listedM).symm c.off
    (Z ++ { e with key := before.key } :: W)
  have distinctUp : (offsets (L ++ d :: c :: R)).Nodup := placed.right.left.distinct
  obtain ⟨K', K'_eq⟩ : ∃ K', K' = lent :: K.modify 0 fun x => { x with key := e.key } := ⟨_, rfl⟩
  have taken := unmap_neighbours linkedUp₂ distinctUp (I ++ [before]) K'
  have apartUp : ∀ o ∈ offsets (A ++ (M ++ (N ++ B))) ++ offsets (L₂ ++ p :: R₂), o ≠ d.off ∧ o ≠ c.off :=
    fun o mem => apart_row placed mem (by simp) (by simp)
  refine ⟨t₂.unmap ((⟨d.off, d.parent, I ++ [before]⟩ : Cell Index).node c.off (lastOff L)) d.off,
    (⟨c.off, c.parent, K'⟩ : Cell Index).node (firstOff R) d.off,
    A ++ (M.map (Cell.reparent c.off) ++ (N ++ B)), ?_, ?_, ?_, ?_, ?_, ?_, ?_, ?_⟩
  · have run := borrowIndex_left_run ((⟨c.off, c.parent, K⟩ : Cell Index).node (firstOff R) d.off) c.off order
      heldD.map
      (family ▸ heldP.map) items more first slots (place _ _) (family ▸ reset)
    have room : ((⟨c.off, c.parent, K⟩ : Cell Index).node (firstOff R) d.off).children.length < bpOrder :=
      short.trans (by decide)
    rw [if_pos room] at run
    rw [run, K'_eq]
    rfl
  · rw [unmap_info, unmap_info, info₂]
  · refine linked_frame (fun o mem => ?_) linked₂
    obtain ⟨notD, notC⟩ := apartUp o (List.mem_append_left _ (by simpa using mem))
    exact get_unmap_two _ _ _ notD notC
  · simp
  · have moved : ids (M.map (Cell.reparent c.off)) = slotKids c.off [lent] :=
      ids_reparent (offsets_of_slotKids listedM) c.off
    simp only [ids_append, listedA, listedN, listedB, moved, slotKids_append, slotKids_cons,
      slotKids_nil, List.append_assoc, List.cons_append, List.nil_append]
  · rw [← K'_eq]
    exact taken
  · refine linked_frame (fun o mem => ?_) linkedTop₂
    obtain ⟨notD, notC⟩ := apartUp o (List.mem_append_right _ (by simpa using mem))
    exact get_unmap_two _ _ _ notD notC
  · intro o outside
    simp only [offsets_append, offsets_cons, List.mem_append, List.mem_cons, not_or] at outside
    rw [get_unmap_two _ _ _ (by tauto) (by tauto), frame₂ o (by tauto) (by tauto)]

/-- Borrowing from the right, when the search in the parent ends at slot `e`. -/
theorem borrowIndex_right {I J Z W : List Index} {z lent e : Index}
    (linked : LinkedRow t.file lower) (linkedUp : LinkedRow t.file (L ++ c :: d :: R))
    (linkedTop : LinkedRow t.file (L₂ ++ p :: R₂)) (items : d.items = lent :: J)
    (listed : ids lower =
      kids L ++ (slotKids c.off (I ++ [z]) ++ (slotKids d.off d.items ++ kids R)))
    (placed : Placed t.info.slot
      (offsets lower ++ (offsets (L ++ c :: d :: R) ++ offsets (L₂ ++ p :: R₂))))
    (family : c.parent = p.off) (slots : p.items = Z ++ e :: W)
    (place : lowerBound (p.items.dropLast.map Index.key) z.key = Z.length)
    (order : t.info.order = bpOrder) (more : bpOrder / 2 < d.items.length)
    (short : (I ++ [z]).length < bpOrder / 2) :
    ∃ t' node' lower', t.borrowIndex true
        ((⟨c.off, c.parent, I ++ [z]⟩ : Cell Index).node d.off (lastOff L)) c.off =
          .ok (true, t', node') ∧
      (t'.unmap node' c.off).info = t.info ∧ LinkedRow (t'.unmap node' c.off).file lower' ∧
      bodies lower' = bodies lower ∧
      ids lower' =
        kids L ++ (slotKids c.off ((I ++ [z]) ++ [lent]) ++ (slotKids d.off J ++ kids R)) ∧
      LinkedRow (t'.unmap node' c.off).file
        (L ++ ⟨c.off, c.parent, (I ++ [z]) ++ [lent]⟩ :: ⟨d.off, d.parent, J⟩ :: R) ∧
      LinkedRow (t'.unmap node' c.off).file
        (L₂ ++ ⟨p.off, p.parent, Z ++ { e with key := lent.key } :: W⟩ :: R₂) ∧
      ∀ o ∉ offsets lower ++ (offsets (L ++ c :: d :: R) ++ offsets (L₂ ++ p :: R₂)),
        (t'.unmap node' c.off).file.get o = t.file.get o := by
  obtain ⟨_, _, heldD, _⟩ := LinkedRow.at_iff.mp linkedUp
  obtain ⟨_, heldP, _⟩ := LinkedRow.at_iff.mp linkedTop
  have listed' : ids lower = (kids L ++ slotKids c.off (I ++ [z])) ++
      (slotKids d.off [lent] ++ (slotKids d.off J ++ kids R)) := by
    rw [listed, items]
    simp
  obtain ⟨A, M, N, B, rfl, listedA, listedM, listedN, listedB⟩ := row_of_ids listed'
  obtain ⟨t₂, reset, info₂, linked₂, linkedUp₂, linkedTop₂, frame₂⟩ := reset_rows (S := [lent])
    linked linkedUp linkedTop placed (offsets_of_slotKids listedM).symm c.off
    (Z ++ { e with key := lent.key } :: W)
  have distinctUp : (offsets (L ++ c :: d :: R)).Nodup := placed.right.left.distinct
  have taken := unmap_neighbours' linkedUp₂ distinctUp ((I ++ [z]) ++ [lent]) J
  have apartUp : ∀ o ∈ offsets (A ++ (M ++ (N ++ B))) ++ offsets (L₂ ++ p :: R₂), o ≠ d.off ∧ o ≠ c.off :=
    fun o mem => apart_row placed mem (by simp) (by simp)
  refine ⟨t₂.unmap ((⟨d.off, d.parent, J⟩ : Cell Index).node (firstOff R) c.off) d.off,
    (⟨c.off, c.parent, (I ++ [z]) ++ [lent]⟩ : Cell Index).node d.off (lastOff L),
    A ++ (M.map (Cell.reparent c.off) ++ (N ++ B)), ?_, ?_, ?_, ?_, ?_, taken, ?_, ?_⟩
  · have run := borrowIndex_right_run ((⟨c.off, c.parent, I ++ [z]⟩ : Cell Index).node d.off (lastOff L)) c.off
      order heldD.map
      (family ▸ heldP.map) items more rfl slots place (family ▸ reset)
    have room : ((⟨c.off, c.parent, I ++ [z]⟩ : Cell Index).node d.off (lastOff L)).children.length <
        bpOrder := short.trans (by decide)
    rw [if_pos room] at run
    exact run
  · rw [unmap_info, unmap_info, info₂]
  · refine linked_frame (fun o mem => ?_) linked₂
    obtain ⟨notD, notC⟩ := apartUp o (List.mem_append_left _ (by simpa using mem))
    exact get_unmap_two _ _ _ notD notC
  · simp
  · have moved : ids (M.map (Cell.reparent c.off)) = slotKids c.off [lent] :=
      ids_reparent (offsets_of_slotKids listedM) c.off
    simp only [ids_append, listedA, listedN, listedB, moved, slotKids_append, List.append_assoc]
  · refine linked_frame (fun o mem => ?_) linkedTop₂
    obtain ⟨notD, notC⟩ := apartUp o (List.mem_append_right _ (by simpa using mem))
    exact get_unmap_two _ _ _ notD notC
  · intro o outside
    simp only [offsets_append, offsets_cons, List.mem_append, List.mem_cons, not_or] at outside
    rw [get_unmap_two _ _ _ (by tauto) (by tauto), frame₂ o (by tauto) (by tauto)]

theorem mergeKeys_rows {K J : List Index} (linked : LinkedRow t.file lower)
    (linkedUp : LinkedRow t.file (L ++ c :: d :: R))
    (listed : ids lower = kids L ++ (slotKids c.off K ++ (slotKids d.off J ++ kids R)))
    (placed : Placed t.info.slot (offsets lower ++ offsets (L ++ c :: d :: R)))
    (room : K.length + J.length ≤ bpOrder) :
    ∃ t₁ t₂ t' lower', t.resetIndexChildrenParent J c.off = .ok t₁ ∧
      t₁.mergeKeys ((⟨c.off, c.parent, K⟩ : Cell Index).node d.off (lastOff L))
          ((⟨d.off, d.parent, J⟩ : Cell Index).node (firstOff R) c.off) =
        .ok (t₂, (⟨c.off, c.parent, K ++ J⟩ : Cell Index).node (firstOff R) (lastOff L)) ∧
      t₂.unmap ((⟨c.off, c.parent, K ++ J⟩ : Cell Index).node (firstOff R) (lastOff L)) c.off = t' ∧
      t'.info = (t.unalloc Index).info ∧ LinkedRow t'.file lower' ∧ bodies lower' = bodies lower ∧
      ids lower' = kids L ++ (slotKids c.off (K ++ J) ++ kids R) ∧
      LinkedRow t'.file (L ++ ⟨c.off, c.parent, K ++ J⟩ :: R) ∧
      ∀ o ∉ offsets lower ++ offsets (L ++ c :: d :: R), t'.file.get o = t.file.get o := by
  obtain ⟨A, M, N, B, rfl, listedA, listedM, listedN, listedB⟩ := row_of_ids listed
  obtain ⟨t₁, reset, info₁, linked₁, frame₁⟩ := resetIndexChildrenParent_row (A := A ++ M) (M := N)
    (B := B) (S := J) (by simpa using linked) (by simpa using placed.left.distinct)
    (offsets_of_slotKids listedN).symm c.off
  have outN : ∀ o ∈ offsets (L ++ c :: d :: R), o ∉ offsets N := fun o mem mem' =>
    placed.apart (by simp [mem']) mem
  have linkedUp₁ : LinkedRow t₁.file (L ++ c :: d :: R) :=
    linked_frame (fun o mem => frame₁ o (outN o mem)) linkedUp
  obtain ⟨t₂, removed, info₂, t₃, written, info₃, linkedUp₃, frame₃⟩ := nodeRemove_row linkedUp₁
    placed.right.distinct placed.right.positive (K ++ J) J
  have appended : appendSlots K J = .ok (K ++ J) := by rw [appendSlots, if_pos room]
  refine ⟨t₁, t₂, t₃, (A ++ M) ++ (N.map (Cell.reparent c.off) ++ B), reset, ?_, written, ?_, ?_, ?_,
    ?_, linkedUp₃, ?_⟩
  · simp only [Cell.node] at removed
    simp only [mergeKeys, Cell.node, appended, bind, Except.bind, removed]
  · rw [info₃, info₂, unalloc, info₁]
    rfl
  · refine linked_frame (fun o mem => frame₃ o (placed.apart ?_)) linked₁
    simpa using mem
  · simp
  · simp only [ids_append, listedA, listedM, listedB, ids_reparent (offsets_of_slotKids listedN),
      slotKids_append, List.append_assoc]
  · intro o outside
    rw [List.mem_append, not_or] at outside
    have notN : o ∉ offsets N := fun mem => outside.1 (by simp [mem])
    rw [frame₃ o outside.2, frame₁ o notN]

theorem mergeIndex_left {K : List Index} {back : Offset} (heldD : d.Holds t.file c.off (lastOff L))
    (nonzero : d.off ≠ 0) (isLast : c.off = back)
    (reset : t.resetIndexChildrenParent K d.off = .ok t₁)
    (merged : t₁.mergeKeys (d.node c.off (lastOff L))
        ((⟨c.off, c.parent, K⟩ : Cell Index).node (firstOff R) d.off) = .ok (t₂, node')) :
    t.mergeIndex ((⟨c.off, c.parent, K⟩ : Cell Index).node (firstOff R) d.off) c.off back =
      .ok (t₂.unmap node' d.off) := by
  subst isLast
  simp only [Cell.node] at merged
  simp only [mergeIndex, Cell.node, ne_eq, nonzero, not_false_eq_true, or_true, if_true,
    heldD.map, bind, Except.bind, reset, merged, pure, Except.pure]

theorem mergeIndex_right {K : List Index} {back prev : Offset} (heldD : d.Holds t.file (firstOff R) c.off)
    (nonzero : d.off ≠ 0) (notLast : c.off ≠ back)
    (reset : t.resetIndexChildrenParent d.items c.off = .ok t₁)
    (merged : t₁.mergeKeys ((⟨c.off, c.parent, K⟩ : Cell Index).node d.off prev)
        (d.node (firstOff R) c.off) = .ok (t₂, node')) :
    t.mergeIndex ((⟨c.off, c.parent, K⟩ : Cell Index).node d.off prev) c.off back =
      .ok (t₂.unmap node' c.off) := by
  simp only [Cell.node] at merged
  simp only [mergeIndex, Cell.node, ne_eq, nonzero, not_false_eq_true, true_or, if_true, notLast,
    if_false, heldD.map, bind, Except.bind, reset, merged, pure, Except.pure]

theorem borrowIndex_none {borrower : Node Index} {fromRight : Bool} (held : d.Holds t.file next prev)
    (lender : (if fromRight then borrower.next else borrower.prev) = d.off)
    (order : t.info.order = bpOrder) (len : d.items.length = bpOrder / 2) (off : Offset) :
    t.borrowIndex fromRight borrower off = .ok (false, t, borrower) := by
  simp only [borrowIndex, lender, held.map, bind, Except.bind, order, Cell.node, len, le_refl, if_true,
    ne_eq, not_true_eq_false, if_false, pure, Except.pure]

end Neighbours

section Siblings

variable {t t' : BPlusTree} {node node' : Node Index} {off first last : Offset}

theorem borrowFromSiblings_left (notFirst : off ≠ first)
    (borrowed : t.borrowIndex false node off = .ok (true, t', node')) :
    t.borrowFromSiblings node off first last = .ok (true, t', node') := by
  simp only [borrowFromSiblings, ne_eq, notFirst, not_false_eq_true, if_true, borrowed, bind,
    Except.bind, not_true_eq_false, false_and, if_false, pure, Except.pure]

theorem borrowFromSiblings_right
    (left : off = first ∨ t.borrowIndex false node off = .ok (false, t, node)) (notLast : off ≠ last)
    (borrowed : t.borrowIndex true node off = .ok (true, t', node')) :
    t.borrowFromSiblings node off first last = .ok (true, t', node') := by
  by_cases here : off = first
  · simp only [borrowFromSiblings, here, ne_eq, not_true_eq_false, if_false, bind, Except.bind, pure,
      Except.pure, Bool.false_eq_true, not_false_eq_true, true_and]
    rw [if_pos (here ▸ notLast), ← here, borrowed]
  · simp only [borrowFromSiblings, ne_eq, here, not_false_eq_true, if_true, left.resolve_left here,
      bind, Except.bind, Bool.false_eq_true, notLast, and_self, borrowed]

theorem borrowFromSiblings_none
    (left : off = first ∨ t.borrowIndex false node off = .ok (false, t, node))
    (right : off = last ∨ t.borrowIndex true node off = .ok (false, t, node)) :
    t.borrowFromSiblings node off first last = .ok (false, t, node) := by
  have second : (if ¬ (false = true) ∧ off ≠ last then t.borrowIndex true node off
      else .ok (false, t, node)) = .ok (false, t, node) := by
    by_cases there : off = last
    · rw [if_neg (by simp [there])]
    · rw [if_pos (by simp [there]), right.resolve_left there]
  by_cases here : off = first
  · simp only [borrowFromSiblings, bind, Except.bind, pure, Except.pure, ne_eq, here,
      not_true_eq_false, if_false]
    exact here ▸ second
  · simp only [borrowFromSiblings, bind, Except.bind, pure, Except.pure, ne_eq, here,
      not_false_eq_true, if_true, left.resolve_left here]
    exact second

end Siblings

end BPlusTree
end Fdfs2qq.Bpt
