import Fdfs2qq.Bpt.SplitProofs
import Fdfs2qq.Bpt.Levels

/-! The climb of `insert_key_to_index`. A row in which one cell was split is
restacked: the new cell gets its slot, full nodes above are split in turn, and
past the top a new root is created. -/
namespace Fdfs2qq.Bpt
open Lib

/-- The outcome of a climb: `lower` kept its cells up to parent fields, and the
levels above index it with these bounds. -/
structure Restacked [NodeType α] (t t' : BPlusTree) (lower lower' : List (Cell α))
    (bounds : List Key) (levels levels' : List (List (Cell Index))) : Prop where
  row : LinkedRow t'.file lower'
  same : bodies lower' = bodies lower
  tower : Tower t'.file t'.info.rootOffset (ids lower') bounds levels'
  placed : Placed t'.info.slot (levelOffs levels')
  grown : ∀ o ∈ levelOffs levels', o ∈ levelOffs levels ∨ t.info.slot ≤ o
  indexed : levels' ≠ []
  order : t'.info.order = t.info.order
  leafNodeNum : t'.info.leafNodeNum = t.info.leafNodeNum
  leafOffset : t'.info.leafOffset = t.info.leafOffset
  nodes : t'.info.internalNodeNum + countNodes levels = t.info.internalNodeNum + countNodes levels'
  height : t'.info.height + levels.length = t.info.height + levels'.length
  slot : t.info.slot ≤ t'.info.slot
  frame : ∀ o < t.info.slot, o ∉ offsets lower ++ levelOffs levels →
    t'.file.get o = t.file.get o

theorem Restacked.joined [NodeType α] {t t' : BPlusTree} {lower lower' : List (Cell α)}
    {bounds : List Key} {levels levels' : List (List (Cell Index))}
    (up : Restacked t t' lower lower' bounds levels levels')
    (placed : Placed t.info.slot (offsets lower ++ levelOffs levels)) :
    Placed t'.info.slot (offsets lower' ++ levelOffs levels') := by
  rw [offsets_of_bodies up.same]
  apply placed.left.join up.placed up.slot
  intro o mem mem'
  rcases up.grown o mem with old | new
  · exact placed.apart mem' old
  · exact absurd (placed.left.allocated o mem') (not_lt.mpr new)

/-- A new bound between `U` and `u` leaves a gap at the slot that is displaced. -/
theorem slotGap_of_ascending {X Y : List Index} {e : Index} {L R : List (Cell Index)}
    {U V : List Key} (asc : Ascending (U ++ k :: u :: V))
    (before : U = rowKeys L ++ X.map Index.key) (here : V ≠ [] → e.key = u)
    (after : SameInit (Y.map Index.key ++ rowKeys R) V) : SlotGap k X e Y := by
  rw [Ascending, dropLast_append_cons_cons, List.pairwise_append, List.pairwise_cons] at asc
  constructor
  · intro x mem
    exact asc.2.2 x.key (by simp only [before, List.mem_append, List.mem_map]; exact Or.inr ⟨x, mem, rfl⟩)
      k (by simp)
  · intro y mem
    have same : SameInit ((e :: Y).map Index.key ++ rowKeys R) (u :: V) := by
      simpa using SameInit.append_cons (A := []) rfl
        (fun ne => here fun empty => ne (after.nil_iff.mpr empty)) after
    apply asc.2.1.1 y.key
    rw [← same.2]
    have inside : y.key ∈ ((e :: Y).map Index.key).dropLast := by
      rw [← List.map_dropLast]
      exact List.mem_map_of_mem mem
    cases R' : rowKeys R with
    | nil => simpa using inside
    | cons r rs =>
      rw [List.dropLast_append_of_ne_nil (by simp)]
      exact List.mem_append_left _ (List.dropLast_subset _ inside)

namespace BPlusTree

theorem createRoot_climb [NodeType α] {t : BPlusTree} {x y : Cell α}
    (linked : LinkedRow t.file [x, y]) (placed : Placed t.info.slot (offsets [x, y])) (k u : Key) :
    ∃ t' lower' levels', t.createRoot k x.off y.off = .ok t' ∧
      Restacked t t' [x, y] lower' [k, u] [] levels' := by
  have fresh := placed.fresh
  have positive : 0 < t.info.slot :=
    lt_of_le_of_lt (Nat.zero_le x.off) (placed.allocated x.off (by simp))
  obtain ⟨slots, slots_eq⟩ : ∃ slots : List Index,
    slots = [⟨k, x.off⟩, ⟨Key.empty, y.off⟩] := ⟨_, rfl⟩
  obtain ⟨info', info_eq⟩ : ∃ m : Meta, m = { t.info with
    internalNodeNum := t.info.internalNodeNum + 1, slot := t.info.slot + 1472,
    rootOffset := t.info.slot, height := t.info.height + 1 } := ⟨_, rfl⟩
  obtain ⟨t₂, t₂_eq⟩ : ∃ t₂ : BPlusTree, t₂ = (unmapMeta { t with info := info' }).unmap
    ((⟨t.info.slot, 0, slots⟩ : Cell Index).node 0 0) t.info.slot := ⟨_, rfl⟩
  have info₂ : t₂.info = info' := by rw [t₂_eq]; rfl
  have run : t.createRoot k x.off y.off = t₂.resetIndexChildrenParent slots t.info.slot := by
    rw [t₂_eq, info_eq, slots_eq]
    rfl
  have linked₂ : LinkedRow t₂.file ([] ++ ([x, y] ++ [])) := by
    rw [t₂_eq]
    exact linked_frame (fun o mem => get_unmap_ne _ _ (ne_of_mem_of_not_mem mem fresh)) linked
  obtain ⟨t', ok, info, linked', frame⟩ := resetIndexChildrenParent_row linked₂
    placed.distinct (show slots.map Index.child = _ by rw [slots_eq]; rfl) t.info.slot
  have held : (⟨t.info.slot, 0, slots⟩ : Cell Index).Holds t'.file 0 0 := by
    rw [Cell.Holds, frame _ fresh, t₂_eq]
    exact get_unmap_self _ _ _
  refine ⟨t', [x, y].map (Cell.reparent t.info.slot), [[⟨t.info.slot, 0, slots⟩]], run ▸ ok, ?_⟩
  rw [info₂] at info
  refine ⟨by simpa using linked', bodies_reparent _ _, ?_, ?_, ?_, by simp, ?_, ?_, ?_, ?_, ?_, ?_, ?_⟩
  · have root : t'.info.rootOffset = t.info.slot := by rw [info, info_eq]
    rw [root]
    refine Tower.ofRoot held rfl ?_ ?_ ?_ ?_
    all_goals rw [slots_eq]
    · rfl
    · exact ⟨rfl, rfl⟩
    · simp
    · simp [bpOrder]
  · have slot : t'.info.slot = t.info.slot + 1472 := by rw [info, info_eq]
    rw [slot]
    refine ⟨by simp, by simpa using positive.ne, by simp⟩
  · simp
  any_goals rw [info, info_eq]
  · simp
  · simp
  · exact Nat.le_add_right _ _
  · intro o small outside
    simp only [levelOffs_nil, List.append_nil] at outside
    rw [frame o outside, t₂_eq, get_unmap_ne _ _ (Nat.ne_of_lt small)]
    rfl

theorem insertKeyToIndex_zero (t : BPlusTree) (k : Key) (old after : Offset) (fuel : Nat) :
    t.insertKeyToIndex 0 k old after fuel = t.createRoot k old after := by
  cases fuel <;> simp [insertKeyToIndex]

theorem insertKeyToIndex_room {t : BPlusTree} {c : Cell Index} {X Y : List Index} {e : Index}
    (held : c.Holds t.file next prev) (nonzero : c.off ≠ 0) (items : c.items = X ++ e :: Y)
    (gap : SlotGap k X e Y) (room : c.items.length < bpOrder) (order : t.info.order = bpOrder)
    (v : Offset) (fuel : Nat) :
    t.insertKeyToIndex c.off k e.child v (fuel + 1) = .ok (t.unmap
      ((⟨c.off, c.parent, X ++ ⟨k, e.child⟩ :: { e with child := v } :: Y⟩ : Cell Index).node next
        prev) c.off) := by
  have opened := insertKeyToIndexNoSplit_gap (c.node next prev) gap.above gap.displaced
    items (items ▸ room) v
  simp only [Cell.node] at opened
  simp only [insertKeyToIndex, nonzero, if_false, held.map, bind, Except.bind, order, Cell.node,
    room.le, if_true, room.ne, opened, pure, Except.pure]

/-- What splitting the cell `c` with these slots leaves: the right half is a new
cell and has taken its children along, and `middle` is the bound of the left one. -/
structure Halves [NodeType α] (t t₁ : BPlusTree) (lower lower₁ : List (Cell α)) (L : List (Cell Index))
    (c : Cell Index) (R : List (Cell Index)) (slots : List Index) (middle : Key) (I J : List Index) :
    Prop where
  info : t₁.info = (t.alloc Index).2.info
  row : LinkedRow t₁.file lower₁
  same : bodies lower₁ = bodies lower
  listed : ids lower₁ = kids L ++ (slotKids c.off I ++ (slotKids t.info.slot J ++ kids R))
  rowUp : LinkedRow t₁.file (L ++ ⟨c.off, c.parent, I⟩ :: ⟨t.info.slot, c.parent, J⟩ :: R)
  joined : I ++ J = slots
  last : (I.map Index.key).getLast? = some middle
  leastI : bpOrder / 2 ≤ I.length
  leastJ : bpOrder / 2 ≤ J.length
  mostI : I.length ≤ bpOrder
  mostJ : J.length ≤ bpOrder
  frame : ∀ o ∉ offsets lower ++ offsets (L ++ c :: R), o ≠ t.info.slot →
    t₁.file.get o = t.file.get o

/-- One level of the climb at a full node: it is split, and the climb goes on with
the middle key. -/
theorem insertKeyToIndex_full [NodeType α] {t : BPlusTree} {lower : List (Cell α)}
    {L R : List (Cell Index)} {c : Cell Index} {X Y : List Index} {e : Index}
    (linked : LinkedRow t.file lower) (linkedUp : LinkedRow t.file (L ++ c :: R))
    (listed : ids lower =
      kids L ++ (slotKids c.off (X ++ ⟨k, e.child⟩ :: { e with child := v } :: Y) ++ kids R))
    (items : c.items = X ++ e :: Y) (gap : SlotGap k X e Y) (full : c.items.length = bpOrder)
    (placed : Placed t.info.slot (offsets lower ++ offsets (L ++ c :: R)))
    (order : t.info.order = bpOrder) (fuel : Nat) :
    ∃ (t₁ : BPlusTree) (middle : Key) (I J : List Index) (lower₁ : List (Cell α)),
      t.insertKeyToIndex c.off k e.child v (fuel + 1) =
        t₁.insertKeyToIndex c.parent middle c.off t.info.slot fuel ∧
      Halves t t₁ lower lower₁ L c R (X ++ ⟨k, e.child⟩ :: { e with child := v } :: Y) middle I J := by
  obtain ⟨_, held, _⟩ := LinkedRow.at_iff.mp linkedUp
  have placedUp := placed.right
  have nonzero : c.off ≠ 0 := fun zero => placedUp.positive (by simp [zero])
  have slots : (c.node t.info.slot (lastOff L)).children = X ++ e :: Y := items
  obtain ⟨middle, I, J, split, joined, last, sizes⟩ := splitIndex_gap
    (c.node t.info.slot (lastOff L)) ((⟨t.info.slot, c.parent, []⟩ : Cell Index).node (firstOff R) c.off)
    gap slots
    (items ▸ full) v
  obtain ⟨t₁, created, info₁, halves⟩ :=
    nodeCreate_row linkedUp placedUp.distinct placedUp.positive placedUp.fresh
  obtain ⟨t₂, written, info₂, linkedUp₂, frame₂⟩ := halves I J
  rw [← joined, slotKids_append, List.append_assoc] at listed
  obtain ⟨A, M, N, B, rfl, before, stay, move, after⟩ := row_of_ids listed
  have linked₂ : LinkedRow t₂.file ((A ++ M) ++ (N ++ B)) := by
    rw [List.append_assoc]
    refine linked_frame (fun o mem => frame₂ o (placed.apart mem) ?_) linked
    exact ne_of_mem_of_not_mem mem placed.left.fresh
  obtain ⟨t₃, reset, info₃, linked₃, frame₃⟩ := resetIndexChildrenParent_row linked₂
    (by simpa using placed.left.distinct) (offsets_of_slotKids move).symm t.info.slot
  have moved : ∀ o ∈ offsets N, o ∈ offsets (A ++ (M ++ (N ++ B))) := by
    intro o mem
    simp [mem]
  have outside : ∀ o, o ∈ offsets (L ++ c :: R) ∨ o = t.info.slot → o ∉ offsets N := by
    rintro o (mem | rfl) inN
    · exact placed.apart (moved o inN) mem
    · exact placed.left.fresh (moved _ inN)
  refine ⟨t₃, middle, I, J, _, ?_, by rw [info₃, info₂, info₁], linked₃, ?_, ?_, ?_, joined, last,
    sizes.1, sizes.2.1, sizes.2.2.1, sizes.2.2.2, ?_⟩
  · simp only [Cell.node] at split written
    simp only [insertKeyToIndex, nonzero, if_false, held.map, bind, Except.bind, order, created]
    simp only [Cell.node, full, le_refl, if_true, split, written, reset]
  · simp
  · simp only [ids_append, before, stay, after, ids_reparent (offsets_of_slotKids move),
      List.append_assoc]
  · refine linked_frame (fun o mem => frame₃ o (outside o ?_)) linkedUp₂
    simp only [offsets_append, offsets_cons, List.mem_append, List.mem_cons] at mem ⊢
    tauto
  · intro o out fresh
    rw [List.mem_append, not_or] at out
    rw [frame₃ o fun mem => out.1 (moved o mem), frame₂ o out.2 fresh]

end BPlusTree

theorem kids_split {A B : List (Cell α)} {x y : Cell α} {L R : List (Cell Index)} {c : Cell Index}
    {X Y : List Index} {e : Index} (child : e.child = x.off) (owner : c.off = x.parent)
    (sibling : y.parent = x.parent) (before : ids A = kids L ++ slotKids c.off X)
    (after : ids B = slotKids c.off Y ++ kids R) (k : Key) :
    ids (A ++ x :: y :: B) =
      kids L ++ (slotKids c.off (X ++ ⟨k, e.child⟩ :: { e with child := y.off } :: Y) ++ kids R) := by
  simp [before, after, child, owner, sibling]

theorem keys_split {L R : List (Cell Index)} {X Y : List Index} {e : Index} {U V : List Key}
    (before : U = rowKeys L ++ X.map Index.key) (here : V ≠ [] → e.key = u)
    (after : SameInit (Y.map Index.key ++ rowKeys R) V) (old new : Offset) :
    SameInit (rowKeys L ++ ((X ++ ⟨k, old⟩ :: { e with child := new } :: Y).map Index.key ++ rowKeys R))
      (U ++ k :: u :: V) := by
  simp only [List.map_append, List.map_cons, List.append_assoc, List.cons_append]
  rw [← List.append_assoc]
  apply SameInit.append_cons before.symm (fun _ => rfl)
  exact SameInit.append_cons (A := []) rfl (fun ne => here fun empty => ne (after.nil_iff.mpr empty))
    after

theorem lastKey_split {c d : Cell Index} {X Y : List Index} {e : Index}
    (items : c.items = X ++ e :: Y)
    (items' : d.items = X ++ ⟨k, old⟩ :: { e with child := new } :: Y) : lastKey d = lastKey c := by
  rw [lastKey_append_cons items, lastKey_append_cons (X := X ++ [⟨k, old⟩]) (by simpa using items')]

theorem Sized.split {L R : List (Cell Index)} {c d d' : Cell Index} (sized : Sized top (L ++ c :: R))
    (alone : top → L = [] ∧ R = []) (least : bpOrder / 2 ≤ d.items.length)
    (least' : bpOrder / 2 ≤ d'.items.length) (most : d.items.length ≤ bpOrder)
    (most' : d'.items.length ≤ bpOrder) : Sized top' (L ++ d :: d' :: R) := by
  have half : ∀ e ∈ L ++ d :: d' :: R, bpOrder / 2 ≤ e.items.length ∧ e.items.length ≤ bpOrder := by
    intro e mem
    simp only [List.mem_append, List.mem_cons] at mem
    rcases mem with mem | rfl | rfl | mem
    · have low : ¬ top := fun t => by simp [(alone t).1] at mem
      exact ⟨sized.atLeast low e (by simp [mem]), sized.atMost e (by simp [mem])⟩
    · exact ⟨least, most⟩
    · exact ⟨least', most'⟩
    · have low : ¬ top := fun t => by simp [(alone t).2] at mem
      exact ⟨sized.atLeast low e (by simp [mem]), sized.atMost e (by simp [mem])⟩
  refine ⟨fun e mem empty => ?_, fun e mem => (half e mem).2, fun _ e mem => (half e mem).1, ?_⟩
  · have := (half e mem).1
    simp [empty, bpOrder] at this
  · intro _
    simp only [List.length_append, List.length_cons]
    omega

theorem Ascending.skip {U V : List Key} (asc : Ascending (U ++ k :: u :: V)) :
    Ascending (U ++ u :: V) := by
  rw [Ascending, dropLast_append_cons_cons] at asc
  rw [Ascending, List.dropLast_append_of_ne_nil (List.cons_ne_nil _ _)]
  exact asc.sublist ((List.Sublist.refl U).append (List.sublist_cons_self k _))

/-- The cell that split was off the free end, or the bound below its middle key rises. -/
theorem Ascending.split {L R : List (Cell Index)} {c : Cell Index} {I J : List Index}
    (nonempty : ∀ d ∈ L ++ c :: R, d.items ≠ []) (left : I ≠ []) (right : J ≠ [])
    (asc : Ascending (rowKeys L ++ ((I ++ J).map Index.key ++ rowKeys R)))
    (last : (I.map Index.key).getLast? = some middle)
    (last' : lastKey ⟨o, p, J⟩ = lastKey c) :
    Ascending (Bpt.uppers L ++ middle :: lastKey c :: Bpt.uppers R) := by
  have cut : lastKey ⟨o, p, I⟩ = middle := by simp [lastKey, last]
  have rows : Ascending (rowKeys (L ++ ⟨o, p, I⟩ :: ⟨o, p, J⟩ :: R)) := by simpa using asc
  have := rows.uppers (by
    intro d mem
    simp only [List.mem_append, List.mem_cons] at mem
    rcases mem with mem | rfl | rfl | mem
    · exact nonempty d (by simp [mem])
    · exact left
    · exact right
    · exact nonempty d (by simp [mem]))
  simpa [cut, last'] using this

theorem Placed.apart_split {lower : List (Cell α)} {L R : List (Cell Index)} {c : Cell Index}
    {rest : List (List (Cell Index))} {I J : List Index}
    (placed : Placed m (offsets lower ++ levelOffs ((L ++ c :: R) :: rest))) (mem : o ∈ offsets lower) :
    o ∉ offsets (L ++ ⟨c.off, c.parent, I⟩ :: ⟨m, c.parent, J⟩ :: R) ++ levelOffs rest := by
  intro inUp
  have fresh : o ≠ m := ne_of_mem_of_not_mem mem placed.left.fresh
  apply placed.apart mem
  simp only [offsets_append, offsets_cons, List.mem_append, List.mem_cons] at inUp
  simp only [levelOffs_cons, offsets_append, offsets_cons, List.mem_append, List.mem_cons]
  tauto

namespace BPlusTree

section Climb

variable [NodeType α] {t t₁ t' : BPlusTree} {lower lower₁ : List (Cell α)} {L R row' : List (Cell Index)}
  {c : Cell Index} {slots X Y I J : List Index} {e : Index} {bounds : List Key} {middle : Key}
  {rest levels' : List (List (Cell Index))}

theorem restacked_room (linked : LinkedRow t.file lower) (linkedUp : LinkedRow t.file (L ++ c :: R))
    (items : c.items = X ++ e :: Y) (room : c.items.length < bpOrder)
    (listed : ids lower =
      kids L ++ (slotKids c.off (X ++ ⟨k, e.child⟩ :: { e with child := v } :: Y) ++ kids R))
    (keyed : SameInit
      (rowKeys L ++ ((X ++ ⟨k, e.child⟩ :: { e with child := v } :: Y).map Index.key ++ rowKeys R)) bounds)
    (sized : Sized (rest = []) (L ++ c :: R))
    (upper : Tower t.file t.info.rootOffset (ids (L ++ c :: R)) (uppers (L ++ c :: R)) rest)
    (placed : Placed t.info.slot (offsets lower ++ levelOffs ((L ++ c :: R) :: rest))) :
    Restacked t (t.unmap ((⟨c.off, c.parent, X ++ ⟨k, e.child⟩ :: { e with child := v } :: Y⟩ :
        Cell Index).node (firstOff R) (lastOff L)) c.off) lower lower bounds ((L ++ c :: R) :: rest)
      ((L ++ ⟨c.off, c.parent, X ++ ⟨k, e.child⟩ :: { e with child := v } :: Y⟩ :: R) :: rest) := by
  have inRow : c.off ∈ offsets (L ++ c :: R) := by simp
  have inUp : c.off ∈ levelOffs ((L ++ c :: R) :: rest) := List.mem_append_left _ inRow
  have grown : (X ++ ⟨k, e.child⟩ :: { e with child := v } :: Y).length = c.items.length + 1 := by
    simp only [items, List.length_append, List.length_cons]
    omega
  have written := unmap_row linkedUp placed.right.left.distinct
    (X ++ ⟨k, e.child⟩ :: { e with child := v } :: Y)
  refine ⟨?_, rfl, ?_, ?_, ?_, by simp, rfl, rfl, rfl, ?_, rfl, le_rfl, ?_⟩
  · refine linked_frame (fun o mem => get_unmap_ne _ _ ?_) linked
    exact ne_of_mem_of_not_mem mem (placed.apart' inUp)
  · refine Tower.refill written listed.symm keyed ?_ (fun _ => lastKey_split items rfl) ?_
    · apply sized.refill (by simp) (by rw [grown]; exact room)
      intro low
      rw [grown]
      exact (sized.atLeast low c (by simp)).trans (Nat.le_succ _)
    · refine upper.frame fun o mem => get_unmap_ne _ _ ?_
      exact ne_of_mem_of_not_mem mem (placed.right.apart inRow)
  · simpa using placed.right
  · exact fun o mem => Or.inl (by simpa using mem)
  · simp
  · intro o _ outside
    apply get_unmap_ne
    rintro rfl
    exact outside (List.mem_append_right _ inUp)

namespace Halves

variable (halves : Halves t t₁ lower lower₁ L c R slots middle I J)
include halves

theorem mark : t.info.slot < t₁.info.slot := by
  have slot : t₁.info.slot = t.info.slot + 1472 := by rw [halves.info]; rfl
  rw [slot]
  exact Nat.lt_add_of_pos_right (by decide)

theorem filled : I ≠ [] ∧ J ≠ [] := by
  constructor
  · intro empty
    have least := halves.leastI
    simp [empty, bpOrder] at least
  · intro vacant
    have least := halves.leastJ
    simp [vacant, bpOrder] at least

theorem lastKey_left : lastKey ⟨c.off, c.parent, I⟩ = middle := by
  simp only [lastKey, halves.last, Option.getD_some]

theorem lastKey_right (bound : lastKey ⟨c.off, c.parent, slots⟩ = lastKey c) :
    lastKey ⟨t.info.slot, c.parent, J⟩ = lastKey c := by
  rw [← bound, ← halves.joined]
  obtain ⟨Z, z, rfl⟩ := (List.eq_nil_or_concat' J).resolve_left halves.filled.2
  simp [lastKey]

theorem ascending (nonempty : ∀ d ∈ L ++ c :: R, d.items ≠ [])
    (bound : lastKey ⟨c.off, c.parent, slots⟩ = lastKey c)
    (asc : Ascending (rowKeys L ++ (slots.map Index.key ++ rowKeys R))) :
    Ascending (uppers L ++ middle :: lastKey c :: uppers R) := by
  obtain ⟨left, right⟩ := halves.filled
  apply Ascending.split nonempty left right _ halves.last (halves.lastKey_right bound)
  rw [halves.joined]
  exact asc

theorem upper (upper : Tower t.file t.info.rootOffset (ids (L ++ c :: R)) (uppers (L ++ c :: R)) rest)
    (placed : Placed t.info.slot (offsets lower ++ levelOffs ((L ++ c :: R) :: rest))) :
    Tower t₁.file t₁.info.rootOffset (ids (L ++ ⟨c.off, c.parent, I⟩ :: R))
      (uppers L ++ lastKey c :: uppers R) rest := by
  have same : ids (L ++ ⟨c.off, c.parent, I⟩ :: R) = ids (L ++ c :: R) := by simp
  have root : t₁.info.rootOffset = t.info.rootOffset := by rw [halves.info]; rfl
  rw [same, root, ← uppers_cons, ← uppers_append]
  refine upper.frame fun o mem => halves.frame o ?_ (ne_of_mem_of_not_mem mem placed.right.right.fresh)
  rw [List.mem_append, not_or]
  exact ⟨placed.apart' (List.mem_append_right _ mem), placed.right.apart' mem⟩

theorem placed (placed : Placed t.info.slot (offsets lower ++ levelOffs ((L ++ c :: R) :: rest))) :
    Placed t₁.info.slot
      (offsets (L ++ ⟨c.off, c.parent, I⟩ :: ⟨t.info.slot, c.parent, J⟩ :: R) ++ levelOffs rest) := by
  have old : Placed t.info.slot (offsets L ++ c.off :: (offsets R ++ levelOffs rest)) := by
    simpa using placed.right
  simpa using old.grow halves.mark

theorem restacked (keyed : SameInit (rowKeys L ++ (slots.map Index.key ++ rowKeys R)) bounds)
    (bound : lastKey ⟨c.off, c.parent, slots⟩ = lastKey c) (sized : Sized (rest = []) (L ++ c :: R))
    (upper : Tower t.file t.info.rootOffset (ids (L ++ c :: R)) (uppers (L ++ c :: R)) rest)
    (placed : Placed t.info.slot (offsets lower ++ levelOffs ((L ++ c :: R) :: rest)))
    (up : Restacked t₁ t' (L ++ ⟨c.off, c.parent, I⟩ :: ⟨t.info.slot, c.parent, J⟩ :: R) row'
      (uppers L ++ middle :: lastKey c :: uppers R) rest levels') :
    Restacked t t' lower lower₁ bounds ((L ++ c :: R) :: rest) (row' :: levels') := by
  have mark := halves.mark
  have offs := offsets_of_bodies up.same
  have count := length_of_bodies up.same
  simp only [List.length_append, List.length_cons] at count
  have upKeys : uppers row' = uppers L ++ middle :: lastKey c :: uppers R := by
    rw [uppers_of_bodies up.same, uppers_append, uppers_cons, uppers_cons, halves.lastKey_left,
      halves.lastKey_right bound]
  refine ⟨?_, halves.same, ?_, ?_, ?_, by simp, ?_, ?_, ?_, ?_, ?_, ?_, ?_⟩
  · refine linked_frame (fun o mem => ?_) halves.row
    rw [offsets_of_bodies halves.same] at mem
    exact up.frame o ((placed.left.allocated o mem).trans mark) (placed.apart_split mem)
  · refine .level up.row ?_ ?_ ?_ ?_
    · rw [kids_of_bodies up.same, halves.listed]
      simp
    · rw [rowKeys_of_bodies up.same]
      refine SameInit.trans ?_ keyed
      rw [← halves.joined]
      simpa using SameInit.refl _
    · refine Sized.of_bodies up.same.symm
        (sized.split (fun empty => ?_) halves.leastI halves.leastJ halves.mostI halves.mostJ)
      subst empty
      exact upper.single
    · rw [upKeys]
      exact up.tower
  · exact up.joined (halves.placed placed)
  · intro o mem
    rw [levelOffs_cons, offs, List.mem_append] at mem
    simp only [levelOffs_cons, offsets_append, offsets_cons, List.mem_append, List.mem_cons] at mem ⊢
    rcases mem with (mem | rfl | rfl | mem) | mem
    · tauto
    · tauto
    · exact Or.inr le_rfl
    · tauto
    · rcases up.grown o mem with old | new
      · tauto
      · exact Or.inr (mark.le.trans new)
  · rw [up.order, halves.info]; rfl
  · rw [up.leafNodeNum, halves.info]; rfl
  · rw [up.leafOffset, halves.info]; rfl
  · have nodes := up.nodes
    have one : t₁.info.internalNodeNum = t.info.internalNodeNum + 1 := by rw [halves.info]; rfl
    simp only [countNodes_cons, List.length_append, List.length_cons, count]
    omega
  · have height := up.height
    have stays : t₁.info.height = t.info.height := by rw [halves.info]; rfl
    simp only [List.length_cons]
    omega
  · exact mark.le.trans up.slot
  · intro o small outside
    simp only [List.mem_append, not_or, levelOffs_cons] at outside
    have notSlot : o ≠ t.info.slot := Nat.ne_of_lt small
    rw [up.frame o (small.trans mark), halves.frame o _ notSlot]
    · rw [List.mem_append, not_or]
      exact ⟨outside.1, outside.2.1⟩
    rw [List.mem_append, not_or]
    refine ⟨fun mem => ?_, outside.2.2⟩
    simp only [offsets_append, offsets_cons, List.mem_append, List.mem_cons] at mem outside
    tauto

end Halves

end Climb

/-- The climb after the cell `x` was split into `x` and `y`, with `k` between. -/
theorem insertKeyToIndex_climb (levels : List (List (Cell Index))) :
    ∀ {α : Type} [NodeType α] {t : BPlusTree} {A B : List (Cell α)} {x y : Cell α}
      {U V : List Key} {k u : Key} {fuel : Nat},
    LinkedRow t.file (A ++ x :: y :: B) → y.parent = x.parent →
    Tower t.file t.info.rootOffset (ids (A ++ x :: B)) (U ++ u :: V) levels →
    U.length = A.length → V.length = B.length → Ascending (U ++ k :: u :: V) →
    Placed t.info.slot (offsets (A ++ x :: y :: B) ++ levelOffs levels) →
    t.info.order = bpOrder → levels.length ≤ fuel →
    ∃ t' lower' levels', t.insertKeyToIndex x.parent k x.off y.off fuel = .ok t' ∧
      Restacked t t' (A ++ x :: y :: B) lower' (U ++ k :: u :: V) levels levels' := by
  induction levels with
  | nil =>
    intro α _ t A B x y U V k u fuel linked _ tower lenU lenV _ placed _ _
    obtain ⟨rfl, rfl⟩ := tower.single
    obtain rfl := List.length_eq_zero_iff.mp lenU
    obtain rfl := List.length_eq_zero_iff.mp lenV
    have orphan := tower.top_inv
    simp only [List.nil_append, ids_cons, ids_nil, List.cons.injEq, Prod.mk.injEq, and_true] at orphan
    rw [orphan.2, insertKeyToIndex_zero]
    exact createRoot_climb linked (by simpa using placed) k u
  | cons row rest ih =>
    intro α _ t A B x y U V k u fuel linked sibling tower lenU lenV asc placed order enough
    obtain ⟨linkedUp, listed, keyed, sized, upper⟩ := tower.level_inv
    have listed' : kids row = ids A ++ (x.off, x.parent) :: ids B := by simpa using listed
    obtain ⟨L, c, R, X, e, Y, rfl, items, child, owner, before, after, keysU, here, keysV⟩ :=
      level_split listed' keyed (by simpa using lenU)
    have gap := slotGap_of_ascending asc keysU here keysV
    have nonzero : c.off ≠ 0 := fun zero => placed.right.left.positive (by simp [zero])
    obtain ⟨_, held, _⟩ := LinkedRow.at_iff.mp linkedUp
    obtain ⟨n, rfl⟩ : ∃ n, fuel = n + 1 := ⟨fuel - 1, by simp only [List.length_cons] at enough; omega⟩
    have newKids := kids_split child owner sibling before after k
    have newKeys := keys_split keysU here keysV (k := k) e.child y.off
    rw [← owner, ← child]
    rcases Nat.lt_or_ge c.items.length bpOrder with room | full
    · -- the climb ends here
      exact ⟨_, _, _, insertKeyToIndex_room held nonzero items gap room order y.off n,
        restacked_room linked linkedUp items room newKids newKeys sized upper placed⟩
    · have full : c.items.length = bpOrder := le_antisymm (sized.atMost c (by simp)) full
      obtain ⟨t₁, middle, I, J, lower₁, climbs, halves⟩ := insertKeyToIndex_full linked linkedUp newKids
        items gap full (placed.sublist (by simp)) order n
      have bound : lastKey ⟨c.off, c.parent, X ++ ⟨k, e.child⟩ :: { e with child := y.off } :: Y⟩ =
          lastKey c := lastKey_split items rfl
      obtain ⟨t', row', levels', run, up⟩ := ih halves.rowUp rfl (halves.upper upper placed) (by simp)
        (by simp) (halves.ascending sized.nonempty bound (asc.of_sameInit newKeys)) (halves.placed placed)
        (by rw [halves.info]; exact order) (show rest.length ≤ n by simpa using enough)
      exact ⟨t', lower₁, row' :: levels', climbs.trans run,
        halves.restacked newKeys bound sized upper placed up⟩

end BPlusTree
end Fdfs2qq.Bpt
