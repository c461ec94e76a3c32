import Fdfs2qq.Bpt.Separators
import Fdfs2qq.Bpt.BorrowProofs
import Fdfs2qq.Bpt.CallProofs

/-! `borrow_key` between two internal neighbours, as a reader of their parent
sees it: routing, separators and the child that changes hands. -/
namespace Fdfs2qq.Bpt
open Lib

namespace BPlusTree

def childrenOf (t : BPlusTree) (off : Offset) : List Offset :=
  match t.map Index off with
  | .ok node => node.children.map Index.child
  | .error _ => []

/-- `node` at `off` and the node `lender` that `borrow_key(from_right, node, off)`
maps are neighbours under the node at `p`, and `lender` can lend. -/
structure Neighbours (t : BPlusTree) (fromRight : Bool) (p : Place) (node : Node Index)
    (off lender : Offset) : Prop where
  order : t.info.order = bpOrder
  ordered : ∀ q ∈ p :: t.file.childPlaces p, t.SeparatedAt q ∧ t.LastSlotAt q
  stored : t.map Index off = .ok node
  adjacent : (if fromRight then [off, lender] else [lender, off]) <:+: t.childrenOf p.off
  link : (if fromRight then node.next else node.prev) = lender
  parents : ∀ o ∈ [off, lender], ∃ b ∈ t.file.get o, b.parent = p.off
  written : ∀ o ∈ t.childrenOf lender, t.file.get o ≠ none
  distinct : ((p.off :: t.childrenOf p.off) ++ t.childrenOf lender).Nodup
  more : bpOrder / 2 < (t.childrenOf lender).length

/-- One child of `lender` went to the node at `off`, and nothing else changed for
a descent from the node at `p`. -/
structure Rotated (before after : BPlusTree) (fromRight : Bool) (p : Place) (off lender : Offset) :
    Prop where
  routes : ∀ key, after.searchIndexFrom key 2 p.off = before.searchIndexFrom key 2 p.off
  separated : ∀ q ∈ p :: after.file.childPlaces p, after.SeparatedAt q
  moved : ∃ moved,
    (if fromRight then before.childrenOf lender = moved :: after.childrenOf lender ∧
        after.childrenOf off = before.childrenOf off ++ [moved]
      else before.childrenOf lender = after.childrenOf lender ++ [moved] ∧
        after.childrenOf off = moved :: before.childrenOf off) ∧
      ∃ b ∈ after.file.get moved, b.parent = off
  others : ∀ o, o ≠ off → o ≠ lender → after.childrenOf o = before.childrenOf o

/-- `borrow_key` lends, and once the caller has written the borrower back the
child has changed hands. -/
def Rotates (t : BPlusTree) (fromRight : Bool) (p : Place) (node : Node Index) (off lender : Offset) :
    Prop :=
  ∃ t' node', t.borrowIndex fromRight node off = .ok (true, t', node') ∧
    Rotated (t.unmap node off) (t'.unmap node' off) fromRight p off lender

theorem childrenOf_of_map {t : BPlusTree} {node : Node Index} (read : t.map Index off = .ok node) :
    t.childrenOf off = node.children.map Index.child := by
  simp only [childrenOf, read]

theorem map_of_get_eq [NodeType α] {t t' : BPlusTree} (same : t'.file.get off = t.file.get off) :
    t'.map α off = t.map α off := by
  simp only [map_eq, same]

theorem map_unmap [NodeType α] (t : BPlusTree) (node : Node α) (off : Offset) :
    (t.unmap node off).map α off = .ok node := map_of_get (get_unmap_self t node off)

/-- The blocks of a parent, a lender, a borrower and a moved child, and no others. -/
structure Turned (t t' : BPlusTree) (off lender top moved : Offset) (node' lender' parent' : Node Index) :
    Prop where
  readBorrower : t'.map Index off = .ok node'
  readLender : t'.map Index lender = .ok lender'
  readParent : t'.map Index top = .ok parent'
  reparented : ∃ b ∈ t.file.get moved,
    t'.file.get moved = some { b with toHeader := { b.toHeader with parent := off } }
  frame : ∀ o, o ∉ [off, lender, top, moved] → t'.file.get o = t.file.get o

theorem turned_of_writes {t : BPlusTree} (distinct : [off, lender, top, moved].Nodup)
    (found : t.file.get moved = some b) (node node' lender' parent' : Node Index) :
    ∃ t', (t.unmap parent' top).resetIndexChildrenParent [⟨k, moved⟩] off = .ok t' ∧
      Turned (t.unmap node off) ((t'.unmap lender' lender).unmap node' off) off lender top moved node'
        lender' parent' := by
  simp only [List.nodup_cons, List.mem_cons, List.not_mem_nil, or_false, not_or] at distinct
  obtain ⟨⟨offLender, offTop, offMoved⟩, ⟨lenderTop, lenderMoved⟩, topMoved, -⟩ := distinct
  have read : (t.unmap parent' top).file.get moved = some b := by
    rw [get_unmap_ne _ _ (Ne.symm topMoved), found]
  obtain ⟨t', run, info, here, frame⟩ := rewriteHeader_of_get read fun h => { h with parent := off }
  refine ⟨t', ?_, map_unmap _ node' off, ?_, ?_, ⟨b, ?_, ?_⟩, ?_⟩
  · simp only [resetIndexChildrenParent, run, bind, Except.bind]
  · rw [map_of_get_eq (get_unmap_ne _ _ (Ne.symm offLender))]
    exact map_unmap _ lender' lender
  · apply map_of_get
    rw [get_unmap_ne _ _ (Ne.symm offTop), get_unmap_ne _ _ (Ne.symm lenderTop), frame _ topMoved]
    exact get_unmap_self _ _ _
  · rw [get_unmap_ne _ _ (Ne.symm offMoved), found, Option.mem_def]
  · rw [get_unmap_ne _ _ (Ne.symm offMoved), get_unmap_ne _ _ (Ne.symm lenderMoved), here]
  · intro o outside
    simp only [List.mem_cons, List.not_mem_nil, or_false, not_or] at outside
    obtain ⟨notOff, notLender, notTop, notMoved⟩ := outside
    rw [get_unmap_ne _ _ notOff, get_unmap_ne _ _ notLender, frame _ notMoved, get_unmap_ne _ _ notTop,
      get_unmap_ne _ _ notOff]

end BPlusTree

theorem childPlaces_congr {f f' : File} {p : Place} (same : f'.get p.off = f.get p.off) :
    f'.childPlaces p = f.childPlaces p := by
  simp only [File.childPlaces, same]

/-- What the children of a node show of it when their node is not looked at. -/
def spans (hi lo : Option Key) (slots : List Index) : List (Offset × Option Key × Option Key) :=
  (placesBetween hi lo (slotMarks 0 slots)).map Place.span

theorem span_slotMarks (owner : Offset) (hi lo : Option Key) (slots : List Index) :
    (placesBetween hi lo (slotMarks owner slots)).map Place.span = spans hi lo slots := by
  induction slots generalizing lo with
  | nil => rfl
  | cons e rest ih =>
    have rest_ := ih (some e.key)
    simp only [spans, slotMarks_cons, placesBetween_cons, List.map_cons, slotMarks_eq_nil] at rest_ ⊢
    rw [rest_]
    rfl

theorem spans_append (hi lo : Option Key) (A : List Index) (x y : Index) (B : List Index) :
    spans hi lo (A ++ x :: y :: B) =
      spans (some x.key) lo (A ++ [x]) ++ spans hi (some x.key) (y :: B) := by
  simp only [spans, slotMarks_append, slotMarks_cons, placesBetween_append, List.map_append]
  rfl

/-- The key in the last slot does not show. -/
theorem spans_concat (hi lo : Option Key) (A : List Index) {x y : Index} (same : x.child = y.child) :
    spans hi lo (A ++ [x]) = spans hi lo (A ++ [y]) := by
  simp only [spans, slotMarks, List.map_append, List.map_cons, List.map_nil, placesBetween_concat,
    same]

structure Pair (t : BPlusTree) (p : Place) (Z : List Index) (l r : Index) (W : List Index)
    (parent left right : Node Index) : Prop where
  readParent : t.map Index p.off = .ok parent
  slots : parent.children = Z ++ l :: r :: W
  readLeft : t.map Index l.child = .ok left
  readRight : t.map Index r.child = .ok right

namespace Pair

variable {t t' : BPlusTree} {p : Place} {Z W : List Index} {l l' r : Index}
  {parent left right parent' left' right' : Node Index}

theorem childPlaces (pair : Pair t p Z l r W parent left right) : t.file.childPlaces p =
    placesBetween (Z.getLast?.map Index.key) p.lo (slotMarks p.off Z) ++
      ⟨l.child, p.off, keyBefore p.lo Z, some l.key⟩ ::
        ⟨r.child, p.off, some l.key, keyAfter p.hi r W⟩ ::
          placesBetween p.hi (some r.key) (slotMarks p.off W) := by
  rw [childPlaces_of_map pair.readParent, pair.slots, slotMarks_append, slotMarks_cons, slotMarks_cons,
    placesBetween_at, placesBetween_cons]
  simp only [getLast?_slotMarks, keyBefore, keyAfter, slotMarks_eq_nil, List.cons_ne_nil, if_false]

theorem child_of_mem {hi lo : Option Key} {owner : Offset} {slots : List Index} {q : Place}
    (mem : q ∈ placesBetween hi lo (slotMarks owner slots)) : ∃ s ∈ slots, q.off = s.child := by
  have inside := List.mem_map_of_mem (f := fun q : Place => (q.off, q.parent)) mem
  rw [placesBetween_ids, slotMarks, List.map_map, List.mem_map] at inside
  obtain ⟨s, inSlots, same⟩ := inside
  exact ⟨s, inSlots, (Prod.mk.inj same).1.symm⟩

/-- The two neighbours may be changed as long as they list the same children
between the same separators. -/
theorem spans_eq (pair : Pair t p Z l r W parent left right)
    (pair' : Pair t' p Z l' r W parent' left' right')
    (frame : ∀ s ∈ Z ++ W, t'.file.get s.child = t.file.get s.child)
    (two : ∀ hi lo, spans (some l'.key) lo left'.children ++ spans hi (some l'.key) right'.children =
      spans (some l.key) lo left.children ++ spans hi (some l.key) right.children) :
    (t'.placesBelow p 2).map Place.span = (t.placesBelow p 2).map Place.span := by
  have kept : ∀ {hi lo : Option Key} {S : List Index}, S ⊆ Z ++ W →
      (placesBetween hi lo (slotMarks p.off S)).flatMap t'.file.childPlaces =
        (placesBetween hi lo (slotMarks p.off S)).flatMap t.file.childPlaces := by
    intro hi lo S sub
    apply List.flatMap_congr
    intro q mem
    obtain ⟨s, inside, off⟩ := child_of_mem mem
    exact childPlaces_congr (by rw [off]; exact frame s (sub inside))
  have leftPlaces := childPlaces_of_map (p := ⟨l.child, p.off, keyBefore p.lo Z, some l.key⟩) pair.readLeft
  have rightPlaces := childPlaces_of_map (p := ⟨r.child, p.off, some l.key, keyAfter p.hi r W⟩)
    pair.readRight
  have leftPlaces' := childPlaces_of_map (p := ⟨l'.child, p.off, keyBefore p.lo Z, some l'.key⟩)
    pair'.readLeft
  have rightPlaces' := childPlaces_of_map (p := ⟨r.child, p.off, some l'.key, keyAfter p.hi r W⟩)
    pair'.readRight
  simp only [BPlusTree.placesBelow, List.flatMap_cons, List.flatMap_nil, List.append_nil,
    pair.childPlaces, pair'.childPlaces, List.flatMap_append, List.map_append, leftPlaces, rightPlaces,
    leftPlaces', rightPlaces', span_slotMarks, kept (List.subset_append_left Z W),
    kept (List.subset_append_right Z W)]
  rw [← List.append_assoc (spans _ _ _), two, List.append_assoc]

/-- The separator between the neighbours lies between those beside it. -/
theorem around (pair : Pair t p Z l r W parent left right) (separated : t.SeparatedAt p) :
    (∀ b ∈ keyBefore p.lo Z, b < l.key) ∧ ∀ h ∈ keyAfter p.hi r W, l.key < h := by
  obtain ⟨-, sorted, inside⟩ := (BPlusTree.separatedAt_iff pair.readParent).mp separated
  simp only [pair.slots, dropLast_append_cons_cons, List.map_append, List.map_cons,
    List.pairwise_append, List.pairwise_cons] at sorted inside
  have here := inside l.key (by simp)
  constructor
  · intro b before
    rcases List.eq_nil_or_concat' Z with rfl | ⟨Z, y, rfl⟩
    · exact here.1 b (by simpa [keyBefore] using before)
    · obtain rfl : y.key = b := by simpa [keyBefore] using before
      exact sorted.2.2 y.key (by simp) l.key (by simp)
  · intro h after
    unfold keyAfter at after
    split at after
    · exact here.2 h after
    next more =>
      obtain rfl : r.key = h := by simpa using after
      exact sorted.2.1.1 r.key (by rw [List.dropLast_cons_of_ne_nil more]; simp)

/-- What lies above the separator before `l` lies above all before it. -/
theorem least (pair : Pair t p Z l r W parent left right) (separated : t.SeparatedAt p)
    (above : ∀ b ∈ keyBefore p.lo Z, b < k) : ∀ x ∈ Z, x.key < k := by
  intro x mem
  rcases List.eq_nil_or_concat' Z with rfl | ⟨Z, y, rfl⟩
  · contradiction
  · have last : y.key ∈ keyBefore p.lo (Z ++ [y]) := by simp [keyBefore]
    exact ((separated.slot pair.readParent pair.slots).1 x mem y.key last).trans_lt (above y.key last)

/-- Another separator between the neighbours, with other slots in both. -/
theorem separated (pair : Pair t p Z l r W parent left right)
    (pair' : Pair t' p Z l' r W parent' left' right')
    (frame : ∀ s ∈ Z ++ W, t'.file.get s.child = t.file.get s.child)
    (ordered : ∀ q ∈ p :: t.file.childPlaces p, t.SeparatedAt q)
    (above : ∀ b ∈ keyBefore p.lo Z, b < l'.key) (below : ∀ h ∈ keyAfter p.hi r W, l'.key < h)
    (atLeft : t'.SeparatedAt ⟨l'.child, p.off, keyBefore p.lo Z, some l'.key⟩)
    (atRight : t'.SeparatedAt ⟨r.child, p.off, some l'.key, keyAfter p.hi r W⟩) :
    ∀ q ∈ p :: t'.file.childPlaces p, t'.SeparatedAt q := by
  have top := ordered p (List.mem_cons_self ..)
  have kept : ∀ q ∈ t.file.childPlaces p, (∃ s ∈ Z ++ W, q.off = s.child) → t'.SeparatedAt q := by
    rintro q mem ⟨s, inside, off⟩
    obtain ⟨node, found, rest⟩ := ordered q (List.mem_cons_of_mem _ mem)
    have same : t'.file.get q.off = t.file.get q.off := off ▸ frame s inside
    refine ⟨node, ?_, rest⟩
    rw [BPlusTree.map_of_get_eq same]
    exact found
  intro q mem
  rcases List.mem_cons.mp mem with rfl | mem
  · obtain ⟨-, sorted, inside⟩ := (BPlusTree.separatedAt_iff pair.readParent).mp top
    obtain ⟨-, low, -⟩ := top.slot pair.readParent pair.slots
    have high := (top.slot (X := Z ++ [l]) (e := r) (Y := W) pair.readParent (by simp [pair.slots])).2.2
    refine (BPlusTree.separatedAt_iff pair'.readParent).mpr ⟨by simp [pair'.slots], ?_⟩
    simp only [pair.slots, pair'.slots, dropLast_append_cons_cons, List.map_append, List.map_cons,
      List.pairwise_append, List.pairwise_cons] at sorted inside ⊢
    have least : ∀ x ∈ Z.map Index.key, x < l'.key := by
      intro x mem
      obtain ⟨s, inZ, rfl⟩ := List.mem_map.mp mem
      exact pair.least top above s inZ
    have most : ∀ x ∈ (r :: W).dropLast.map Index.key, l'.key < x := by
      intro x mem
      by_cases empty : W = []
      · simp [empty] at mem
      · have after : r.key ∈ keyAfter q.hi r W := by simp [keyAfter, empty]
        rw [List.dropLast_cons_of_ne_nil empty, List.map_cons, List.pairwise_cons] at sorted
        rw [List.dropLast_cons_of_ne_nil empty, List.map_cons] at mem
        rcases List.mem_cons.mp mem with rfl | mem
        · exact below r.key after
        · exact (below r.key after).trans (sorted.2.1.2.1 x mem)
    have between : q.Inside l'.key := by
      constructor
      · intro b inLow
        obtain ⟨b', before⟩ : ∃ b', b' ∈ keyBefore q.lo Z := by
          rcases List.eq_nil_or_concat' Z with rfl | ⟨Z, y, rfl⟩
          · exact ⟨b, by simpa [keyBefore] using inLow⟩
          · exact ⟨y.key, by simp [keyBefore]⟩
        exact (low b inLow b' before).trans_lt (above b' before)
      · intro h inHigh
        obtain ⟨h', after⟩ : ∃ h', h' ∈ keyAfter q.hi r W := by
          by_cases vacant : W = []
          · exact ⟨h, by simpa [keyAfter, vacant] using inHigh⟩
          · exact ⟨r.key, by simp [keyAfter, vacant]⟩
        exact (below h' after).trans_le (high h inHigh h' after)
    refine ⟨⟨sorted.1, ⟨most, sorted.2.1.2⟩, ?_⟩, ?_⟩
    · intro x mem y mem'
      rcases List.mem_cons.mp mem' with rfl | mem'
      · exact least x mem
      · exact sorted.2.2 x mem y (List.mem_cons_of_mem _ mem')
    · intro k mem
      rcases List.mem_append.mp mem with mem | mem
      · exact inside k (List.mem_append_left _ mem)
      · rcases List.mem_cons.mp mem with rfl | mem
        · exact between
        · exact inside k (List.mem_append_right _ (List.mem_cons_of_mem _ mem))
  · rw [pair'.childPlaces, List.mem_append, List.mem_cons, List.mem_cons] at mem
    have listed := pair.childPlaces
    rcases mem with mem | rfl | rfl | mem
    · obtain ⟨s, inZ, off⟩ := child_of_mem mem
      exact kept q (by rw [listed]; exact List.mem_append_left _ mem) ⟨s, List.mem_append_left _ inZ, off⟩
    · exact atLeft
    · exact atRight
    · obtain ⟨s, inW, off⟩ := child_of_mem mem
      refine kept q ?_ ⟨s, List.mem_append_right _ inW, off⟩
      rw [listed]
      simp [mem]

/-- The blocks that are written are apart from each other and from the other children. -/
theorem apart {lent : List Offset} (pair : Pair t p Z l r W parent left right)
    (distinct : ((p.off :: t.childrenOf p.off) ++ lent).Nodup) (mem : moved ∈ lent) :
    [l.child, r.child, p.off, moved].Nodup ∧
      ∀ s ∈ Z ++ W, s.child ∉ [l.child, r.child, p.off, moved] := by
  rw [BPlusTree.childrenOf_of_map pair.readParent, pair.slots] at distinct
  simp only [List.map_append, List.map_cons, List.cons_append, List.nodup_cons, List.nodup_append,
    List.mem_append, List.mem_cons, List.mem_map, not_or, not_exists, not_and] at distinct
  obtain ⟨⟨⟨notZ, notL, notR, notW⟩, notLent⟩, ⟨-, ⟨⟨lr, lW⟩, rW, -⟩, ZW⟩, -, apart⟩ := distinct
  have notMoved : ∀ o, (∃ s ∈ Z ++ l :: r :: W, s.child = o) → o ≠ moved := by
    rintro _ ⟨s, inside, rfl⟩
    refine apart _ ?_ moved mem
    simp only [List.mem_append, List.mem_cons] at inside
    rcases inside with inZ | rfl | rfl | inW
    · exact Or.inl ⟨s, inZ, rfl⟩
    · exact Or.inr (Or.inl rfl)
    · exact Or.inr (Or.inr (Or.inl rfl))
    · exact Or.inr (Or.inr (Or.inr ⟨s, inW, rfl⟩))
  constructor
  · simp only [List.nodup_cons, List.mem_cons, List.not_mem_nil, or_false, not_or, not_false_eq_true,
      List.nodup_nil, and_true]
    exact ⟨⟨lr, Ne.symm notL, notMoved _ ⟨l, by simp, rfl⟩⟩, ⟨Ne.symm notR, notMoved _ ⟨r, by simp, rfl⟩⟩,
      fun same => notLent (same ▸ mem)⟩
  · intro s inside
    simp only [List.mem_cons, List.not_mem_nil, or_false, not_or]
    rcases List.mem_append.mp inside with inZ | inW
    · exact ⟨ZW _ ⟨s, inZ, rfl⟩ _ (Or.inl rfl), ZW _ ⟨s, inZ, rfl⟩ _ (Or.inr (Or.inl rfl)), notZ s inZ,
        notMoved _ ⟨s, by simp [inZ], rfl⟩⟩
    · exact ⟨lW s inW, rW s inW, notW s inW, notMoved _ ⟨s, by simp [inW], rfl⟩⟩

end Pair

namespace BPlusTree

variable {t : BPlusTree} {p : Place} {node : Node Index} {off lender : Offset}

theorem exists_pair {x y : Offset} (ordered : ∀ q ∈ p :: t.file.childPlaces p, t.SeparatedAt q)
    (adjacent : [x, y] <:+: t.childrenOf p.off) : ∃ Z l r W parent left right,
      Pair t p Z l r W parent left right ∧ l.child = x ∧ r.child = y := by
  obtain ⟨parent, read⟩ := (ordered p (List.mem_cons_self ..)).read
  obtain ⟨A, B, split⟩ := adjacent
  rw [childrenOf_of_map read, List.append_assoc] at split
  obtain ⟨Z, two, slots, rfl, pair⟩ := List.map_eq_append_iff.mp split.symm
  obtain ⟨l, one, rfl, rfl, second⟩ := List.map_eq_cons_iff.mp pair
  obtain ⟨r, W, rfl, rfl, rfl⟩ := List.map_eq_cons_iff.mp second
  obtain ⟨left, readLeft⟩ := (ordered _ (List.mem_cons_of_mem _
    ((mem_childPlaces read).mpr ⟨Z, l, r :: W, slots, rfl⟩))).read
  obtain ⟨right, readRight⟩ := (ordered _ (List.mem_cons_of_mem _
    ((mem_childPlaces read).mpr ⟨Z ++ [l], r, W, by simp [slots], rfl⟩))).read
  exact ⟨Z, l, r, W, parent, left, right, ⟨read, slots, readLeft, readRight⟩, rfl, rfl⟩

theorem parent_of_get {o parent : Offset} {node : Node Index} (read : t.map Index o = .ok node)
    (owner : ∃ b ∈ t.file.get o, b.parent = parent) : node.parent = parent := by
  have found := t.get_of_map_internal (show node ∈ (t.map Index o).toOption by rw [read]; rfl)
  obtain ⟨b, here, rfl⟩ := owner
  rw [Option.mem_def, found] at here
  cases here
  rfl

theorem Turned.others {t' : BPlusTree} {parent parent' : Node Index}
    (turned : Turned t t' off lender top moved node' lender' parent')
    (readParent : t.map Index top = .ok parent)
    (same : parent'.children.map Index.child = parent.children.map Index.child) :
    ∀ o, o ≠ off → o ≠ lender → t'.childrenOf o = t.childrenOf o := by
  intro o notOff notLender
  by_cases here : o = top
  · subst here
    rw [childrenOf_of_map turned.readParent, childrenOf_of_map readParent, same]
  · by_cases child : o = moved
    · subst child
      obtain ⟨b, found, moved⟩ := turned.reparented
      simp only [childrenOf, map_eq, moved, Option.mem_def.mp found]
      cases @NodeType.children Index _ b.body <;> rfl
    · have frame := turned.frame o (by simp [notOff, notLender, here, child])
      simp only [childrenOf, map_of_get_eq frame]

theorem map_of_unmap {o : Offset} {read' : Node Index} (ne : o ≠ off)
    (read : (t.unmap node off).map Index o = .ok read') : t.map Index o = .ok read' := by
  rwa [← map_of_get_eq (get_unmap_ne t node ne)]

/-- What `borrow_key` does from the right. -/
theorem Neighbours.run_right (near : Neighbours (t.unmap node off) true p node off lender) :
    ∃ Z l r W parent lent I z e f J, ∃ t' : BPlusTree, Pair (t.unmap node off) p Z l r W parent node lent ∧
      l.child = off ∧ r.child = lender ∧ node.children = I ++ [z] ∧ z.key = l.key ∧
      lent.children = e :: f :: J ∧
      (t.borrowIndex true node off = if node.children.length < bpOrder then
        .ok (true, t'.unmap { lent with children := f :: J } lender,
          { node with children := node.children ++ [e] }) else .error .bounds) ∧
      Turned (t.unmap node off) ((t'.unmap { lent with children := f :: J } lender).unmap
          { node with children := node.children ++ [e] } off) off lender p.off e.child
        { node with children := node.children ++ [e] } { lent with children := f :: J }
        { parent with children := Z ++ { l with key := e.key } :: r :: W } := by
  have separated := fun q mem => (near.ordered q mem).1
  obtain ⟨Z, l, r, W, parent, left, lent, pair, rfl, rfl⟩ := exists_pair separated near.adjacent
  obtain rfl : node = left := Except.ok.inj (near.stored.symm.trans pair.readLeft)
  have listed := pair.childPlaces
  have more := near.more
  rw [childrenOf_of_map pair.readRight, List.length_map] at more
  obtain ⟨e, f, J, slots⟩ : ∃ e f J, lent.children = e :: f :: J := by
    match here : lent.children with
    | [] | [_] => simp [here, bpOrder] at more
    | e :: f :: J => exact ⟨e, f, J, rfl⟩
  have written := near.written e.child (by rw [childrenOf_of_map pair.readRight, slots]; simp)
  obtain ⟨distinct, -⟩ := pair.apart near.distinct
    (by rw [childrenOf_of_map pair.readRight, slots]; simp : e.child ∈ _)
  have distinct' := distinct
  simp only [List.nodup_cons, List.mem_cons, List.not_mem_nil, or_false, not_or] at distinct'
  obtain ⟨⟨lr, lp, lMoved⟩, -⟩ := distinct'
  obtain ⟨filled, -⟩ := (separatedAt_iff near.stored).mp
    (separated ⟨l.child, p.off, keyBefore p.lo Z, some l.key⟩ (by simp [listed]))
  obtain ⟨I, z, last⟩ := (List.eq_nil_or_concat' node.children).resolve_left filled
  have law := (lastSlotAt_iff near.stored).mp
    (near.ordered ⟨l.child, p.off, keyBefore p.lo Z, some l.key⟩ (by simp [listed])).2 l.key rfl
  have bound : z.key = l.key := by simpa [last] using law
  have top := separated p (List.mem_cons_self ..)
  have less := pair.least top (pair.around top).1
  have place : lowerBound (parent.children.dropLast.map Index.key) z.key = Z.length := by
    rw [lowerBound, pair.slots, dropLast_append_cons_cons, List.map_append, ← @List.length_map _ _ Z Index.key]
    apply findIdx_boundary
    · intro k mem
      obtain ⟨x, inZ, rfl⟩ := List.mem_map.mp mem
      simpa [keycmp_neg, bound] using less x inZ
    · simp [keycmp_neg, bound]
  obtain ⟨b, found⟩ := Option.ne_none_iff_exists'.mp written
  rw [get_unmap_ne _ _ (Ne.symm lMoved)] at found
  obtain ⟨t', reset, turned⟩ := turned_of_writes (k := e.key) distinct found node
    { node with children := node.children ++ [e] } { lent with children := f :: J }
    { parent with children := Z ++ { l with key := e.key } :: r :: W }
  refine ⟨Z, l, r, W, parent, lent, I, z, e, f, J, t', pair, rfl, rfl, last, bound, slots, ?_, turned⟩
  have owner := parent_of_get near.stored (near.parents l.child (by simp))
  have next : node.next = r.child := near.link
  have run := borrowIndex_right_run (t := t) node l.child near.order
    (next ▸ map_of_unmap (Ne.symm lr) pair.readRight)
    (owner ▸ map_of_unmap (Ne.symm lp) pair.readParent) slots more last pair.slots place
    (owner ▸ reset)
  rw [next] at run
  exact run

/-- What `borrow_key` does from the left. -/
theorem Neighbours.run_left (near : Neighbours (t.unmap node off) false p node off lender) :
    ∃ Z l r W parent lent I b z j K, ∃ t' : BPlusTree, Pair (t.unmap node off) p Z l r W parent lent node ∧
      l.child = lender ∧ r.child = off ∧ lent.children = I ++ [b, z] ∧ z.key = l.key ∧
      node.children = j :: K ∧
      (t.borrowIndex false node off = if node.children.length < bpOrder then
        .ok (true, t'.unmap { lent with children := I ++ [b] } lender,
          { node with children := z :: { j with key := l.key } :: K }) else .error .bounds) ∧
      Turned (t.unmap node off) ((t'.unmap { lent with children := I ++ [b] } lender).unmap
          { node with children := z :: { j with key := l.key } :: K } off) off lender p.off z.child
        { node with children := z :: { j with key := l.key } :: K } { lent with children := I ++ [b] }
        { parent with children := Z ++ { l with key := b.key } :: r :: W } := by
  have separated := fun q mem => (near.ordered q mem).1
  obtain ⟨Z, l, r, W, parent, lent, right, pair, rfl, rfl⟩ := exists_pair separated near.adjacent
  obtain rfl : node = right := Except.ok.inj (near.stored.symm.trans pair.readRight)
  have listed := pair.childPlaces
  have more := near.more
  rw [childrenOf_of_map pair.readLeft, List.length_map] at more
  obtain ⟨I, b, z, slots⟩ := exists_append_pair (le_trans (by decide) more)
  obtain ⟨i, I₀, rfl⟩ := List.exists_cons_of_ne_nil
    (show I ≠ [] from fun empty => by simp [slots, empty, bpOrder] at more)
  have last : lent.children = i :: I₀ ++ [b] ++ [z] := by simp [slots]
  have written := near.written z.child (by rw [childrenOf_of_map pair.readLeft, slots]; simp)
  obtain ⟨distinct, -⟩ := pair.apart near.distinct
    (by rw [childrenOf_of_map pair.readLeft, slots]; simp : z.child ∈ _)
  replace distinct : [r.child, l.child, p.off, z.child].Nodup := (List.Perm.swap ..).nodup_iff.mp distinct
  have distinct' := distinct
  simp only [List.nodup_cons, List.mem_cons, List.not_mem_nil, or_false, not_or] at distinct'
  obtain ⟨⟨rl, rp, rMoved⟩, -⟩ := distinct'
  obtain ⟨filled, -⟩ := (separatedAt_iff near.stored).mp
    (separated ⟨r.child, p.off, some l.key, keyAfter p.hi r W⟩ (by simp [listed]))
  obtain ⟨j, K, first⟩ := List.exists_cons_of_ne_nil filled
  have here := near.ordered ⟨l.child, p.off, keyBefore p.lo Z, some l.key⟩ (by simp [listed])
  have law := (lastSlotAt_iff pair.readLeft).mp here.2 l.key rfl
  rw [last, List.getLast?_concat] at law
  have bound : z.key = l.key := by simpa using law
  have top := separated p (List.mem_cons_self ..)
  obtain ⟨-, -, inside⟩ := (separatedAt_iff pair.readLeft).mp here.1
  have between := inside i.key (by rw [last, List.dropLast_concat]; simp)
  have place : findIndex parent i.key = Z.length := by
    apply findIndex_at pair.slots
    · exact fun x mem => (pair.least top between.1 x mem).le
    · exact fun _ => between.2 l.key rfl
  obtain ⟨c, found⟩ := Option.ne_none_iff_exists'.mp written
  rw [get_unmap_ne _ _ (Ne.symm rMoved)] at found
  obtain ⟨t', reset, turned⟩ := turned_of_writes (k := z.key) distinct found node
    { node with children := z :: { j with key := l.key } :: K } { lent with children := i :: I₀ ++ [b] }
    { parent with children := Z ++ { l with key := b.key } :: r :: W }
  refine ⟨Z, l, r, W, parent, lent, i :: I₀, b, z, j, K, t', pair, rfl, rfl, slots, bound, first, ?_,
    turned⟩
  have owner := parent_of_get pair.readLeft (near.parents l.child (by simp))
  have prev : node.prev = l.child := near.link
  have run := borrowIndex_left_run (t := t) node r.child near.order
    (prev ▸ map_of_unmap (Ne.symm rl) pair.readLeft)
    (owner ▸ map_of_unmap (Ne.symm rp) pair.readParent) slots more (i := i) (by simp [slots]) pair.slots
    place (owner ▸ reset)
  rw [prev] at run
  simpa only [first, List.modify_zero_cons] using run

theorem routes_of_pairs {t' : BPlusTree} {Z W : List Index} {l l' r : Index}
    {parent left right parent' left' right' : Node Index} (pair : Pair t p Z l r W parent left right)
    (pair' : Pair t' p Z l' r W parent' left' right')
    (frame : ∀ s ∈ Z ++ W, t'.file.get s.child = t.file.get s.child)
    (two : ∀ hi lo, spans (some l'.key) lo left'.children ++ spans hi (some l'.key) right'.children =
      spans (some l.key) lo left.children ++ spans hi (some l.key) right.children)
    (ordered : ∀ q ∈ p :: t.file.childPlaces p, t.SeparatedAt q)
    (ordered' : ∀ q ∈ p :: t'.file.childPlaces p, t'.SeparatedAt q) (key : Key) :
    t'.searchIndexFrom key 2 p.off = t.searchIndexFrom key 2 p.off := by
  have free : Pair t ⟨p.off, p.parent, none, none⟩ Z l r W parent left right :=
    ⟨pair.readParent, pair.slots, pair.readLeft, pair.readRight⟩
  have free' : Pair t' ⟨p.off, p.parent, none, none⟩ Z l' r W parent' left' right' :=
    ⟨pair'.readParent, pair'.slots, pair'.readLeft, pair'.readRight⟩
  exact searchIndexFrom_congr (p := ⟨p.off, p.parent, none, none⟩) (separatedBelow_free ordered)
    (separatedBelow_free ordered') (free.spans_eq free' frame two) ⟨by simp, by simp⟩

theorem rotates_right (near : Neighbours (t.unmap node off) true p node off lender)
    (room : node.children.length < bpOrder) : t.Rotates true p node off lender := by
  have ordered := fun q mem => (near.ordered q mem).1
  obtain ⟨Z, l, r, W, parent, lent, I, z, e, f, J, t', pair, rfl, rfl, last, bound, slots, run, turned⟩ :=
    near.run_right
  rw [if_pos room] at run
  refine ⟨_, _, run, ?_⟩
  have pair' : Pair _ p Z { l with key := e.key } r W _ _ _ :=
    ⟨turned.readParent, rfl, turned.readBorrower, turned.readLender⟩
  have frame : ∀ s ∈ Z ++ W, _ = (t.unmap node l.child).file.get s.child := fun s mem =>
    turned.frame s.child ((pair.apart near.distinct
      (by rw [childrenOf_of_map pair.readRight, slots]; simp)).2 s mem)
  have listed := pair.childPlaces
  have top := ordered p (List.mem_cons_self ..)
  obtain ⟨-, sortedL, insideL⟩ := (separatedAt_iff pair.readLeft).mp
    (ordered ⟨l.child, p.off, keyBefore p.lo Z, some l.key⟩ (by simp [listed]))
  obtain ⟨-, sortedR, insideR⟩ := (separatedAt_iff pair.readRight).mp
    (ordered ⟨r.child, p.off, some l.key, keyAfter p.hi r W⟩ (by simp [listed]))
  rw [last, List.dropLast_concat] at sortedL insideL
  rw [slots, List.dropLast_cons_cons, List.map_cons, List.pairwise_cons] at sortedR
  rw [slots, List.dropLast_cons_cons, List.map_cons] at insideR
  have between := insideR e.key (by simp)
  have up : l.key < e.key := between.1 l.key rfl
  have around := (pair.around top).1
  have ordered' := pair.separated pair' frame ordered
    (fun b before => (around b before).trans up) between.2
    ((separatedAt_iff turned.readBorrower).mpr ⟨by simp, by
      simp only [last, List.dropLast_concat, List.map_append, List.map_cons, List.map_nil, bound]
      refine ⟨List.pairwise_append.mpr ⟨sortedL, List.pairwise_singleton _ _, ?_⟩, ?_⟩
      · intro k mem k' mem'
        rw [List.mem_singleton.mp mem']
        exact (insideL k mem).2 l.key rfl
      · intro k mem
        rcases List.mem_append.mp mem with mem | mem
        · obtain ⟨low, high⟩ := insideL k mem
          exact ⟨low, fun h here => Option.some.inj here ▸ (high l.key rfl).trans up⟩
        · rw [List.mem_singleton.mp mem]
          exact ⟨around, fun h here => Option.some.inj here ▸ up⟩⟩)
    ((separatedAt_iff turned.readLender).mpr ⟨by simp, sortedR.2, fun k mem =>
      ⟨fun h here => Option.some.inj here ▸ sortedR.1 k mem,
        (insideR k (List.mem_cons_of_mem _ mem)).2⟩⟩)
  refine ⟨routes_of_pairs pair pair' frame (fun hi lo => ?_) ordered ordered', ordered', ?_,
    turned.others pair.readParent (by simp [pair.slots])⟩
  · simp only [last, slots]
    rw [← bound, ← spans_append, ← spans_append, List.append_assoc]
    rfl
  · obtain ⟨b, -, moved⟩ := turned.reparented
    refine ⟨e.child, ?_, _, moved, rfl⟩
    simp only [if_true, childrenOf_of_map pair.readRight, childrenOf_of_map turned.readLender,
      childrenOf_of_map pair.readLeft, childrenOf_of_map turned.readBorrower, slots, List.map_cons,
      List.map_append, List.map_nil, and_self]

/-- A borrower with one child has no live separator that could be overwritten. -/
theorem rotates_left (near : Neighbours (t.unmap node off) false p node off lender)
    (single : node.children.length = 1) : t.Rotates false p node off lender := by
  have ordered := fun q mem => (near.ordered q mem).1
  obtain ⟨Z, l, r, W, parent, lent, I, b, z, j, K, t', pair, rfl, rfl, last, bound, slots, run, turned⟩ :=
    near.run_left
  obtain rfl : K = [] := by simpa [slots] using single
  rw [if_pos (by rw [single]; decide)] at run
  refine ⟨_, _, run, ?_⟩
  have pair' : Pair _ p Z { l with key := b.key } r W _ _ _ :=
    ⟨turned.readParent, rfl, turned.readLender, turned.readBorrower⟩
  have outside := (pair.apart near.distinct
    (by rw [childrenOf_of_map pair.readLeft, last]; simp : z.child ∈ _)).2
  have frame : ∀ s ∈ Z ++ W, _ = (t.unmap node r.child).file.get s.child := fun s mem =>
    turned.frame s.child fun inside => outside s mem ((List.Perm.swap ..).mem_iff.mp inside)
  have listed := pair.childPlaces
  have top := ordered p (List.mem_cons_self ..)
  obtain ⟨-, sortedL, insideL⟩ := (separatedAt_iff pair.readLeft).mp
    (ordered ⟨l.child, p.off, keyBefore p.lo Z, some l.key⟩ (by simp [listed]))
  have init : lent.children.dropLast = I ++ [b] := by
    rw [last, ← List.singleton_append, ← List.append_assoc, List.dropLast_concat]
  rw [init] at sortedL insideL
  obtain ⟨low, high⟩ := insideL b.key (by simp)
  have up : b.key < l.key := high l.key rfl
  have around := (pair.around top).2
  rw [List.map_append, List.pairwise_append] at sortedL
  have ordered' := pair.separated pair' frame ordered low (fun h after => up.trans (around h after))
    ((separatedAt_iff turned.readLender).mpr ⟨by simp, by
      simp only [List.dropLast_concat]
      refine ⟨sortedL.1, fun k mem => ?_⟩
      refine ⟨(insideL k (by rw [List.map_append]; exact List.mem_append_left _ mem)).1, fun h here => ?_⟩
      exact Option.some.inj here ▸ sortedL.2.2 k mem b.key (by simp)⟩)
    ((separatedAt_iff turned.readBorrower).mpr ⟨by simp, List.pairwise_singleton _ _, by
      intro k mem
      rw [List.dropLast_cons_cons, List.dropLast_singleton, List.map_singleton, List.mem_singleton] at mem
      rw [mem, bound]
      exact ⟨fun h here => Option.some.inj here ▸ up, around⟩⟩)
  refine ⟨routes_of_pairs pair pair' frame (fun hi lo => ?_) ordered ordered', ordered', ?_,
    turned.others pair.readParent (by simp [pair.slots])⟩
  · simp only [last, slots]
    rw [← spans_append, ← bound, ← List.singleton_append (l := [z]), ← List.append_assoc, ← spans_append,
      List.append_assoc]
    have same := spans_concat hi lo (I ++ [b, z]) (x := { j with key := z.key }) (y := j) rfl
    simpa using same
  · obtain ⟨c, -, moved⟩ := turned.reparented
    refine ⟨z.child, ?_, _, moved, rfl⟩
    simp [childrenOf_of_map pair.readRight, childrenOf_of_map turned.readLender,
      childrenOf_of_map pair.readLeft, childrenOf_of_map turned.readBorrower, slots, last]

/-- With two children its first separator becomes the one before it. -/
theorem not_rotates_left (near : Neighbours (t.unmap node off) false p node off lender)
    (several : node.children.length ≠ 1) : ¬ t.Rotates false p node off lender := by
  obtain ⟨Z, l, r, W, parent, lent, I, b, z, j, K, t', pair, rfl, rfl, last, bound, slots, run, turned⟩ :=
    near.run_left
  rintro ⟨_, _, ran, rotated⟩
  rw [run] at ran
  split at ran
  · cases ran
    obtain ⟨k, K, rfl⟩ := List.exists_cons_of_ne_nil
      (show K ≠ [] from fun empty => several (by rw [slots, empty]; rfl))
    have pair' : Pair _ p Z { l with key := b.key } r W _ _ _ :=
      ⟨turned.readParent, rfl, turned.readLender, turned.readBorrower⟩
    obtain ⟨-, sorted, -⟩ := (separatedAt_iff turned.readBorrower).mp (rotated.separated
      ⟨r.child, p.off, some b.key, keyAfter p.hi r W⟩ (by simp [pair'.childPlaces]))
    rw [List.dropLast_cons_cons, List.dropLast_cons_cons, List.map_cons, List.map_cons,
      List.pairwise_cons] at sorted
    have less : z.key < l.key := sorted.1 l.key (by simp)
    exact less.ne bound
  · cases ran

theorem not_rotates_full {fromRight : Bool}
    (near : Neighbours (t.unmap node off) fromRight p node off lender)
    (full : ¬ node.children.length < bpOrder) : ¬ t.Rotates fromRight p node off lender := by
  rintro ⟨_, _, ran, -⟩
  cases fromRight with
  | true =>
    obtain ⟨_, _, _, _, _, _, _, _, _, _, _, _, -, -, -, -, -, -, run, -⟩ := near.run_right
    rw [run, if_neg full] at ran
    cases ran
  | false =>
    obtain ⟨_, _, _, _, _, _, _, _, _, _, _, _, -, -, -, -, -, -, run, -⟩ := near.run_left
    rw [run, if_neg full] at ran
    cases ran

/-- A borrowed child keeps its place in the order when it comes from the right, or
goes to a node with a single child. -/
theorem rotates_iff (t : BPlusTree) (fromRight : Bool) (p : Place) (node : Node Index)
    (off lender : Offset) (near : Neighbours (t.unmap node off) fromRight p node off lender) :
    t.Rotates fromRight p node off lender ↔
      node.children.length < bpOrder ∧ (fromRight = true ∨ node.children.length = 1) := by
  constructor
  · intro rotates
    refine ⟨by_contra fun full => not_rotates_full near full rotates, ?_⟩
    cases fromRight with
    | true => exact Or.inl rfl
    | false => exact Or.inr (by_contra fun several => not_rotates_left near several rotates)
  · rintro ⟨room, fine⟩
    cases fromRight with
    | true => exact rotates_right near room
    | false => exact rotates_left near (by simpa using fine)

end BPlusTree

namespace Grown

def top : Place := ⟨32248, 0, none, none⟩

/-- The right node as `remove_from_index` has it when its last two leaves are merged. -/
def shortRight : Node Index where
  parent := 32248
  next := 0
  prev := 72
  children := (List.range 8).map (fun i => slot (i + 11)) ++ [⟨Key.empty, (slot 19).child⟩]

def shortLeft : Node Index where
  parent := 32248
  next := 30776
  prev := 0
  children := (List.range 9).map fun i => slot (i + 2)

def wide : BPlusTree :=
  ((play BPlusTree.call tree ((List.range 10).map fun i =>
    .insert (Packed.number (231 + i)) 0)).toOption).getD tree

end Grown

namespace BPlusTree

theorem rotates_wide : Grown.wide.Rotates true Grown.top Grown.shortLeft 72 30776 :=
  (rotates_iff Grown.wide true Grown.top Grown.shortLeft 72 30776
    ⟨by decide +kernel, by decide +kernel, by decide +kernel, by decide +kernel, by decide +kernel,
      by decide +kernel, by decide +kernel, by decide +kernel, by decide +kernel⟩).mpr (by decide)

/-- The right node of the grown tree borrows from the left one and loses a separator. -/
theorem not_rotates_grown :
    Neighbours (Grown.tree.unmap Grown.shortRight 30776) false Grown.top Grown.shortRight 30776 72 ∧
      ¬ Grown.tree.Rotates false Grown.top Grown.shortRight 30776 72 := by
  have near : Neighbours (Grown.tree.unmap Grown.shortRight 30776) false Grown.top Grown.shortRight
      30776 72 :=
    ⟨by decide +kernel, by decide +kernel, by decide +kernel, by decide +kernel, by decide +kernel,
      by decide +kernel, by decide +kernel, by decide +kernel, by decide +kernel⟩
  exact ⟨near, not_rotates_left near (by decide)⟩

end BPlusTree
end Fdfs2qq.Bpt
