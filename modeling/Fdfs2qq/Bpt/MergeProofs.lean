import Fdfs2qq.Bpt.LossProofs

/-! The merge of two internal nodes, the climb over all levels, and what the
predicted defects are in terms of the rows. -/
namespace Fdfs2qq.Bpt
open Lib

/-- `p` lists the neighbours `a` and `b` in the slots `ea` and `eb`. -/
structure Siblings (P : List (Cell Index)) (a b : Cell Index) (Q L₂ : List (Cell Index))
    (p : Cell Index) (R₂ : List (Cell Index)) (X : List Index) (ea eb : Index) (Y : List Index) :
    Prop where
  items : p.items = X ++ ea :: eb :: Y
  child : ea.child = a.off
  owner : a.parent = p.off
  before : ids P = kids L₂ ++ slotKids p.off X
  after : ids Q = slotKids p.off Y ++ kids R₂
  keys : SameInit (thinKeys L₂ X eb Y R₂) (uppers P ++ lastKey b :: uppers Q)

variable {L R L₂ R₂ : List (Cell Index)} {a b c p : Cell Index} {X Y : List Index} {e : Index}

theorem Listed.siblings_right (at_ : Listed L c R L₂ p R₂ X e Y) (ne : Y ≠ []) :
    ∃ d R' g Y', R = d :: R' ∧ Y = g :: Y' ∧ Siblings L c d R' L₂ p R₂ X e g Y' := by
  obtain ⟨d, R', g, Y', rfl, rfl, _, family, after⟩ := at_.right ne
  refine ⟨d, R', g, Y', rfl, rfl, at_.items, at_.child, at_.owner.symm, at_.before, after, ?_⟩
  have keys := at_.keysR
  simp only [List.map_cons, List.cons_append, uppers_cons] at keys
  simp only [thinKeys, List.map_append, List.map_cons, List.append_assoc, List.cons_append]
  rw [← List.append_assoc, ← at_.keysL]
  exact keys.append_left _

theorem Listed.siblings_left (at_ : Listed L c R L₂ p R₂ X e Y) (ne : X ≠ []) :
    ∃ L' d X' f, L = L' ++ [d] ∧ X = X' ++ [f] ∧ Siblings L' d c R L₂ p R₂ X' f e Y := by
  obtain ⟨L', d, X', f, rfl, rfl, before⟩ := at_.left ne
  obtain ⟨_, _, _, _, ⟨⟩, ⟨⟩, pair⟩ := before.siblings_right (by simp)
  exact ⟨L', d, X', f, rfl, rfl, pair⟩

/-- The merged pair is one child with two entries. -/
theorem Siblings.listed_merged {P Q : List (Cell Index)} {ea eb : Index} {items : List Index}
    (pair : Siblings P a b Q L₂ p R₂ X ea eb Y) :
    ids (P ++ ⟨a.off, a.parent, items⟩ :: Q) =
      kids L₂ ++ (slotKids p.off (X ++ { eb with child := ea.child } :: Y) ++ kids R₂) := by
  simp [pair.before, pair.after, pair.child, pair.owner]

theorem Siblings.keys_merged {P Q : List (Cell Index)} {ea eb : Index} {items : List Index}
    (pair : Siblings P a b Q L₂ p R₂ X ea eb Y)
    (last : Q ≠ [] → lastKey ⟨a.off, a.parent, items⟩ = lastKey b) :
    SameInit (thinKeys L₂ X eb Y R₂) (uppers (P ++ ⟨a.off, a.parent, items⟩ :: Q)) := by
  rw [uppers_append, uppers_cons]
  refine pair.keys.trans (SameInit.append_cons rfl (fun ne => ?_) (.refl _))
  exact (last fun empty => ne (by rw [empty]; rfl)).symm

section Merged

variable [NodeType α] {t t' : BPlusTree} {lower lower' : List (Cell α)} {P Q : List (Cell Index)}
  {ea eb : Index} {items : List Index} {rest₂ : List (List (Cell Index))} {below : Nat}
  {defects : List Defect} {run : Except Fault BPlusTree} {bounds : List Key}

/-- The parent loses an entry next. -/
theorem Siblings.losing (pair : Siblings P a b Q L₂ p R₂ X ea eb Y)
    (info : t'.info = (t.unalloc Index).info)
    (linked : LinkedRow t'.file (P ++ ⟨a.off, a.parent, items⟩ :: Q))
    (upper : Tower t.file t.info.rootOffset (ids (P ++ a :: b :: Q)) (uppers (P ++ a :: b :: Q))
      ((L₂ ++ p :: R₂) :: rest₂))
    (ascending : Ascending (uppers (P ++ a :: b :: Q)))
    (placed : Placed t.info.slot
      (offsets (P ++ a :: b :: Q) ++ levelOffs ((L₂ ++ p :: R₂) :: rest₂)))
    (order : t.info.order = bpOrder)
    (count : t.info.internalNodeNum =
      (P ++ a :: b :: Q).length + countNodes ((L₂ ++ p :: R₂) :: rest₂) + below)
    (tall : t.info.height ≠ 1)
    (frame : ∀ o ∈ levelOffs ((L₂ ++ p :: R₂) :: rest₂), t'.file.get o = t.file.get o) :
    Losing t' (P ++ ⟨a.off, a.parent, items⟩ :: Q) L₂ p R₂ X ea eb Y rest₂
      (below + (P.length + 1 + Q.length)) := by
  obtain ⟨linkedTop, _, keyed, sized, upper₂⟩ := upper.level_inv
  have root : t'.info.rootOffset = t.info.rootOffset := by rw [info]; rfl
  have slot : t'.info.slot = t.info.slot := by rw [info]; rfl
  have num : t'.info.internalNodeNum = t.info.internalNodeNum - 1 := by rw [info]; rfl
  have high : t'.info.height = t.info.height := by rw [info]; rfl
  refine ⟨linked, linked_frame (fun o mem => frame o (List.mem_append_left _ mem)) linkedTop,
    pair.items, pair.listed_merged, ascending.of_sameInit keyed, sized, ?_, ?_, ?_, ?_, ?_⟩
  · rw [root]
    exact upper₂.frame fun o mem => frame o (List.mem_append_right _ mem)
  · rw [slot]
    refine placed.sublist (List.Sublist.append ?_ (List.Sublist.refl _))
    simp
  · rw [info]
    exact order
  · simp only [List.length_append, List.length_cons, countNodes_cons] at count ⊢
    omega
  · rw [high]
    exact ⟨fun one => absurd one tall, fun ⟨zero, _⟩ => by omega⟩

theorem Climbed.lift (pair : Siblings P a b Q L₂ p R₂ X ea eb Y)
    (info : t'.info = (t.unalloc Index).info) (positive : 0 < t.info.internalNodeNum)
    (row : LinkedRow t'.file lower') (same : bodies lower' = bodies lower)
    (listed : ids lower' = kids (P ++ ⟨a.off, a.parent, items⟩ :: Q))
    (keyed : stale = [] → SameInit (rowKeys (P ++ ⟨a.off, a.parent, items⟩ :: Q)) bounds)
    (lastKept : stale = [] → Q ≠ [] → lastKey ⟨a.off, a.parent, items⟩ = lastKey b)
    (sized : Sized (defects ≠ []) (P ++ ⟨a.off, a.parent, items⟩ :: Q))
    (onlyStale : .overrun ∉ stale)
    (placed : Placed t.info.slot (offsets lower ++
      (offsets (P ++ a :: b :: Q) ++ levelOffs ((L₂ ++ p :: R₂) :: rest₂))))
    (frame : ∀ o ∉ offsets lower ++ offsets (P ++ a :: b :: Q), t'.file.get o = t.file.get o)
    (above : Climbed run defects t' (P ++ ⟨a.off, a.parent, items⟩ :: Q) (thinKeys L₂ X eb Y R₂)
      ((L₂ ++ p :: R₂) :: rest₂)) :
    Climbed run (stale ++ defects) t lower bounds
      ((P ++ a :: b :: Q) :: (L₂ ++ p :: R₂) :: rest₂) := by
  refine ⟨fun mem => above.fault ((List.mem_append.mp mem).resolve_left onlyStale), fun clean => ?_⟩
  rw [List.mem_append, not_or] at clean
  obtain ⟨t'', M', ok, kept, thin⟩ := above.fine clean.2
  have subM : (offsets (P ++ ⟨a.off, a.parent, items⟩ :: Q)).Sublist (offsets (P ++ a :: b :: Q)) := by
    simp
  refine ⟨t'', lower', ok, ⟨?_, same, ?_, ?_, ?_, ?_, ?_⟩, fun empty => ?_⟩
  · refine linked_frame (fun o mem => kept.frame o fun inUp => ?_) row
    rw [offsets_of_bodies same] at mem
    apply placed.apart mem
    rcases List.mem_append.mp inUp with inM | inUp
    · exact List.mem_append_left _ (subM.subset inM)
    · exact List.mem_append_right _ inUp
  · rw [kept.order, info]; rfl
  · rw [kept.leafNodeNum, info]; rfl
  · rw [kept.leafOffset, info]; rfl
  · rw [kept.slot, info]; rfl
  · intro o outside
    rw [levelOffs_cons, List.mem_append, List.mem_append, not_or, not_or] at outside
    rw [kept.frame o, frame o]
    · rw [List.mem_append, not_or]
      exact ⟨outside.1, outside.2.1⟩
    · rw [List.mem_append, not_or]
      exact ⟨fun mem => outside.2.1 (subM.subset mem), outside.2.2⟩
  · obtain ⟨rfl, rfl⟩ := List.append_eq_nil_iff.mp empty
    obtain ⟨levels', thinned⟩ := thin rfl
    have count := length_of_bodies kept.same
    simp only [List.length_append, List.length_cons] at count
    refine ⟨M' :: levels', ?_, ?_, by simp, by simp [thinned.len], ?_, ?_⟩
    · refine .level kept.row ?_ ?_ ?_ ?_
      · rw [kids_of_bodies kept.same, listed]
      · rw [rowKeys_of_bodies kept.same]
        exact keyed rfl
      · refine Sized.of_bodies kept.same.symm ⟨sized.nonempty, sized.atMost, fun _ => ?_, fun _ => ?_⟩
        · exact sized.atLeast (by simp)
        · exact sized.several (by simp)
      · rw [uppers_of_bodies kept.same]
        exact thinned.tower.of_sameInit (pair.keys_merged (lastKept rfl))
    · rw [levelOffs_cons, levelOffs_cons, offsets_of_bodies kept.same]
      exact subM.append thinned.sub
    · rw [thinned.height, info]; rfl
    · have nodes := thinned.nodes
      have num : t'.info.internalNodeNum = t.info.internalNodeNum - 1 := by rw [info]; rfl
      simp only [countNodes_cons, List.length_append, List.length_cons] at nodes ⊢
      omega

end Merged

def staleAt (lastGone : Bool) (next : Offset) : List Defect :=
  if lastGone ∧ next ≠ 0 then [.staleLastSlot] else []

namespace BPlusTree

variable {t : BPlusTree} {next prev : Offset} {lastGone : Bool}

theorem slotCount_of_holds [NodeType α] {d : Cell α} (held : d.Holds t.file next prev) :
    t.slotCount α d.off = d.items.length := by
  simp only [slotCount, held.map]
  rfl

theorem lossDefects_full (held : c.Holds t.file next prev) (full : c.items.length = bpOrder) (n : Nat) :
    t.lossDefects c.off true (n + 1) = [.overrun] := by
  simp only [lossDefects, held.map, Cell.node, full, and_self, if_true]

theorem lossDefects_root (held : c.Holds t.file next prev)
    (room : ¬ (lastGone = true ∧ c.items.length = bpOrder)) (root : c.off = t.info.rootOffset)
    (n : Nat) : t.lossDefects c.off lastGone (n + 1) = staleAt lastGone next ++
      if c.items.length = 2 ∧ t.info.height ≠ 1 then [.staleRootParent] else [] := by
  simp only [lossDefects, held.map, Cell.node, room, if_false, staleAt]
  rw [if_pos root]

theorem lossDefects_enough (held : c.Holds t.file next prev)
    (room : ¬ (lastGone = true ∧ c.items.length = bpOrder)) (inner : c.off ≠ t.info.rootOffset)
    (enough : bpOrder / 2 < c.items.length) (n : Nat) :
    t.lossDefects c.off lastGone (n + 1) = staleAt lastGone next := by
  simp only [lossDefects, held.map, Cell.node, room, if_false, inner, enough, if_true, staleAt,
    List.append_nil]

theorem lossDefects_inner (held : c.Holds t.file next prev)
    (room : ¬ (lastGone = true ∧ c.items.length = bpOrder)) (inner : c.off ≠ t.info.rootOffset)
    (short : ¬ bpOrder / 2 < c.items.length) (heldP : p.Holds t.file next₂ prev₂)
    (owner : p.off = c.parent) (front_ : p.items[0]? = some front)
    (back_ : p.items.getLast? = some back) (n : Nat) :
    t.lossDefects c.off lastGone (n + 1) = staleAt lastGone next ++
      if c.off ≠ front.child ∧ bpOrder / 2 < t.slotCount Index prev then [.lostSeparator]
      else if c.off ≠ back.child ∧ bpOrder / 2 < t.slotCount Index next then []
      else t.lossDefects p.off (c.off = back.child) n := by
  have read : t.map Index c.parent = .ok (p.node next₂ prev₂) := owner ▸ heldP.map
  have head : p.items.head? = some front := by rw [List.head?_eq_getElem?, front_]
  have isFirst : (some front.child = some c.off) = (c.off = front.child) := by simp [eq_comm]
  have isLast : (some back.child = some c.off) = (c.off = back.child) := by simp [eq_comm]
  simp only [lossDefects, held.map, Cell.node, room, if_false, inner, short, read, head, back_, staleAt,
    Option.map_some, isFirst, isLast, ne_eq, owner]

end BPlusTree

end Fdfs2qq.Bpt
