import Fdfs2qq.Bpt.LossClimb

/-! `change_parent_child`: the bound of one cell is rewritten in the slot that
leads to it and, as long as this is the last slot of its node, further up. -/
namespace Fdfs2qq.Bpt
open Lib

/-- A tower over the same cells, with the same blocks. -/
structure Rebound (t t' : BPlusTree) (lower : List (Offset × Offset)) (bounds : List Key)
    (levels levels' : List (List (Cell Index))) : Prop where
  info : t'.info = t.info
  tower : Tower t'.file t'.info.rootOffset lower bounds levels'
  offs : levelOffs levels' = levelOffs levels
  lengths : levels'.map List.length = levels.map List.length
  frame : ∀ o ∉ levelOffs levels, t'.file.get o = t.file.get o

/-- The slot at which the search ends, and the slots after it was written. -/
theorem rekeyed {slots X Y : List Index} {e : Index} (items : slots = X ++ e :: Y) (n : Key) :
    (X.length = slots.length - 1 ↔ Y = []) ∧ assertSlot slots X.length = .ok e ∧
      slots.set X.length { e with key := n } = X ++ { e with key := n } :: Y := by
  refine ⟨?_, by rw [items, assertSlot, getElem?_append_length_cons], by rw [items, set_append_length]⟩
  rw [items, ← List.length_eq_zero_iff]
  simp only [List.length_append, List.length_cons]
  omega

namespace BPlusTree

theorem changeParentChild_step {t : BPlusTree} {c : Cell Index} {X Y : List Index} {e : Index}
    (held : c.Holds t.file next prev) (items : c.items = X ++ e :: Y)
    (found : findIndex (c.node next prev) o = X.length) (n : Key) (fuel : Nat) :
    t.changeParentChild c.off o n (fuel + 1) =
      if Y = [] then (t.unmap ((⟨c.off, c.parent, X ++ { e with key := n } :: Y⟩ : Cell Index).node
        next prev) c.off).changeParentChild c.parent o n fuel
      else .ok (t.unmap ((⟨c.off, c.parent, X ++ { e with key := n } :: Y⟩ : Cell Index).node
        next prev) c.off) := by
  obtain ⟨last, here, there⟩ := rekeyed items n
  simp only [changeParentChild, held.map, bind, Except.bind, found]
  simp only [Cell.node, here, there, last, pure, Except.pure]

/-- The bound of a cell that is not the last of its row becomes `n`. -/
theorem changeParentChild_climb (levels : List (List (Cell Index))) :
    ∀ {t : BPlusTree} {A B : List (Offset × Offset)} {x p : Offset} {U V : List Key} {u o : Key}
      {fuel : Nat} (n : Key),
    Tower t.file t.info.rootOffset (A ++ (x, p) :: B) (U ++ u :: V) levels → U.length = A.length →
    V.length = B.length → V ≠ [] → Ascending (U ++ u :: V) → Routes o U u V →
    (levelOffs levels).Nodup → levels.length ≤ fuel →
    ∃ t' levels', t.changeParentChild p o n fuel = .ok t' ∧
      Rebound t t' (A ++ (x, p) :: B) (U ++ n :: V) levels levels' := by
  induction levels with
  | nil =>
    intro t A B x p U V u o fuel n tower _ lenV later _ _ _ _
    have alone := congrArg List.length tower.top_inv
    have := List.length_pos_iff.mpr later
    simp only [List.length_append, List.length_cons, List.length_nil] at alone
    omega
  | cons row rest ih =>
    intro t A B x p U V u o fuel n tower lenU lenV later asc route distinct enough
    obtain ⟨linked, listed, keyed, sized, upper⟩ := tower.level_inv
    obtain ⟨L, c, R, X, e, Y, rfl, items, child, owner, before, after, keysU, here, keysV⟩ :=
      level_split listed keyed lenU
    subst owner
    obtain ⟨found, up⟩ := route.level asc items sized.nonempty keysU here keysV (firstOff R) (lastOff L)
    obtain ⟨_, held, _⟩ := LinkedRow.at_iff.mp linked
    obtain ⟨m, rfl⟩ : ∃ m, fuel = m + 1 := ⟨fuel - 1, by simp only [List.length_cons] at enough; omega⟩
    rw [levelOffs_cons, List.nodup_append] at distinct
    obtain ⟨distinctUp, distinctRest, apart⟩ := distinct
    have written := unmap_row linked distinctUp (X ++ { e with key := n } :: Y)
    have frameRest : ∀ o ∈ levelOffs rest, (t.unmap ((⟨c.off, c.parent,
        X ++ { e with key := n } :: Y⟩ : Cell Index).node (firstOff R) (lastOff L)) c.off).file.get o =
          t.file.get o := fun o mem =>
      get_unmap_ne _ _ fun same => apart c.off (by simp) o mem same.symm
    have listed' : kids L ++ (slotKids c.off (X ++ { e with key := n } :: Y) ++ kids R) =
        A ++ (x, c.off) :: B := by
      rw [← listed]
      simp [items]
    have keyed' : SameInit (rowKeys L ++ ((X ++ { e with key := n } :: Y).map Index.key ++ rowKeys R))
        (U ++ n :: V) := by
      simp only [List.map_append, List.map_cons, List.append_assoc, List.cons_append]
      rw [← List.append_assoc]
      exact SameInit.append_cons keysU.symm (fun _ => rfl) keysV
    have sized' : Sized (rest = []) (L ++ ⟨c.off, c.parent, X ++ { e with key := n } :: Y⟩ :: R) := by
      refine sized.refill (by simp) ?_ fun low => ?_
      · simpa [items] using sized.atMost c (by simp)
      · simpa [items] using sized.atLeast low c (by simp)
    rw [changeParentChild_step held items found n m]
    by_cases last : Y = []
    · -- the bound is also the bound of `c`
      subst last
      rw [if_pos rfl]
      have laterUp : uppers R ≠ [] := by
        intro empty
        have : R = [] := List.map_eq_nil_iff.mp empty
        subst this
        exact later (keysV.nil_iff.mp rfl)
      obtain ⟨t', levels', run, rebound⟩ := ih (t := t.unmap _ c.off) (A := ids L) (B := ids R)
        (x := c.off) (p := c.parent) (U := uppers L) (V := uppers R) (u := lastKey c) n
        (by simpa using upper.frame frameRest) (by simp) (by simp) laterUp
        (by simpa using (asc.of_sameInit keyed).uppers sized.nonempty) up distinctRest
        (show rest.length ≤ m by simpa using enough)
      refine ⟨t', (L ++ ⟨c.off, c.parent, X ++ [{ e with key := n }]⟩ :: R) :: levels', run,
        rebound.info, ?_, ?_, ?_, ?_⟩
      · refine .level (linked_frame (fun o mem => rebound.frame o ?_) written) ?_ ?_ ?_ ?_
        · have mem' : o ∈ offsets (L ++ c :: R) := by simpa using mem
          exact fun inRest => apart o mem' o inRest rfl
        · simpa using listed'
        · simpa using keyed'
        · have vacant : levels' = [] ↔ rest = [] := by
            rw [← List.map_eq_nil_iff (f := List.length), rebound.lengths, List.map_eq_nil_iff]
          simpa [vacant] using sized'
        · have cut : lastKey ⟨c.off, c.parent, X ++ [{ e with key := n }]⟩ = n :=
            lastKey_concat (Z := X) (z := ⟨n, e.child⟩) rfl
          simpa [cut] using rebound.tower
      · simp [rebound.offs]
      · simp [rebound.lengths]
      · intro o outside
        rw [levelOffs_cons, List.mem_append, not_or] at outside
        rw [rebound.frame o outside.2]
        exact get_unmap_ne _ _ fun same => outside.1 (by simp [same])
    · rw [if_neg last]
      refine ⟨_, (L ++ ⟨c.off, c.parent, X ++ { e with key := n } :: Y⟩ :: R) :: rest, rfl, rfl, ?_,
        by simp, by simp, fun o outside => get_unmap_ne _ _ fun same => outside (by simp [same])⟩
      refine Tower.refill written listed' keyed' sized' (fun _ => ?_) (upper.frame frameRest)
      obtain ⟨Y', y, rfl⟩ := (List.eq_nil_or_concat' Y).resolve_left last
      rw [lastKey_concat (c := c) (Z := X ++ e :: Y') (z := y) (by simp [items]),
        lastKey_concat (c := ⟨c.off, c.parent, X ++ { e with key := n } :: (Y' ++ [y])⟩)
          (Z := X ++ { e with key := n } :: Y') (z := y) (by simp)]

end BPlusTree
end Fdfs2qq.Bpt
