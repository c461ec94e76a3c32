import Fdfs2qq.Bpt.Tower

/-! Where the levels of a tower lie, how many nodes they have, and what a tower
keeps when blocks outside it or the slots of one cell change. -/
namespace Fdfs2qq.Bpt
open Lib

def levelOffs (levels : List (List (Cell Index))) : List Offset := levels.flatMap offsets

def countNodes (levels : List (List (Cell Index))) : Nat := (levels.map List.length).sum

@[simp] theorem levelOffs_nil : levelOffs [] = [] := rfl

@[simp] theorem levelOffs_cons (row : List (Cell Index)) (levels : List (List (Cell Index))) :
    levelOffs (row :: levels) = offsets row ++ levelOffs levels := rfl

/-- The three rows a lend touches stand before the others. -/
theorem append_levelOffs (offs : List Offset) (row row' : List (Cell Index))
    (levels : List (List (Cell Index))) : offs ++ levelOffs (row :: row' :: levels) =
      (offs ++ (offsets row ++ offsets row')) ++ levelOffs levels := by simp

@[simp] theorem countNodes_nil : countNodes [] = 0 := rfl

@[simp] theorem countNodes_cons (row : List (Cell Index)) (levels : List (List (Cell Index))) :
    countNodes (row :: levels) = row.length + countNodes levels := rfl

/-- Distinct blocks below the allocation mark, none at `OFFSET_META`. -/
structure Placed (slot : Offset) (offs : List Offset) : Prop where
  distinct : offs.Nodup
  positive : 0 ∉ offs
  allocated : ∀ o ∈ offs, o < slot

theorem Placed.sublist (placed : Placed slot offs) (sub : offs'.Sublist offs) : Placed slot offs' :=
  ⟨placed.distinct.sublist sub, fun mem => placed.positive (sub.subset mem),
    fun o mem => placed.allocated o (sub.subset mem)⟩

theorem Placed.left (placed : Placed slot (xs ++ ys)) : Placed slot xs :=
  placed.sublist (List.sublist_append_left xs ys)

theorem Placed.right (placed : Placed slot (xs ++ ys)) : Placed slot ys :=
  placed.sublist (List.sublist_append_right xs ys)

theorem Placed.apart (placed : Placed slot (xs ++ ys)) (mem : o ∈ xs) : o ∉ ys :=
  fun mem' => (List.nodup_append.mp placed.distinct).2.2 o mem o mem' rfl

theorem Placed.apart' (placed : Placed slot (xs ++ ys)) (mem : o ∈ ys) : o ∉ xs :=
  fun mem' => placed.apart mem' mem

theorem Placed.fresh (placed : Placed slot offs) : slot ∉ offs :=
  fun mem => lt_irrefl slot (placed.allocated slot mem)

theorem Placed.join (placed : Placed slot xs) (placed' : Placed slot' ys) (more : slot ≤ slot')
    (apart : ∀ o ∈ ys, o ∉ xs) : Placed slot' (xs ++ ys) := by
  refine ⟨List.nodup_append.mpr ⟨placed.distinct, placed'.distinct, ?_⟩, ?_, ?_⟩
  · rintro o mem _ mem' rfl
    exact apart o mem' mem
  · intro mem
    exact (List.mem_append.mp mem).elim placed.positive placed'.positive
  · intro o mem
    rcases List.mem_append.mp mem with mem | mem
    · exact (placed.allocated o mem).trans_le more
    · exact placed'.allocated o mem

theorem Placed.perm (placed : Placed slot xs) (perm : xs.Perm ys) : Placed slot ys :=
  ⟨perm.nodup_iff.mp placed.distinct, fun mem => placed.positive (perm.mem_iff.mpr mem),
    fun o mem => placed.allocated o (perm.mem_iff.mpr mem)⟩

theorem Placed.grow {xs ys : List Offset} {o : Offset} (placed : Placed slot (xs ++ o :: ys))
    (more : slot < slot') : Placed slot' (xs ++ o :: slot :: ys) := by
  have positive : 0 < slot := lt_of_le_of_lt (Nat.zero_le o) (placed.allocated o (by simp))
  have mark : Placed slot' [slot] := ⟨by simp, by simpa using positive.ne, by simpa using more⟩
  have joined := placed.join mark more.le (by simpa using placed.fresh)
  apply joined.perm
  simpa using (List.perm_append_singleton slot ys).cons o |>.append_left xs

theorem Tower.frame {f f' : File} (tower : Tower f root lower bounds levels)
    (same : ∀ o ∈ levelOffs levels, f'.get o = f.get o) : Tower f' root lower bounds levels := by
  induction tower with
  | top => exact .top
  | level linked listed keyed sized _ ih =>
    exact .level (linked_frame (fun o mem => same o (by simp [mem])) linked) listed keyed sized
      (ih fun o mem => same o (by simp [mem]))

theorem Tower.ofRoot {f : File} {c : Cell Index} (held : c.Holds f 0 0) (orphan : c.parent = 0)
    (listed : slotKids c.off c.items = lower) (keyed : SameInit (c.items.map Index.key) bounds)
    (nonempty : c.items ≠ []) (atMost : c.items.length ≤ bpOrder) :
    Tower f c.off lower bounds [[c]] := by
  refine .level ⟨held, trivial⟩ (by simpa using listed) (by simpa using keyed)
    ⟨by simpa using nonempty, by simpa using atMost, by simp, by simp⟩ ?_
  simp only [ids_cons, ids_nil, orphan]
  exact .top

theorem Tower.top_inv (tower : Tower f root lower bounds []) : lower = [(root, 0)] := by
  cases tower
  rfl

theorem Tower.single (tower : Tower f root (ids (L ++ c :: R)) bounds []) : L = [] ∧ R = [] := by
  have same := congrArg List.length tower.top_inv
  simp only [length_ids, List.length_append, List.length_cons, List.length_nil] at same
  constructor <;> apply List.length_eq_zero_iff.mp <;> omega

theorem Tower.level_inv (tower : Tower f root lower bounds (row :: rest)) :
    LinkedRow f row ∧ kids row = lower ∧ SameInit (rowKeys row) bounds ∧ Sized (rest = []) row ∧
      Tower f root (ids row) (uppers row) rest := by
  cases tower with
  | level linked listed keyed sized upper => exact ⟨linked, listed, keyed, sized, upper⟩

theorem Tower.root_mem (tower : Tower f root lower bounds levels) (filled : levels ≠ []) :
    root ∈ levelOffs levels := by
  induction tower with
  | top => contradiction
  | @level row _ _ rest _ _ _ _ upper ih =>
    rw [levelOffs_cons, List.mem_append]
    by_cases empty : rest = []
    · subst empty
      left
      rw [offsets_eq_ids, upper.top_inv]
      simp
    · exact Or.inr (ih empty)

/-- The root is the cell with no level above. -/
theorem Tower.root_iff {c : Cell α} (tower : Tower f root (ids (L ++ c :: R)) bounds rest)
    (apart : c.off ∉ levelOffs rest) : root = c.off ↔ rest = [] := by
  constructor
  · rintro rfl
    by_contra filled
    exact apart (tower.root_mem filled)
  · rintro rfl
    obtain ⟨rfl, rfl⟩ := tower.single
    have same := tower.top_inv
    simp only [List.nil_append, ids_cons, ids_nil, List.cons.injEq, Prod.mk.injEq, and_true] at same
    exact same.1.symm

theorem Tower.of_sameInit (tower : Tower f root lower bounds levels)
    (same : SameInit bounds bounds') : Tower f root lower bounds' levels := by
  cases tower with
  | top => exact .top
  | level linked listed keyed sized upper =>
    exact .level linked listed (keyed.trans same) sized upper

theorem Sized.refill {L R : List (Cell Index)} {c d : Cell Index}
    (sized : Sized top (L ++ c :: R)) (nonempty : d.items ≠ []) (atMost : d.items.length ≤ bpOrder)
    (atLeast : ¬ top → bpOrder / 2 ≤ d.items.length) : Sized top (L ++ d :: R) := by
  have others : ∀ e ∈ L ++ d :: R, e = d ∨ e ∈ L ++ c :: R := by
    intro e mem
    simp only [List.mem_append, List.mem_cons] at mem ⊢
    tauto
  refine ⟨?_, ?_, ?_, fun low => by simpa using sized.several low⟩
  · intro e mem
    rcases others e mem with rfl | mem
    · exact nonempty
    · exact sized.nonempty e mem
  · intro e mem
    rcases others e mem with rfl | mem
    · exact atMost
    · exact sized.atMost e mem
  · intro low e mem
    rcases others e mem with rfl | mem
    · exact atLeast low
    · exact sized.atLeast low e mem

/-- A level whose cell `c` got other slots, under the unchanged levels above. -/
theorem Tower.refill {L R : List (Cell Index)} {c : Cell Index} {items : List Index}
    (linked : LinkedRow f (L ++ ⟨c.off, c.parent, items⟩ :: R))
    (listed : kids L ++ (slotKids c.off items ++ kids R) = lower)
    (keyed : SameInit (rowKeys L ++ (items.map Index.key ++ rowKeys R)) bounds)
    (sized : Sized (rest = []) (L ++ ⟨c.off, c.parent, items⟩ :: R))
    (bound : R ≠ [] → lastKey ⟨c.off, c.parent, items⟩ = lastKey c)
    (upper : Tower f root (ids (L ++ c :: R)) (uppers (L ++ c :: R)) rest) :
    Tower f root lower bounds ((L ++ ⟨c.off, c.parent, items⟩ :: R) :: rest) := by
  refine .level linked (by simpa using listed) (by simpa using keyed) sized ?_
  have same : ids (L ++ ⟨c.off, c.parent, items⟩ :: R) = ids (L ++ c :: R) := by simp
  rw [same]
  apply upper.of_sameInit
  simp only [uppers_append, uppers_cons]
  refine SameInit.append_cons rfl (fun ne => (bound fun empty => ne (by rw [empty]; rfl)).symm) (.refl _)

/-- Cells of a row grouped by the slots that list them. -/
theorem row_of_ids {row : List (Cell α)} {P Q R S : List (Offset × Offset)}
    (same : ids row = P ++ (Q ++ (R ++ S))) :
    ∃ A M N B, row = A ++ (M ++ (N ++ B)) ∧ ids A = P ∧ ids M = Q ∧ ids N = R ∧ ids B = S := by
  obtain ⟨A, rest, rfl, hA, same⟩ := List.map_eq_append_iff.mp same
  obtain ⟨M, rest, rfl, hM, same⟩ := List.map_eq_append_iff.mp same
  obtain ⟨N, B, rfl, hN, hB⟩ := List.map_eq_append_iff.mp same
  exact ⟨A, M, N, B, rfl, hA, hM, hN, hB⟩

theorem ids_reparent {row : List (Cell α)} {items : List Index}
    (same : offsets row = items.map Index.child) (owner : Offset) :
    ids (row.map (Cell.reparent owner)) = slotKids owner items := by
  have := congrArg (List.map fun o => (o, owner)) same
  simpa [ids, offsets, slotKids, Cell.reparent, Function.comp_def] using this

theorem offsets_of_slotKids {row : List (Cell α)} {items : List Index}
    (same : ids row = slotKids owner items) : offsets row = items.map Index.child := by
  rw [offsets_eq_ids, same, slotKids, List.map_map]
  rfl

end Fdfs2qq.Bpt
