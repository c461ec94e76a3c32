import Fdfs2qq.Bpt.Store
import Fdfs2qq.Lib.LinkedRow
import Mathlib.Data.List.Nodup
import Mathlib.Data.List.Perm.Subperm

/-! What the primitives do to the block at each offset, and what `node_create`,
`node_remove` and `reset_index_children_parent` do to a doubly linked row. -/
namespace Fdfs2qq.Bpt
open Lib

theorem readBlock_writeBlock (off o : Offset) (block : Block) (blocks : List (Offset × Block)) :
    readBlock o (writeBlock off block blocks) =
      if o = off then some block else readBlock o blocks := by
  induction blocks with
  | nil => simp [writeBlock, readBlock, eq_comm]
  | cons entry rest ih =>
    obtain ⟨p, b⟩ := entry
    by_cases here : p = off
    · subst here
      by_cases same : o = p
      · simp [writeBlock, readBlock, same]
      · simp [writeBlock, readBlock, same, Ne.symm same]
    · by_cases same : p = o
      · subst same
        simp [writeBlock, readBlock, here]
      · simp [writeBlock, readBlock, here, same, ih]

theorem File.get_put (f : File) (off o : Offset) (block : Block) :
    (f.put off block).get o = if o = off then some block else f.get o :=
  readBlock_writeBlock off o block f.blocks

theorem readBlock_mem {blocks : List (Offset × Block)} (found : readBlock off blocks = some b) :
    off ∈ blocks.map Prod.fst := by
  induction blocks with
  | nil => simp [readBlock] at found
  | cons entry rest ih =>
    obtain ⟨o, c⟩ := entry
    by_cases here : o = off
    · simp [here]
    · exact List.mem_cons_of_mem _ (ih (by simpa [readBlock, here] using found))

/-- Distinct written offsets are at most as many as there are blocks. -/
theorem File.length_le_blocks {f : File} {offs : List Offset} (distinct : offs.Nodup)
    (written : ∀ o ∈ offs, ∃ b, f.get o = some b) : offs.length ≤ f.blocks.length := by
  have inside : offs ⊆ f.blocks.map Prod.fst := by
    intro o mem
    obtain ⟨b, found⟩ := written o mem
    exact readBlock_mem found
  simpa using (distinct.subperm inside).length_le

namespace BPlusTree

@[simp] theorem unmap_info [NodeType α] (t : BPlusTree) (node : Node α) (off : Offset) :
    (t.unmap node off).info = t.info := rfl

@[simp] theorem unmapMeta_info (t : BPlusTree) : t.unmapMeta.info = t.info := rfl

@[simp] theorem get_unmapMeta (t : BPlusTree) (o : Offset) :
    t.unmapMeta.file.get o = t.file.get o := rfl

theorem get_unmap [NodeType α] (t : BPlusTree) (node : Node α) (off o : Offset) :
    (t.unmap node off).file.get o =
      if o = off then some ⟨node.toHeader, NodeType.body node.children⟩ else t.file.get o :=
  t.file.get_put off o _

theorem get_unmap_self [NodeType α] (t : BPlusTree) (node : Node α) (off : Offset) :
    (t.unmap node off).file.get off = some ⟨node.toHeader, NodeType.body node.children⟩ := by
  rw [get_unmap, if_pos rfl]

theorem get_unmap_ne [NodeType α] (t : BPlusTree) (node : Node α) {off o : Offset} (ne : o ≠ off) :
    (t.unmap node off).file.get o = t.file.get o := by
  rw [get_unmap, if_neg ne]

theorem get_unmap_two [NodeType α] (t : BPlusTree) (n m : Node α) (notX : o ≠ x) (notY : o ≠ y) :
    ((t.unmap n x).unmap m y).file.get o = t.file.get o := by
  rw [get_unmap_ne _ _ notY, get_unmap_ne _ _ notX]

@[simp] theorem bound_file (f : File) : BlockFile.bound f = f.blocks.length := rfl

theorem map_eq (α : Type) [NodeType α] (t : BPlusTree) (off : Offset) :
    t.map α off = match t.file.get off with
      | none => .error .block
      | some b =>
        match NodeType.children b.body with
        | none => .error .block
        | some slots => .ok ⟨b.toHeader, slots⟩ := rfl

theorem rewriteHeader_eq (t : BPlusTree) (off : Offset) (change : Header → Header) :
    t.rewriteHeader off change = match t.file.get off with
      | none => .error .block
      | some b => .ok { t with file := t.file.put off { b with toHeader := change b.toHeader } } := by
  simp only [rewriteHeader, BlockFile.changeHeader]
  cases t.file.get off <;> rfl

theorem map_of_get [NodeType α] {t : BPlusTree} {slots : List α}
    (found : t.file.get off = some ⟨h, NodeType.body slots⟩) : t.map α off = .ok ⟨h, slots⟩ := by
  simp only [map_eq, found, NodeType.children_body]

theorem rewriteHeader_of_get {t : BPlusTree} (found : t.file.get off = some b)
    (change : Header → Header) :
    ∃ t', t.rewriteHeader off change = .ok t' ∧ t'.info = t.info ∧
      t'.file.get off = some { b with toHeader := change b.toHeader } ∧
      ∀ o, o ≠ off → t'.file.get o = t.file.get o := by
  refine ⟨{ t with file := t.file.put off { b with toHeader := change b.toHeader } }, ?_, rfl, ?_, ?_⟩
  · simp only [rewriteHeader_eq, found]
  · rw [File.get_put, if_pos rfl]
  · intro o ne
    rw [File.get_put, if_neg ne]

@[simp] theorem alloc_fst [NodeType α] (t : BPlusTree) : (t.alloc α).1 = t.info.slot := rfl

@[simp] theorem get_alloc [NodeType α] (t : BPlusTree) (o : Offset) :
    (t.alloc α).2.file.get o = t.file.get o := rfl

@[simp] theorem get_unalloc [NodeType α] (t : BPlusTree) (o : Offset) :
    (t.unalloc α).file.get o = t.file.get o := rfl

end BPlusTree

/-- A node of a level: where it lies, its parent field and its slots. -/
structure Cell (α : Type) where
  off : Offset
  parent : Offset
  items : List α

namespace Cell

def node (c : Cell α) (next prev : Offset) : Node α :=
  { parent := c.parent, next := next, prev := prev, children := c.items }

def Holds [NodeType α] (f : File) (c : Cell α) (next prev : Offset) : Prop :=
  f.get c.off = some ⟨⟨c.parent, next, prev⟩, NodeType.body c.items⟩

theorem Holds.map [NodeType α] {t : BPlusTree} {c : Cell α} (held : c.Holds t.file next prev) :
    t.map α c.off = .ok (c.node next prev) := BPlusTree.map_of_get held

theorem Holds.of_get_eq [NodeType α] {f f' : File} {c : Cell α} (held : c.Holds f next prev)
    (same : f'.get c.off = f.get c.off) : c.Holds f' next prev := by
  rw [Holds, same]
  exact held

end Cell

def offsets (row : List (Cell α)) : List Offset := row.map Cell.off

@[simp] theorem offsets_nil : offsets ([] : List (Cell α)) = [] := rfl

@[simp] theorem offsets_cons (c : Cell α) (row : List (Cell α)) :
    offsets (c :: row) = c.off :: offsets row := rfl

@[simp] theorem offsets_append (A B : List (Cell α)) :
    offsets (A ++ B) = offsets A ++ offsets B := List.map_append

theorem mem_offsets {c : Cell α} {row : List (Cell α)} (mem : c ∈ row) : c.off ∈ offsets row :=
  List.mem_map_of_mem mem

abbrev firstOff (row : List (Cell α)) : Offset := firstAddr Cell.off 0 row

abbrev lastOff (row : List (Cell α)) : Offset := lastAddr Cell.off 0 row

theorem lastOff_concat (A : List (Cell α)) (c : Cell α) : lastOff (A ++ [c]) = c.off := by
  rw [lastOff, lastAddr_append]
  rfl

/-- A whole level as a correct doubly linked list. -/
def LinkedRow [NodeType α] (f : File) (row : List (Cell α)) : Prop :=
  Linked Cell.off (Cell.Holds f) 0 0 row

theorem linked_frame [NodeType α] {f f' : File} {row : List (Cell α)}
    (same : ∀ o ∈ offsets row, f'.get o = f.get o)
    (linked : Linked Cell.off (Cell.Holds f) stop start row) :
    Linked Cell.off (Cell.Holds f') stop start row :=
  linked.frame fun _ mem _ _ held => held.of_get_eq (same _ (mem_offsets mem))

theorem LinkedRow.at_iff [NodeType α] {f : File} {A B : List (Cell α)} {x : Cell α} :
    LinkedRow f (A ++ x :: B) ↔
      Linked Cell.off (Cell.Holds f) x.off 0 A ∧ x.Holds f (firstOff B) (lastOff A) ∧
        Linked Cell.off (Cell.Holds f) 0 x.off B := Linked.at_iff A x B

theorem LinkedRow.written [NodeType α] {f : File} {row : List (Cell α)} (linked : LinkedRow f row) :
    ∀ o ∈ offsets row, ∃ b, f.get o = some b := by
  intro o mem
  obtain ⟨c, inside, rfl⟩ := List.mem_map.mp mem
  obtain ⟨next, prev, held⟩ := Linked.mem linked inside
  exact ⟨_, held⟩

namespace BPlusTree

/-- Changing the neighbour's `prev` restarts the rest of the row. -/
theorem relinkPrev_row [NodeType α] {t : BPlusTree} {B : List (Cell α)} {start : Offset}
    (linked : Linked Cell.off (Cell.Holds t.file) 0 start B) (distinct : (offsets B).Nodup)
    (nonzero : 0 ∉ offsets B) (start' : Offset) :
    ∃ t', t.relinkPrev (firstOff B) start' = .ok t' ∧ t'.info = t.info ∧
      Linked Cell.off (Cell.Holds t'.file) 0 start' B ∧
      ∀ o ∉ offsets B, t'.file.get o = t.file.get o := by
  cases B with
  | nil => exact ⟨t, rfl, rfl, trivial, fun _ _ => rfl⟩
  | cons c rest =>
    have ne : c.off ≠ 0 := fun zero => nonzero (by simp [zero])
    obtain ⟨fresh, _⟩ := List.nodup_cons.mp distinct
    obtain ⟨held, tail⟩ := linked
    obtain ⟨t', ok, info, here, frame⟩ :=
      rewriteHeader_of_get held (fun h => { h with prev := start' })
    refine ⟨t', ?_, info, ⟨here, ?_⟩, ?_⟩
    · simp only [relinkPrev, firstAddr, ne, ne_eq, not_false_eq_true, if_true]
      exact ok
    · exact linked_frame (fun o mem => frame o fun same => fresh (same ▸ mem)) tail
    · intro o outside
      exact frame o fun same => outside (by simp [same])

theorem unmap_row [NodeType α] {t : BPlusTree} {A B : List (Cell α)} {x : Cell α}
    (linked : LinkedRow t.file (A ++ x :: B)) (distinct : (offsets (A ++ x :: B)).Nodup)
    (items : List α) :
    LinkedRow (t.unmap ({ x with items := items }.node (firstOff B) (lastOff A)) x.off).file
      (A ++ { x with items := items } :: B) := by
  obtain ⟨left, _, right⟩ := LinkedRow.at_iff.mp linked
  simp only [offsets_append, offsets_cons, List.nodup_append, List.nodup_cons] at distinct
  obtain ⟨_, ⟨notRight, _⟩, apart⟩ := distinct
  refine LinkedRow.at_iff.mpr ⟨linked_frame ?_ left, get_unmap_self _ _ _, linked_frame ?_ right⟩
  · exact fun o mem => get_unmap_ne _ _ fun same => apart o mem x.off (by simp) same
  · exact fun o mem => get_unmap_ne _ _ (ne_of_mem_of_not_mem mem notRight)

theorem unmap_neighbours [NodeType α] {t : BPlusTree} {A B : List (Cell α)} {x y : Cell α}
    (linked : LinkedRow t.file (A ++ x :: y :: B)) (distinct : (offsets (A ++ x :: y :: B)).Nodup)
    (I J : List α) :
    LinkedRow ((t.unmap ({ x with items := I }.node y.off (lastOff A)) x.off).unmap
        ({ y with items := J }.node (firstOff B) x.off) y.off).file
      (A ++ { x with items := I } :: { y with items := J } :: B) := by
  have left := unmap_row linked distinct I
  have both := unmap_row (A := A ++ [{ x with items := I }]) (x := y) (B := B) (by simpa using left)
    (by simpa using distinct) J
  rwa [lastOff_concat, List.append_assoc] at both

theorem unmap_neighbours' [NodeType α] {t : BPlusTree} {A B : List (Cell α)} {x y : Cell α}
    (linked : LinkedRow t.file (A ++ x :: y :: B)) (distinct : (offsets (A ++ x :: y :: B)).Nodup)
    (I J : List α) :
    LinkedRow ((t.unmap ({ y with items := J }.node (firstOff B) x.off) y.off).unmap
        ({ x with items := I }.node y.off (lastOff A)) x.off).file
      (A ++ { x with items := I } :: { y with items := J } :: B) := by
  have right := unmap_row (A := A ++ [x]) (x := y) (B := B) (by simpa using linked) (by simpa using distinct) J
  rw [lastOff_concat, List.append_assoc] at right
  exact unmap_row (A := A) (x := x) (B := { y with items := J } :: B) right (by simpa using distinct) I

/-- `node_create` and the writes of both halves split one cell into two. -/
theorem nodeCreate_row [NodeType α] {t : BPlusTree} {A B : List (Cell α)} {x : Cell α}
    (linked : LinkedRow t.file (A ++ x :: B)) (distinct : (offsets (A ++ x :: B)).Nodup)
    (nonzero : 0 ∉ offsets (A ++ x :: B)) (fresh : t.info.slot ∉ offsets (A ++ x :: B)) :
    ∃ t₁, t.nodeCreate x.off (x.node (firstOff B) (lastOff A)) =
        .ok (t₁, x.node t.info.slot (lastOff A),
          (⟨t.info.slot, x.parent, []⟩ : Cell α).node (firstOff B) x.off) ∧
      t₁.info = (t.alloc α).2.info ∧
      ∀ left right : List α, ∃ t₂, (t₁.unmap ((⟨x.off, x.parent, left⟩ : Cell α).node
            t.info.slot (lastOff A)) x.off).unmap
          ((⟨t.info.slot, x.parent, right⟩ : Cell α).node (firstOff B) x.off) t.info.slot = t₂ ∧
        t₂.info = t₁.info ∧
        LinkedRow t₂.file
          (A ++ ⟨x.off, x.parent, left⟩ :: ⟨t.info.slot, x.parent, right⟩ :: B) ∧
        ∀ o ∉ offsets (A ++ x :: B), o ≠ t.info.slot → t₂.file.get o = t.file.get o := by
  obtain ⟨leftRow, _, rightRow⟩ := LinkedRow.at_iff.mp linked
  simp only [offsets_append, offsets_cons, List.nodup_append, List.nodup_cons, List.mem_append,
    List.mem_cons, not_or] at distinct nonzero fresh
  obtain ⟨_, ⟨notRight, distinctB⟩, apart⟩ := distinct
  obtain ⟨t₁, ok, info, relinked, frame⟩ := relinkPrev_row (t := (t.alloc α).2)
    (linked_frame (fun _ _ => rfl) rightRow) distinctB nonzero.2.2 t.info.slot
  refine ⟨t₁.unmapMeta, ?_, by simpa using info, ?_⟩
  · simp only [nodeCreate, Cell.node, bind, Except.bind, pure, Except.pure, alloc_fst, ok]
  intro left right
  refine ⟨_, rfl, rfl, ?_, ?_⟩
  · refine LinkedRow.at_iff.mpr ⟨linked_frame ?_ leftRow, ?_, get_unmap_self _ _ _,
      linked_frame ?_ relinked⟩
    · intro o mem
      have notX : o ≠ x.off := fun same => apart o mem x.off (by simp) same
      have notB : o ∉ offsets B := fun inB => apart o mem o (by simp [inB]) rfl
      rw [get_unmap_ne _ _ (ne_of_mem_of_not_mem mem fresh.1), get_unmap_ne _ _ notX,
        get_unmapMeta, frame o notB, get_alloc]
    · rw [Cell.Holds, get_unmap_ne _ _ (Ne.symm fresh.2.1)]
      exact get_unmap_self _ _ _
    · intro o mem
      rw [get_unmap_ne _ _ (ne_of_mem_of_not_mem mem fresh.2.2),
        get_unmap_ne _ _ (ne_of_mem_of_not_mem mem notRight), get_unmapMeta]
  · intro o outside notSlot
    simp only [offsets_append, offsets_cons, List.mem_append, List.mem_cons, not_or] at outside
    rw [get_unmap_ne _ _ notSlot, get_unmap_ne _ _ outside.2.1, get_unmapMeta,
      frame o outside.2.2, get_alloc]

/-- `node_remove` and the write of the left node merge two cells into one. -/
theorem nodeRemove_row [NodeType α] {t : BPlusTree} {A B : List (Cell α)} {x y : Cell α}
    (linked : LinkedRow t.file (A ++ x :: y :: B)) (distinct : (offsets (A ++ x :: y :: B)).Nodup)
    (nonzero : 0 ∉ offsets (A ++ x :: y :: B)) (items rest : List α) :
    ∃ t₁, t.nodeRemove ((⟨x.off, x.parent, items⟩ : Cell α).node y.off (lastOff A))
          ((⟨y.off, y.parent, rest⟩ : Cell α).node (firstOff B) x.off) =
        .ok (t₁, (⟨x.off, x.parent, items⟩ : Cell α).node (firstOff B) (lastOff A)) ∧
      t₁.info = (t.unalloc α).info ∧
      ∃ t₂, t₁.unmap ((⟨x.off, x.parent, items⟩ : Cell α).node (firstOff B) (lastOff A)) x.off = t₂ ∧
        t₂.info = t₁.info ∧
        LinkedRow t₂.file (A ++ ⟨x.off, x.parent, items⟩ :: B) ∧
        ∀ o ∉ offsets (A ++ x :: y :: B), t₂.file.get o = t.file.get o := by
  obtain ⟨leftRow, _, _, rightRow⟩ := LinkedRow.at_iff.mp linked
  simp only [offsets_append, offsets_cons, List.nodup_append, List.nodup_cons, List.mem_append,
    List.mem_cons, not_or] at distinct nonzero
  obtain ⟨_, ⟨notRight, _, distinctB⟩, apart⟩ := distinct
  obtain ⟨t₁, ok, info, relinked, frame⟩ := relinkPrev_row (t := t.unalloc α)
    (linked_frame (fun _ _ => rfl) rightRow) distinctB nonzero.2.2.2 x.off
  refine ⟨t₁.unmapMeta, ?_, by simpa using info, _, rfl, rfl, ?_, ?_⟩
  · simp only [nodeRemove, Cell.node, bind, Except.bind, pure, Except.pure, ok]
  · refine LinkedRow.at_iff.mpr ⟨linked_frame ?_ leftRow, get_unmap_self _ _ _,
      linked_frame ?_ relinked⟩
    · intro o mem
      have notX : o ≠ x.off := fun same => apart o mem x.off (by simp) same
      have notB : o ∉ offsets B := fun inB => apart o mem o (by simp [inB]) rfl
      rw [get_unmap_ne _ _ notX, get_unmapMeta, frame o notB, get_unalloc]
    · intro o mem
      rw [get_unmap_ne _ _ (ne_of_mem_of_not_mem mem notRight.2), get_unmapMeta]
  · intro o outside
    simp only [offsets_append, offsets_cons, List.mem_append, List.mem_cons, not_or] at outside
    rw [get_unmap_ne _ _ outside.2.1, get_unmapMeta, frame o outside.2.2.2, get_unalloc]

end BPlusTree

def Cell.reparent (parent : Offset) (c : Cell α) : Cell α := { c with parent := parent }

@[simp] theorem offsets_reparent (parent : Offset) (row : List (Cell α)) :
    offsets (row.map (Cell.reparent parent)) = offsets row := by
  simp [offsets, Cell.reparent]

theorem BPlusTree.resetIndexChildrenParent_row [NodeType α] {t : BPlusTree}
    {A M B : List (Cell α)} {S : List Index} (linked : LinkedRow t.file (A ++ (M ++ B)))
    (distinct : (offsets (A ++ (M ++ B))).Nodup) (same : S.map Index.child = offsets M)
    (parent : Offset) :
    ∃ t', t.resetIndexChildrenParent S parent = .ok t' ∧ t'.info = t.info ∧
      LinkedRow t'.file (A ++ (M.map (Cell.reparent parent) ++ B)) ∧
      ∀ o ∉ offsets M, t'.file.get o = t.file.get o := by
  induction M generalizing t A S with
  | nil =>
    obtain rfl : S = [] := List.map_eq_nil_iff.mp same
    exact ⟨t, rfl, rfl, linked, fun _ _ => rfl⟩
  | cons c M ih =>
    obtain ⟨slot, slots, rfl⟩ : ∃ slot rest, S = slot :: rest := by
      cases S with
      | nil => simp at same
      | cons slot rest => exact ⟨slot, rest, rfl⟩
    simp only [List.map_cons, offsets_cons, List.cons.injEq] at same
    obtain ⟨leftRow, held, rightRow⟩ := LinkedRow.at_iff.mp linked
    have distinct' := distinct
    simp only [List.cons_append, offsets_append, offsets_cons, List.nodup_append,
      List.nodup_cons, List.mem_append, List.mem_cons, not_or] at distinct
    obtain ⟨_, ⟨notRight, _⟩, apart⟩ := distinct
    obtain ⟨t₁, ok, info, here, frame⟩ :=
      rewriteHeader_of_get held (fun h => { h with parent := parent })
    have moved : LinkedRow t₁.file ((A ++ [c.reparent parent]) ++ (M ++ B)) := by
      rw [List.append_assoc, List.singleton_append]
      refine LinkedRow.at_iff.mpr ⟨linked_frame ?_ leftRow, here, linked_frame ?_ rightRow⟩
      · exact fun o mem => frame o fun eq => apart o mem c.off (by simp) eq
      · intro o mem
        apply frame o
        intro eq
        rw [offsets_append, List.mem_append] at mem
        exact mem.elim (fun m => notRight.1 (eq ▸ m)) fun m => notRight.2 (eq ▸ m)
    obtain ⟨t', run, info', linked', frame'⟩ :=
      ih moved (by simpa [Cell.reparent] using distinct') same.2
    refine ⟨t', ?_, info'.trans info, by simpa using linked', ?_⟩
    · simp only [resetIndexChildrenParent, same.1, ok, bind, Except.bind]
      exact run
    · intro o outside
      simp only [offsets_cons, List.mem_cons, not_or] at outside
      rw [frame' o outside.2, frame o outside.1]

end Fdfs2qq.Bpt
