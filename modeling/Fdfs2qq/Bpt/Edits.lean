import Fdfs2qq.Bpt.Calls
import Fdfs2qq.Bpt.StoreProofs
import Fdfs2qq.Lib.Ensures
import Fdfs2qq.Bpt.WellFormed

/-! Every call of the tree is a row of edits of its file. A block is written where one
of its kind was allocated and nowhere else. -/
namespace Fdfs2qq.Bpt
open Lib

class NodeKind (α : Type) [NodeType α] where
  kind : Kind
  kind_body : ∀ slots : List α, (NodeType.body slots).kind = kind
  body_children : ∀ (body : Body) (slots : List α), NodeType.children body = some slots → body = NodeType.body slots
  size_kind : kind.size = NodeType.size α
  slot_counted : ∀ (step : Nat → Nat) (m : Meta), (NodeType.counted α step m).slot = m.slot

instance : NodeKind Index where
  kind := .internal
  kind_body _ := rfl
  body_children body slots read := by
    cases body with
    | internal => exact congrArg Body.internal (Option.some.inj read)
    | leaf => cases read
  size_kind := rfl
  slot_counted _ _ := rfl

instance : NodeKind Record where
  kind := .leaf
  kind_body _ := rfl
  body_children body slots read := by
    cases body with
    | internal => cases read
    | leaf => exact congrArg Body.leaf (Option.some.inj read)
  size_kind := rfl
  slot_counted _ _ := rfl

inductive Write where
  | nothing
  | info (m : Meta)
  | block (off : Offset) (b : Block)
  /-- The first `SIZE_NO_CHILDREN` bytes of what is then this block. -/
  | header (off : Offset) (b : Block)

/-- The tree, and the blocks that are allocated and not written yet. -/
structure Draft where
  pending : List (Offset × Kind)
  tree : BPlusTree

inductive Edit : Draft → Write → Draft → Prop where
  | alloc (α : Type) [NodeType α] [NodeKind α] :
      Edit ⟨ps, t⟩ .nothing ⟨(t.info.slot, NodeKind.kind α) :: ps, (t.alloc α).2⟩
  | info (m : Meta) : m.slot = t.info.slot → Edit ⟨ps, t⟩ .nothing ⟨ps, { t with info := m }⟩
  | unmapMeta : Edit ⟨ps, t⟩ (.info t.info) ⟨ps, t.unmapMeta⟩
  | unmap : t.Written off b.body.kind →
      Edit ⟨ps, t⟩ (.block off b) ⟨ps, { t with file := t.file.put off b }⟩
  | fresh : Edit ⟨before ++ (off, b.body.kind) :: after, t⟩ (.block off b)
      ⟨before ++ after, { t with file := t.file.put off b }⟩
  | header {t : BPlusTree} {b : Block} (h : Header) : t.file.get off = some b →
      Edit ⟨ps, t⟩ (.header off { b with toHeader := h })
        ⟨ps, { t with file := t.file.put off { b with toHeader := h } }⟩

def Edits (s s' : Draft) : Prop := ∃ writes, Run Edit s writes s'

/-- The pieces of the file, of which those that are pending are not written. -/
structure Draft.Tiled (s : Draft) (row : List (Offset × Kind)) : Prop where
  tiles : Tiles Kind.size offsetBlock row s.tree.info.slot
  pieces : ∀ off kind, (off, kind) ∈ row ↔ s.tree.Written off kind ∨ (off, kind) ∈ s.pending
  unwritten : ∀ off kind, (off, kind) ∈ s.pending → s.tree.file.get off = none
  distinct : s.pending.Nodup

variable {s s' : Draft} {t : BPlusTree} {ps : List (Offset × Kind)} {row : List (Offset × Kind)}

theorem BPlusTree.Written.unique {kind kind' : Kind} (written : t.Written off kind)
    (written' : t.Written off kind') : kind = kind' := by
  obtain ⟨b, found, rfl⟩ := written
  obtain ⟨c, found', rfl⟩ := written'
  rw [Option.some.inj (found.symm.trans found')]

theorem BPlusTree.written_put {b : Block} {off o : Offset} {kind : Kind} :
    BPlusTree.Written { t with file := t.file.put off b } o kind ↔
      if o = off then b.body.kind = kind else t.Written o kind := by
  rw [Written, File.get_put]
  split
  · simp
  · rfl

theorem BPlusTree.written_put_same {b : Block} {off o : Offset} {kind : Kind}
    (here : t.Written off b.body.kind) :
    BPlusTree.Written { t with file := t.file.put off b } o kind ↔ t.Written o kind := by
  rw [written_put]
  split
  next same =>
    subst same
    exact ⟨fun kinds => kinds ▸ here, fun there => here.unique there⟩
  next => rfl

theorem Draft.Tiled.put_same {b : Block} {off : Offset} (tiled : Draft.Tiled ⟨ps, t⟩ row)
    (here : t.Written off b.body.kind) :
    Draft.Tiled ⟨ps, { t with file := t.file.put off b }⟩ row where
  tiles := tiled.tiles
  pieces o kind := by
    rw [tiled.pieces, BPlusTree.written_put_same here]
  unwritten o kind mem := by
    have empty := tiled.unwritten o kind mem
    obtain ⟨c, found, -⟩ := here
    rw [File.get_put, if_neg]
    · exact empty
    · rintro rfl
      cases empty.symm.trans found
  distinct := tiled.distinct

theorem Draft.Tiled.congr (tiled : Draft.Tiled ⟨ps, t⟩ row) (t' : BPlusTree)
    (slot : t'.info.slot = t.info.slot) (same : ∀ off, t'.file.get off = t.file.get off) :
    Draft.Tiled ⟨ps, t'⟩ row where
  tiles := slot ▸ tiled.tiles
  pieces off kind := by
    rw [tiled.pieces]
    simp only [BPlusTree.Written, same]
  unwritten off kind mem := (same off).trans (tiled.unwritten off kind mem)
  distinct := tiled.distinct

theorem Draft.Tiled.put_fresh {b : Block} {off : Offset} {before after : List (Offset × Kind)}
    (tiled : Draft.Tiled ⟨before ++ (off, b.body.kind) :: after, t⟩ row) :
    Draft.Tiled ⟨before ++ after, { t with file := t.file.put off b }⟩ row := by
  have free := tiled.unwritten off b.body.kind (by simp)
  obtain ⟨alone, distinct⟩ := List.nodup_cons.mp (List.nodup_middle.mp tiled.distinct)
  have here : (off, b.body.kind) ∈ row := (tiled.pieces _ _).mpr (.inr (by simp))
  have still {o : Offset} {kind : Kind} (mem : (o, kind) ∈ before ++ after) :
      (o, kind) ∈ before ++ (off, b.body.kind) :: after :=
    (List.mem_append.mp mem).elim (List.mem_append_left _) fun mem =>
      List.mem_append_right _ (List.mem_cons_of_mem _ mem)
  refine ⟨tiled.tiles, fun o kind => ?_, fun o kind mem => ?_, distinct⟩
  · rw [BPlusTree.written_put]
    split
    next same =>
      subst same
      constructor
      · exact fun mem => .inl (tiled.tiles.kind_unique Kind.size_pos here mem)
      · rintro (rfl | mem)
        · exact here
        · exact (tiled.pieces _ _).mpr (.inr (still mem))
    next other =>
      rw [tiled.pieces]
      refine or_congr_right ⟨fun mem => ?_, still⟩
      obtain mem | mem := List.mem_append.mp mem
      · exact List.mem_append_left _ mem
      · obtain same | mem := List.mem_cons.mp mem
        · exact absurd (Prod.mk.inj same).1 other
        · exact List.mem_append_right _ mem
  · rw [File.get_put, if_neg]
    · exact tiled.unwritten o kind (still mem)
    · rintro rfl
      have there : (o, kind) ∈ row := (tiled.pieces _ _).mpr (.inr (still mem))
      exact alone (tiled.tiles.kind_unique Kind.size_pos here there ▸ mem)

/-- What one edit keeps: the pieces and the kinds of the blocks. -/
theorem Edit.keeps {w : Write} (edit : Edit s w s') (tiled : s.Tiled row) :
    (∃ more, s'.Tiled (row ++ more)) ∧
      ∀ off kind, s.tree.Written off kind → s'.tree.Written off kind := by
  cases edit with
  | @alloc ps t α =>
    have below : ∀ kind, (t.info.slot, kind) ∉ row := fun kind mem => by
      have bounds := (tiled.tiles.bounds mem).2
      have positive := kind.size_pos
      simp only at bounds
      omega
    have free : t.file.get t.info.slot = none := by
      cases found : t.file.get t.info.slot with
      | none => rfl
      | some b => exact absurd ((tiled.pieces _ _).mpr (.inl ⟨b, found, rfl⟩)) (below b.body.kind)
    refine ⟨⟨[(t.info.slot, NodeKind.kind α)], ?_, ?_, ?_, ?_⟩, fun _ _ written => written⟩
    · have grown := tiled.tiles.concat (NodeKind.kind α)
      rwa [NodeKind.size_kind] at grown
    · intro off kind
      rw [List.mem_append, tiled.pieces, List.mem_singleton, List.mem_cons, or_assoc,
        or_comm (a := (off, kind) ∈ ps)]
      rfl
    · intro off kind mem
      obtain here | mem := List.mem_cons.mp mem
      · cases here
        exact free
      · exact tiled.unwritten off kind mem
    · exact List.nodup_cons.mpr ⟨fun mem => below _ ((tiled.pieces _ _).mpr (.inr mem)), tiled.distinct⟩
  | info m slot =>
    exact ⟨⟨[], by rw [List.append_nil]; exact tiled.congr _ slot fun _ => rfl⟩, fun _ _ written => written⟩
  | unmapMeta =>
    exact ⟨⟨[], by rw [List.append_nil]; exact tiled.congr _ rfl fun _ => rfl⟩, fun _ _ written => written⟩
  | unmap here =>
    exact ⟨⟨[], by rw [List.append_nil]; exact tiled.put_same here⟩,
      fun _ _ => (BPlusTree.written_put_same here).mpr⟩
  | @header off ps t b h found =>
    have here : t.Written off ({ b with toHeader := h } : Block).body.kind := ⟨b, found, rfl⟩
    exact ⟨⟨[], by rw [List.append_nil]; exact tiled.put_same here⟩,
      fun _ _ => (BPlusTree.written_put_same here).mpr⟩
  | fresh =>
    exact ⟨⟨[], by rw [List.append_nil]; exact tiled.put_fresh⟩, fun o kind written => by
      obtain ⟨c, found, -⟩ := id written
      rw [BPlusTree.written_put, if_neg]
      · exact written
      · rintro rfl
        cases (tiled.unwritten _ _ (List.mem_append_right _ List.mem_cons_self)).symm.trans found⟩

end Fdfs2qq.Bpt
