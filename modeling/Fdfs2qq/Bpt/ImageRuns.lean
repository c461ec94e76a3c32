import Fdfs2qq.Bpt.Extents
import Fdfs2qq.Bpt.ImageCalls
import Fdfs2qq.Bpt.Reopen

/-! The tree on the bytes of a file refines the tree on blocks, call after call. -/
namespace Fdfs2qq.Bpt
open Lib

theorem Meta.Sized.of_le_slot {m : Meta} (below : ∀ n ∈ m.fields, n ≤ m.slot) (slot : m.slot < 2 ^ 64) :
    m.Sized := by
  simp only [Meta.fields, List.forall_mem_cons] at below
  obtain ⟨order, valueSize, keySize, internalNodeNum, leafNodeNum, height, -, rootOffset, leafOffset, -⟩ := below
  exact ⟨order.trans_lt slot, valueSize.trans_lt slot, keySize.trans_lt slot, internalNodeNum, leafNodeNum, height, slot,
    rootOffset.trans_lt slot, leafOffset.trans_lt slot⟩

theorem blankDraft_shows : Shows [] blankDraft.tree { bytes := 0, length := 0, spoilt := false } where
  laid := ⟨[], blankDraft_tiled⟩
  sized := .of_le_slot (by decide) (by decide)
  blocks _ _ := nofun
  distinct := List.nodup_nil
  spares := rfl

theorem Shows.initFromEmpty {f : Image} (shows : Shows [] blankDraft.tree f) :
    Shown [] .initFromEmpty (.initFromEmptyOn f) := by
  have root : Shows _ (blankDraft.tree.alloc Index).2 f := shows.alloc (.of_le_slot (by decide) (by decide))
  have named := root.info (m := { (blankDraft.tree.alloc Index).2.info with rootOffset := offsetBlock }) rfl
    (.of_le_slot (by decide) (by decide))
  have leaf : Shows _ (BPlusTree.alloc Record _).2 f := named.alloc (.of_le_slot (by decide) (by decide))
  have linked := leaf.info (m := BPlusTree.initFromEmpty.info) rfl (.of_le_slot (by decide) (by decide))
  have rootNode : Node.Fits (⟨⟨0, 0, 0⟩, [⟨Key.empty, BPlusTree.initFromEmpty.info.leafOffset⟩]⟩ : Node Index) :=
    fits_index.mpr ⟨⟨by decide, by decide, by decide⟩, by decide, by decide⟩
  have first := @Shows.unmapPending _ _ _ Index _ _ _ [_] linked.unmapMeta _ rootNode
  have leafNode : Node.Fits (⟨⟨offsetBlock, 0, 0⟩, []⟩ : Node Record) :=
    fits_record.mpr ⟨⟨by decide, by decide, by decide⟩, by decide⟩
  exact ⟨_, rfl, first.unmapFresh leafNode⟩

theorem create_shown (f : Image) : Shown [] .initFromEmpty (.create f true) := by
  have blank : BPlusTree.create f true = .initFromEmptyOn { bytes := 0, length := 0, spoilt := false } := by
    unfold BPlusTree.create
    cases f.stored <;> rfl
  exact blank ▸ blankDraft_shows.initFromEmpty

theorem Shown.call {t : BPlusTree} {i : BPlusTree Image} (shown : Shown [] t i) {c : Call} (roomy : t.Roomy)
    (returned : t.call c = .ok (answer, t')) : ∃ i', i.call c = .ok (answer, i') ∧ Shown [] t' i' := by
  obtain ⟨f, rfl, shows⟩ := shown
  obtain ⟨⟨answer', i'⟩, returned', same, shown⟩ := shows.call roomy c _ returned
  cases same
  exact ⟨i', returned', shown⟩

theorem Edit.slot_le {s s' : Draft} {w : Write} (edit : Edit s w s') :
    s.tree.info.slot ≤ s'.tree.info.slot := by
  cases edit with
  | alloc => exact Nat.le_add_right ..
  | info m same => exact same.ge
  | unmapMeta | unmap | fresh | header => exact Nat.le_refl _

/-- The file was never longer than it is. -/
theorem roomy_of_play {t t' : BPlusTree} {calls : List Call} (laid : Draft.Laid ⟨[], t⟩)
    (played : play BPlusTree.call t calls = .ok t') (roomy : t'.Roomy) :
    Guarded BPlusTree.call (fun t _ => t.Roomy) t calls := by
  induction calls generalizing t with
  | nil => trivial
  | cons c rest ih =>
    obtain ⟨writes, edits⟩ := (run_edits laid (run_of_play played)).edits
    have shorter : t.info.slot ≤ t'.info.slot :=
      edits.invariant (P := fun s => t.info.slot ≤ s.tree.info.slot) (fun le edit => le.trans edit.slot_le) (Nat.le_refl _)
    refine ⟨shorter.trans roomy, fun answer u returned => ih (call_edits laid c _ returned).laid ?_⟩
    rwa [play, returned] at played

namespace BPlusTree

/-- Calls without a defect on the bytes of a file answer like a finite map. -/
theorem conforms_on_bytes (f : Image) (calls : List Call) (clean : Guarded call Clean initFromEmpty calls)
    (roomy : ∀ t, play call initFromEmpty calls = .ok t → t.Roomy) :
    Conforms call MapAnswers mapAfter (create f true) (fun _ => none) calls := by
  have conforms : Conforms call MapAnswers mapAfter initFromEmpty (fun _ => none) calls :=
    clean.conforms (fun represents here => represents.call here) represents_empty
  rw [← List.append_nil calls] at conforms
  obtain ⟨t, played, -⟩ := conforms.drop
  rw [List.append_nil] at conforms
  have guarded := roomy_of_play initFromEmpty_edits.laid played (roomy t played)
  exact conforms.simulated (fun shown roomy returned => shown.call roomy returned) (create_shown f) guarded

theorem conforms_on_bytes_trimmed : Conforms call MapAnswers mapAfter opened (fun _ => none)
    (Grown.calls ++ Grown.trimming) := by
  have roomy : ∀ t ∈ (play call Grown.tree Grown.trimming).toOption, t.Roomy := by decide +kernel
  refine conforms_on_bytes _ _ trimming_clean fun t played => roomy t ?_
  rw [← grown_then, played]
  rfl

end BPlusTree
end Fdfs2qq.Bpt
