import Fdfs2qq.Bpt.Overrun

/-! The blocks of the file lie end to end behind the meta block, in the order in which
they were allocated, whatever calls were made. -/
namespace Fdfs2qq.Bpt
open Lib

/-- The object of `init_from_empty` before its first `alloc`, with no file yet. -/
def blankDraft : Draft where
  pending := []
  tree :=
    { info :=
        { order := bpOrder, valueSize := 4, keySize := 64, internalNodeNum := 0, leafNodeNum := 0,
          height := 1, slot := offsetBlock, rootOffset := 0, leafOffset := 0 }
      file := { stored := none, blocks := [] } }

theorem blankDraft_tiled : blankDraft.Tiled [] where
  tiles := rfl
  pieces off kind := by
    constructor
    · nofun
    · rintro (⟨b, found, -⟩ | mem)
      · cases found
      · cases mem
  unwritten _ _ := nofun
  distinct := List.nodup_nil

theorem initFromEmpty_edits : EditsTo blankDraft ⟨[], BPlusTree.initFromEmpty⟩ := by
  have root := EditsTo.of_edit ⟨[], blankDraft_tiled⟩ (.alloc Index)
  have named := root.next (.info { (blankDraft.tree.alloc Index).2.info with rootOffset := offsetBlock } rfl)
  have leaf := named.next (.alloc Record)
  have linked := leaf.next (.info { BPlusTree.initFromEmpty.info with
    leafOffset := BPlusTree.initFromEmpty.info.leafOffset } rfl)
  have saved := linked.next .unmapMeta
  have first := saved.next (@Edit.fresh [_] _ [] _ ⟨⟨0, 0, 0⟩,
    .internal [⟨Key.empty, BPlusTree.initFromEmpty.info.leafOffset⟩]⟩)
  exact first.unmapFresh (⟨⟨offsetBlock, 0, 0⟩, []⟩ : Node Record)

theorem Edits.tiled {s s' : Draft} {row : List (Offset × Kind)} (edits : Edits s s') (tiled : s.Tiled row) :
    ∃ more, s'.Tiled (row ++ more) := by
  obtain ⟨writes, run⟩ := edits
  refine run.invariant (P := fun s' => ∃ more, s'.Tiled (row ++ more)) (fun ⟨more, tiled⟩ edit => ?_)
    ⟨[], by rwa [List.append_nil]⟩
  obtain ⟨⟨more', tiled'⟩, -⟩ := edit.keeps tiled
  exact ⟨more ++ more', by rwa [← List.append_assoc]⟩

theorem run_edits {t t' : BPlusTree} {calls : List Call} (laid : Draft.Laid ⟨[], t⟩)
    (run : Run (Returns BPlusTree.call) t calls t') : EditsTo ⟨[], t⟩ ⟨[], t'⟩ :=
  run.invariant (P := fun t' => EditsTo ⟨[], t⟩ ⟨[], t'⟩)
    (fun reached ⟨_, returned⟩ => reached.trans (call_edits reached.laid _ _ returned)) (.refl laid)

theorem initFromEmpty_capped : BPlusTree.initFromEmpty.Capped := by
  intro off b found
  have small : ∀ off ∈ BPlusTree.initFromEmpty.file.blocks.map Prod.fst,
      ∀ b ∈ BPlusTree.initFromEmpty.file.get off, b.body.count ≤ bpOrder := by decide
  exact small off (mem_of_readBlock found) b found

end Fdfs2qq.Bpt
