import Fdfs2qq.Bpt.RemoveProofs

/-! The records as a reader of the leaf list sees them, and what `remove` does
to them. -/
namespace Fdfs2qq.Bpt
open Lib

/-- `LeafChain f prev off records`: these are the records read from `off` on by
following `next`, and every `prev` field leads back, the first one to `prev`. -/
inductive LeafChain (f : File) : Offset → Offset → List Record → Prop where
  | stop : LeafChain f prev 0 []
  | leaf : off ≠ 0 → f.get off = some ⟨⟨parent, next, prev⟩, .leaf records⟩ →
      LeafChain f off next rest → LeafChain f prev off (records ++ rest)

theorem LeafChain.unique (first : LeafChain f prev off xs) (second : LeafChain f prev' off ys) :
    xs = ys := by
  induction first generalizing prev' ys with
  | stop =>
    cases second with
    | stop => rfl
    | leaf nonzero => exact absurd rfl nonzero
  | leaf nonzero read _ ih =>
    cases second with
    | stop => exact absurd rfl nonzero
    | leaf _ read' rest' =>
      rw [read] at read'
      cases read'
      rw [ih rest']

theorem LinkedRow.leafChain {f : File} {leaves : List (Cell Record)} (linked : LinkedRow f leaves)
    (positive : 0 ∉ offsets leaves) : LeafChain f 0 (firstOff leaves) (contents leaves) := by
  have chain : ∀ (row : List (Cell Record)) (start : Offset), 0 ∉ offsets row →
      Linked Cell.off (fun c next prev => c.Holds f next prev) 0 start row →
      LeafChain f start (firstOff row) (contents row) := by
    intro row
    induction row with
    | nil => exact fun _ _ _ => .stop
    | cons c rest ih =>
      intro start positive linked
      rw [offsets_cons, List.mem_cons, not_or] at positive
      exact .leaf (fun zero => positive.1 zero.symm) linked.1 (ih c.off positive.2 linked.2)
  exact chain leaves 0 positive linked

namespace BPlusTree

/-- The leaf list read from `meta.leaf_offset`. -/
def Reads (t : BPlusTree) (records : List Record) : Prop :=
  LeafChain t.file 0 t.info.leafOffset records

/-- What `remove(key)` is for: one record leaves the list, or nothing happens. -/
def RemovesExactly (t : BPlusTree) (key : Key) : Prop :=
  ∃ records, t.Reads records ∧
    (key ∈ records.map Record.key → ∃ P r S t', records = P ++ r :: S ∧ r.key = key ∧
      t.remove key = .ok (0, t') ∧ t'.Reads (P ++ S)) ∧
    (key ∉ records.map Record.key → t.remove key = .ok (-1, t))

end BPlusTree

theorem Shape.reads (shape : Shape t leaves bounds levels) : t.Reads (contents leaves) := by
  rw [BPlusTree.Reads, shape.leafOffset]
  exact shape.linked.leafChain shape.placed.left.positive

namespace BPlusTree

theorem removesExactly_of_clean {t : BPlusTree} (wf : t.WellFormed) (key : Key)
    (clean : .overrun ∉ t.removeDefects key) : t.RemovesExactly key := by
  obtain ⟨leaves, bounds, levels, shape⟩ := wf.shaped
  refine ⟨_, shape.reads, ?_⟩
  rcases shape.remove_spec key with ⟨P, S, split, gap, run, -⟩ | ⟨P, r, S, split, found, gap, removed⟩
  · rw [split]
    exact ⟨fun present => absurd present (notMem_keys gap), fun _ => run⟩
  · have present : key ∈ (contents leaves).map Record.key := by
      rw [split, ← found]
      exact List.mem_map_of_mem (by simp)
    refine ⟨fun _ => ?_, fun absent => absurd present absent⟩
    obtain ⟨t', leaves', ok, linked, sub, first, split', -⟩ := removed.fine clean
    refine ⟨P, r, S, t', split, found, ok, ?_⟩
    rw [Reads, first, ← split']
    exact linked.leafChain fun zero => shape.placed.left.positive (sub.subset zero)

theorem not_removesExactly_of_overrun {t : BPlusTree} (wf : t.WellFormed) {key : Key}
    (overrun : .overrun ∈ t.removeDefects key) : ¬ t.RemovesExactly key := by
  obtain ⟨leaves, bounds, levels, shape⟩ := wf.shaped
  rintro ⟨records, reads, works, -⟩
  obtain rfl := reads.unique shape.reads
  rcases shape.remove_spec key with ⟨P, S, split, gap, run, empty⟩ | ⟨P, r, S, split, found, gap, removed⟩
  · simp [empty] at overrun
  · have present : key ∈ (contents leaves).map Record.key := by
      rw [split, ← found]
      exact List.mem_map_of_mem (by simp)
    obtain ⟨_, _, _, t', _, _, ok, _⟩ := works present
    rw [removed.fault overrun] at ok
    cases ok

/-- `remove` does its work on the leaf list exactly when it does not write past
the array of a full index node. -/
theorem removesExactly_iff (t : BPlusTree) (wf : t.WellFormed) (key : Key) :
    t.RemovesExactly key ↔ .overrun ∉ t.removeDefects key :=
  ⟨fun exact_ overrun => not_removesExactly_of_overrun wf overrun exact_,
    removesExactly_of_clean wf key⟩

/-- A leaf and an internal node are merged with the next. -/
theorem removesExactly_merging : Packed.tree.RemovesExactly (Packed.number 5) :=
  (removesExactly_iff Packed.tree packed_wellFormed (Packed.number 5)).mpr (by decide +kernel)

/-- Removing the last record of the packed tree writes past the root's array. -/
theorem removesExactly_packed : Packed.tree.WellFormed ∧
    ¬ Packed.tree.RemovesExactly (Packed.number 1999) :=
  ⟨packed_wellFormed, not_removesExactly_of_overrun packed_wellFormed (by decide +kernel)⟩

end BPlusTree
end Fdfs2qq.Bpt
