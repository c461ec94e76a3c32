import Fdfs2qq.Bpt.Store
import Fdfs2qq.Lib.LinkedRow
import Fdfs2qq.Lib.KeyedList
import Fdfs2qq.Lib.Tiling

/-! What a correct tree is, read off the block file from the root down. Nothing
here refers to how the operations work. -/
namespace Fdfs2qq.Bpt
open Lib

/-- A node as the nodes above it describe it: whose child it is and the
separators before and after it, where there are any. -/
structure Place where
  off : Offset
  parent : Offset
  lo : Option Key
  hi : Option Key
deriving DecidableEq

/-- Places of consecutive nodes between `lo` and `hi`. The key given with a node
is the separator after it, but for the last node. -/
def placesBetween (hi : Option Key) : Option Key → List ((Offset × Offset) × Key) → List Place
  | _, [] => []
  | lo, [(id, _)] => [⟨id.1, id.2, lo, hi⟩]
  | lo, (id, key) :: node :: rest =>
    ⟨id.1, id.2, lo, some key⟩ :: placesBetween hi (some key) (node :: rest)

inductive Kind where
  | internal
  | leaf
deriving DecidableEq

def Kind.size : Kind → Nat
  | .internal => NodeType.size Index
  | .leaf => NodeType.size Record

def Body.kind : Body → Kind
  | .internal _ => .internal
  | .leaf _ => .leaf

namespace File

def childPlaces (f : File) (p : Place) : List Place :=
  match f.get p.off with
  | some ⟨_, .internal slots⟩ =>
    placesBetween p.hi p.lo (slots.map fun slot => ((slot.child, p.off), slot.key))
  | _ => []

def leafRecords (f : File) (off : Offset) : List Record :=
  match f.get off with
  | some ⟨_, .leaf records⟩ => records
  | _ => []

def HasLinks (f : File) (off next prev : Offset) : Prop :=
  ∃ b ∈ f.get off, b.next = next ∧ b.prev = prev

def DoublyLinked (f : File) (offs : List Offset) : Prop := Linked id f.HasLinks 0 0 offs

end File

def Place.Inside (p : Place) (k : Key) : Prop := (∀ l ∈ p.lo, l < k) ∧ ∀ h ∈ p.hi, k < h

/-- Where a record may be. -/
def Place.Takes (p : Place) (k : Key) : Prop := (∀ l ∈ p.lo, l ≤ k) ∧ ∀ h ∈ p.hi, k < h

namespace BPlusTree

def row (t : BPlusTree) : Nat → List Place
  | 0 => [⟨t.info.rootOffset, 0, none, none⟩]
  | d + 1 => (t.row d).flatMap t.file.childPlaces

def offsetsTo (t : BPlusTree) (d : Nat) : List Offset :=
  (List.range (d + 1)).flatMap fun i => (t.row i).map Place.off

def records (t : BPlusTree) : List Record :=
  (t.row t.info.height).flatMap fun p => t.file.leafRecords p.off

/-- An internal node is where it should be. The keys of all slots but the last
are its separators. Off the rightmost path the last key is the separator after
the node. -/
def InternalAt (t : BPlusTree) (d : Nat) (p : Place) : Prop :=
  ∃ node ∈ (t.map Index p.off).toOption,
    node.parent = p.parent ∧
      (node.children.dropLast.map Index.key).Pairwise (· < ·) ∧
      (∀ k ∈ node.children.dropLast.map Index.key, p.Inside k) ∧
      (∀ h ∈ p.hi, node.children.getLast?.map Index.key = some h) ∧
      node.children.length ≤ bpOrder ∧
      if d = 0 then 2 ≤ node.children.length ∨ node.children.length = 1 ∧ t.info.leafNodeNum = 1
      else bpOrder / 2 ≤ node.children.length

def Written (t : BPlusTree) (off : Offset) (kind : Kind) : Prop :=
  ∃ b, t.file.get off = some b ∧ b.body.kind = kind

/-- The blocks of the file are the pieces of the row, which fills it from the meta
block up to where the next block will go. -/
structure Laid (t : BPlusTree) (row : List (Offset × Kind)) : Prop where
  tiles : Tiles Kind.size offsetBlock row t.info.slot
  blocks : ∀ off kind, (off, kind) ∈ row ↔ t.Written off kind

def EndToEnd (t : BPlusTree) : Prop := ∃ row, t.Laid row

def LeafAt (t : BPlusTree) (p : Place) : Prop :=
  ∃ node ∈ (t.map Record p.off).toOption,
    node.parent = p.parent ∧ SortedBy Record.key node.children ∧
      (∀ r ∈ node.children, p.Takes r.key) ∧ node.children.length ≤ bpOrder ∧
      (t.info.leafNodeNum = 1 ∨ bpOrder / 2 ≤ node.children.length)

/-- The tree is balanced, ordered, half full, linked and accounted for. Its
blocks are distinct and allocated, and those of the file lie end to end. -/
structure WellFormed (t : BPlusTree) : Prop where
  order : t.info.order = bpOrder
  tall : 0 < t.info.height
  internal : ∀ d < t.info.height, ∀ p ∈ t.row d, t.InternalAt d p
  leaf : ∀ p ∈ t.row t.info.height, t.LeafAt p
  linked : ∀ d < t.info.height + 1, t.file.DoublyLinked ((t.row d).map Place.off)
  internalNodeNum : t.info.internalNodeNum =
    ((List.range t.info.height).map fun d => (t.row d).length).sum
  leafNodeNum : t.info.leafNodeNum = (t.row t.info.height).length
  leafOffset : some t.info.leafOffset = (t.row t.info.height).head?.map Place.off
  distinct : (t.offsetsTo t.info.height).Nodup
  allocated : ∀ o ∈ t.offsetsTo t.info.height, 0 < o ∧ o < t.info.slot
  laid : t.EndToEnd

end BPlusTree

/-- The blocks that lie end to end from the meta block up to `slot`. -/
def File.walk (f : File) (slot : Offset) : List (Offset × Kind) :=
  Lib.walk Kind.size (fun off => (f.get off).map fun b => b.body.kind) (slot + 1) offsetBlock

theorem Kind.size_pos : ∀ kind : Kind, 0 < kind.size
  | .internal | .leaf => by decide

theorem mem_of_readBlock {blocks : List (Offset × Block)} (found : readBlock off blocks = some b) :
    off ∈ blocks.map Prod.fst := by
  induction blocks with
  | nil => cases found
  | cons first rest ih =>
    rw [readBlock] at found
    split at found
    next same => exact same ▸ List.mem_cons_self
    next => exact List.mem_cons_of_mem _ (ih found)

theorem exists_readBlock {blocks : List (Offset × Block)} (mem : off ∈ blocks.map Prod.fst) :
    ∃ b, readBlock off blocks = some b := by
  induction blocks with
  | nil => cases mem
  | cons first rest ih =>
    rw [readBlock]
    split
    next => exact ⟨_, rfl⟩
    next other => exact ih ((List.mem_cons.mp mem).resolve_left fun same => other same.symm)

theorem File.written_of_walk {f : File} (mem : (o, kind) ∈ f.walk slot) :
    ∃ b, f.get o = some b ∧ b.body.kind = kind :=
  Option.map_eq_some_iff.mp (look_of_mem_walk mem)

namespace BPlusTree

variable {t : BPlusTree} {row : List (Offset × Kind)}

theorem Laid.walk_eq (laid : t.Laid row) : t.file.walk t.info.slot = row := by
  refine laid.tiles.walk_eq Kind.size_pos ?_ ?_ (Nat.lt_succ_of_le (Nat.sub_le ..))
  · cases found : t.file.get t.info.slot with
    | none => rfl
    | some b =>
      have bounds := (laid.tiles.bounds ((laid.blocks _ _).mpr ⟨b, found, rfl⟩)).2
      exact absurd b.body.kind.size_pos (Nat.not_lt.mpr (by omega))
  · intro piece mem
    exact Option.map_eq_some_iff.mpr ((laid.blocks _ _).mp mem)

theorem endToEnd_iff : t.EndToEnd ↔
    Tiles Kind.size offsetBlock (t.file.walk t.info.slot) t.info.slot ∧
      ∀ off ∈ t.file.blocks.map Prod.fst, off ∈ (t.file.walk t.info.slot).map Prod.fst := by
  constructor
  · rintro ⟨row, laid⟩
    rw [laid.walk_eq]
    refine ⟨laid.tiles, fun off mem => ?_⟩
    obtain ⟨b, found⟩ := exists_readBlock mem
    exact List.mem_map_of_mem ((laid.blocks off b.body.kind).mpr ⟨b, found, rfl⟩)
  · rintro ⟨tiles, all⟩
    refine ⟨_, tiles, fun off kind => ⟨File.written_of_walk, ?_⟩⟩
    rintro ⟨b, found, rfl⟩
    obtain ⟨⟨o, kind⟩, mem, rfl⟩ := List.mem_map.mp (all off (mem_of_readBlock found))
    obtain ⟨c, found', rfl⟩ := File.written_of_walk mem
    cases Option.some.inj (found.symm.trans found')
    exact mem

instance (f : File) (off next prev : Offset) : Decidable (f.HasLinks off next prev) :=
  inferInstanceAs (Decidable (∃ b ∈ f.get off, b.next = next ∧ b.prev = prev))

instance (f : File) (offs : List Offset) : Decidable (f.DoublyLinked offs) :=
  inferInstanceAs (Decidable (Linked id f.HasLinks 0 0 offs))

instance (p : Place) (k : Key) : Decidable (p.Inside k) :=
  inferInstanceAs (Decidable ((∀ l ∈ p.lo, l < k) ∧ ∀ h ∈ p.hi, k < h))

instance (p : Place) (k : Key) : Decidable (p.Takes k) :=
  inferInstanceAs (Decidable ((∀ l ∈ p.lo, l ≤ k) ∧ ∀ h ∈ p.hi, k < h))

instance (t : BPlusTree) (d : Nat) (p : Place) : Decidable (t.InternalAt d p) :=
  inferInstanceAs (Decidable (∃ node ∈ (t.map Index p.off).toOption, _))

instance (t : BPlusTree) (p : Place) : Decidable (t.LeafAt p) :=
  inferInstanceAs (Decidable (∃ node ∈ (t.map Record p.off).toOption, _))

instance (t : BPlusTree) : Decidable t.EndToEnd := decidable_of_iff _ endToEnd_iff.symm

instance (t : BPlusTree) : Decidable t.WellFormed :=
  decidable_of_iff
    (t.info.order = bpOrder ∧ 0 < t.info.height ∧
      (∀ d < t.info.height, ∀ p ∈ t.row d, t.InternalAt d p) ∧
      (∀ p ∈ t.row t.info.height, t.LeafAt p) ∧
      (∀ d < t.info.height + 1, t.file.DoublyLinked ((t.row d).map Place.off)) ∧
      t.info.internalNodeNum = ((List.range t.info.height).map fun d => (t.row d).length).sum ∧
      t.info.leafNodeNum = (t.row t.info.height).length ∧
      some t.info.leafOffset = (t.row t.info.height).head?.map Place.off ∧
      (t.offsetsTo t.info.height).Nodup ∧
      (∀ o ∈ t.offsetsTo t.info.height, 0 < o ∧ o < t.info.slot) ∧ t.EndToEnd)
    ⟨fun ⟨order, tall, internal, leaf, linked, nodes, leaves, first, distinct, allocated, laid⟩ =>
      ⟨order, tall, internal, leaf, linked, nodes, leaves, first, distinct, allocated, laid⟩,
    fun ⟨order, tall, internal, leaf, linked, nodes, leaves, first, distinct, allocated, laid⟩ =>
      ⟨order, tall, internal, leaf, linked, nodes, leaves, first, distinct, allocated, laid⟩⟩

end BPlusTree

namespace Packed

/-- A key of two bytes for each number below 10000. -/
def number (i : Nat) : Key where
  bytes := [UInt8.ofNat (i / 100 % 100 + 1), UInt8.ofNat (i % 100 + 1)]
  nulFree := by
    have small : ∀ n < 100, UInt8.ofNat (n + 1) ≠ 0 := by decide
    intro b mem
    simp only [List.mem_cons, List.not_mem_nil, or_false] at mem
    rcases mem with rfl | rfl
    · exact small _ (Nat.mod_lt _ (by decide))
    · exact small _ (Nat.mod_lt _ (by decide))
  fits := by simp

/-- Where the internal nodes and the leaves lie, behind the root. -/
def innerOff (i : Nat) : Offset := 1544 + 1472 * i

def leafOff (i : Nat) : Offset := 30984 + 1392 * i

def leaf (i : Nat) : Block where
  parent := innerOff (i / 10)
  next := if i = 199 then 0 else leafOff (i + 1)
  prev := if i = 0 then 0 else leafOff (i - 1)
  body := .leaf ((List.range 10).map fun j => ⟨number (10 * i + j), 0⟩)

def inner (i : Nat) : Block where
  parent := 72
  next := if i = 19 then 0 else innerOff (i + 1)
  prev := if i = 0 then 0 else innerOff (i - 1)
  body := .internal ((List.range 10).map fun j => ⟨number (100 * i + 10 * (j + 1)), leafOff (10 * i + j)⟩)

def root : Block where
  parent := 0
  next := 0
  prev := 0
  body := .internal ((List.range 20).map fun i => ⟨number (100 * (i + 1)), innerOff i⟩)

def info : Meta where
  order := bpOrder
  valueSize := 4
  keySize := 64
  internalNodeNum := 21
  leafNodeNum := 200
  height := 2
  slot := 309384
  rootOffset := 72
  leafOffset := leafOff 0

/-- Twenty internal nodes with ten leaves each, ten records in every leaf. -/
def tree : BPlusTree where
  info := info
  file :=
    { stored := some info
      blocks := (72, root) :: ((List.range 20).map fun i => (innerOff i, inner i)) ++
        (List.range 200).map fun i => (leafOff i, leaf i) }

end Packed

namespace BPlusTree

theorem packed_wellFormed : Packed.tree.WellFormed := by decide +kernel

end BPlusTree
end Fdfs2qq.Bpt
