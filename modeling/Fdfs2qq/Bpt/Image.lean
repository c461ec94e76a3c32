import Fdfs2qq.Bpt.Calls
import Fdfs2qq.Bpt.Layout

/-! The file as the code has it: bytes, of which a node is read and written at any
offset, whatever was written there before. -/
namespace Fdfs2qq.Bpt

/-- Fields of 8 bytes, one after the other. -/
def fieldBytes (fields : List Nat) : Nat := fields.foldr (fun n rest => n % 2 ^ 64 + 2 ^ 64 * rest) 0

def Meta.fields (m : Meta) : List Nat :=
  [m.order, m.valueSize, m.keySize, m.internalNodeNum, m.leafNodeNum, m.height, m.slot, m.rootOffset, m.leafOffset]

def Meta.Fits (m : Meta) : Prop := ∀ n ∈ m.fields, n < 2 ^ 64

instance (m : Meta) : Decidable m.Fits := inferInstanceAs (Decidable (∀ n ∈ m.fields, n < 2 ^ 64))

def Header.bytes (h : Header) (n : Nat) : Nat := fieldBytes [h.parent, h.next, h.prev, n]

def Index.bytes (slot : Index) : Nat := littleEndian slot.key.bytes + 2 ^ (8 * 64) * (slot.child % 2 ^ 64)

def Record.bytes (slot : Record) : Nat := littleEndian slot.key.bytes + 2 ^ (8 * 64) * slot.value.toBitVec.toNat

/-- Slots over these bytes: a slot that stays keeps what is behind the NUL of its key. -/
def slotsOver (decode : Nat → α) (encode : α → Nat) (width : Nat) : Nat → List α → Nat
  | _, [] => 0
  | old, slot :: rest =>
    let was := old % 2 ^ (8 * width)
    (if terminated was ∧ encode (decode was) = encode slot then was else encode slot) +
      2 ^ (8 * width) * slotsOver decode encode width (old / 2 ^ (8 * width)) rest

def Body.bytesOver (old : Nat) : Body → Nat
  | .internal slots => slotsOver indexOf Index.bytes Kind.internal.slotSize old slots
  | .leaf slots => slotsOver recordOf Record.bytes Kind.leaf.slotSize old slots

/-- The bytes of the file. -/
structure Image where
  /-- As one number, the lowest first. -/
  bytes : Nat
  length : Nat
  /-- A node was written over the meta block, or a number of more than 64 bits into it. -/
  spoilt : Bool
deriving DecidableEq

namespace Image

/-- `fread` of this many bytes. What a read past the end leaves in the buffer is not followed. -/
def read (f : Image) (off len : Nat) : Except Fault Nat :=
  if off + len ≤ f.length then .ok (bytesAt f.bytes off len) else .error .block

def write (f : Image) (off len new : Nat) : Image where
  bytes := f.bytes % 2 ^ (8 * off) +
    2 ^ (8 * off) * (new % 2 ^ (8 * len) + 2 ^ (8 * len) * (f.bytes / 2 ^ (8 * (off + len))))
  length := max f.length (off + len)
  spoilt := f.spoilt || off < offsetBlock

end Image

/-- A node has at most `BP_ORDER` slots here, and a NUL in the key of each of them. Of a
node that is written only the slots in use are, and the others keep the bytes of the file. -/
instance : BlockFile Image where
  readNode α _ f off := do
    let bytes ← f.read off (NodeType.size α)
    let kind := (NodeType.body ([] : List α)).kind
    let n := (headerOf bytes).2
    if n ≤ bpOrder ∧ (slotsAt kind.slotSize n (bytes / 2 ^ (8 * sizeNoChildren))).all terminated then
      let block := blockOf kind bytes
      match NodeType.children block.body with
      | some slots => .ok ⟨block.toHeader, slots⟩
      | none => .error .block
    else .error .bounds
  writeNode {α} _ f node off :=
    let body := NodeType.body node.children
    let room := body.kind.slotSize * body.count
    let slots := body.bytesOver (bytesAt f.bytes (off + sizeNoChildren) room)
    let written := f.write off (sizeNoChildren + room)
      (node.toHeader.bytes body.count + 2 ^ (8 * sizeNoChildren) * slots)
    { written with length := max written.length (off + NodeType.size α) }
  changeHeader f off change := do
    let bytes ← f.read off sizeNoChildren
    let (header, n) := headerOf bytes
    .ok (f.write off sizeNoChildren ((change header).bytes n))
  writeMeta f m := { f.write 0 offsetBlock (fieldBytes m.fields) with spoilt := f.spoilt || ¬ m.Fits }
  bound f := f.length

def Image.stored (f : Image) : Option Meta :=
  if offsetBlock ≤ f.length then some (metaOf (bytesAt f.bytes 0 offsetBlock)) else none

/-- `bplus_tree(p, force_empty)` on a file that was left with these contents. -/
def BPlusTree.create (f : Image) (forceEmpty : Bool) : BPlusTree Image :=
  match f.stored, forceEmpty with
  | some m, false => { info := m, file := { f with spoilt := false } }
  | _, _ => initFromEmptyOn { bytes := 0, length := 0, spoilt := false }

end Fdfs2qq.Bpt
