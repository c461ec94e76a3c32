import Mathlib.Algebra.GroupWithZero.Nat
import Fdfs2qq.Bpt.Key

/-! The file of `bplus_tree` and the primitives that read and write it. Every
seek, read and write is taken to succeed; `fp`, `fp_level` and the path are left
out with them. The bytes of a block past its `n`-th slot are never read before
they are written, so a node is its header and the list of its live slots, and `n`
is the length of that list. The code is written over any kind of file; here a
file is the blocks that were written, each keyed by its offset. -/
namespace Fdfs2qq.Bpt

def bpOrder : Nat := 20

abbrev Offset := Nat

structure Meta where
  order : Nat
  valueSize : Nat
  keySize : Nat
  internalNodeNum : Nat
  leafNodeNum : Nat
  height : Nat
  slot : Offset
  rootOffset : Offset
  leafOffset : Offset
deriving DecidableEq

/-- `OFFSET_BLOCK`, which is `sizeof(meta_t)`. -/
def offsetBlock : Offset := 72

structure Index where
  key : Key
  child : Offset
deriving DecidableEq

structure Record where
  key : Key
  value : Value
deriving DecidableEq

/-- The fields before `n` and `children`, the same in both node types. -/
structure Header where
  parent : Offset
  next : Offset
  prev : Offset
deriving DecidableEq

/-- `internal_node_t` is `Node Index` and `leaf_node_t` is `Node Record`. -/
structure Node (α : Type) extends Header where
  children : List α
deriving DecidableEq

inductive Body where
  | internal (children : List Index)
  | leaf (children : List Record)
deriving DecidableEq

def Body.count : Body → Nat
  | .internal slots => slots.length
  | .leaf slots => slots.length

structure Block extends Header where
  body : Body
deriving DecidableEq

/-- Where the code leaves its defined behaviour: a failed `assert`, an access
outside a node's live slots or its array, a read of a block of another type or
never written, a climb along parent fields that does not end, and a log message
that asks for arguments it was not given. -/
inductive Fault where
  | assertion
  | bounds
  | block
  | diverged
  | format
deriving DecidableEq

/-- What the templates over the node type need to know of it: `size` is its
`sizeof` and `counted` picks the counter that `alloc` and `unalloc` move. -/
class NodeType (α : Type) where
  body : List α → Body
  children : Body → Option (List α)
  children_body : ∀ slots, children (body slots) = some slots
  size : Nat
  counted : (Nat → Nat) → Meta → Meta

instance : NodeType Index where
  body := .internal
  children
    | .internal slots => some slots
    | .leaf _ => none
  children_body _ := rfl
  size := 1472
  counted step m := { m with internalNodeNum := step m.internalNodeNum }

instance : NodeType Record where
  body := .leaf
  children
    | .internal _ => none
    | .leaf slots => some slots
  children_body _ := rfl
  size := 1392
  counted step m := { m with leafNodeNum := step m.leafNodeNum }

/-- `stored` is the meta block at `OFFSET_META`. -/
structure File where
  stored : Option Meta
  blocks : List (Offset × Block)
deriving DecidableEq

def readBlock (off : Offset) : List (Offset × Block) → Option Block
  | [] => none
  | (o, b) :: rest => if o = off then some b else readBlock off rest

def writeBlock (off : Offset) (block : Block) : List (Offset × Block) → List (Offset × Block)
  | [] => [(off, block)]
  | (o, b) :: rest => if o = off then (o, block) :: rest else (o, b) :: writeBlock off block rest

def File.get (f : File) (off : Offset) : Option Block := readBlock off f.blocks

def File.put (f : File) (off : Offset) (block : Block) : File :=
  { f with blocks := writeBlock off block f.blocks }

/-- What the primitives do to a file. -/
class BlockFile (F : Type) where
  /-- The node that is read at an offset. -/
  readNode : (α : Type) → [NodeType α] → F → Offset → Except Fault (Node α)
  writeNode : {α : Type} → [NodeType α] → F → Node α → Offset → F
  /-- A change of link fields, of which `SIZE_NO_CHILDREN` bytes are read and written. -/
  changeHeader : F → Offset → (Header → Header) → Except Fault F
  writeMeta : F → Meta → F
  /-- No more blocks than this are met without meeting one twice. -/
  bound : F → Nat

instance : BlockFile File where
  readNode _ _ f off :=
    match f.get off with
    | none => .error .block
    | some b =>
      match NodeType.children b.body with
      | none => .error .block
      | some slots => .ok ⟨b.toHeader, slots⟩
  writeNode f node off := f.put off ⟨node.toHeader, NodeType.body node.children⟩
  changeHeader f off change :=
    match f.get off with
    | none => .error .block
    | some b => .ok (f.put off { b with toHeader := change b.toHeader })
  writeMeta f m := { f with stored := some m }
  bound f := f.blocks.length

/-- The object `bplus_tree`; `info` is its member `meta`. -/
structure BPlusTree (F : Type := File) where
  info : Meta
  file : F
deriving DecidableEq

namespace BPlusTree

variable {F : Type} [BlockFile F]

def map (α : Type) [NodeType α] (t : BPlusTree F) (off : Offset) : Except Fault (Node α) :=
  BlockFile.readNode α t.file off

def unmap {α : Type} [NodeType α] (t : BPlusTree F) (node : Node α) (off : Offset) : BPlusTree F :=
  { t with file := BlockFile.writeNode t.file node off }

/-- `map`, a change of link fields and `unmap`, writing `SIZE_NO_CHILDREN` bytes. -/
def rewriteHeader (t : BPlusTree F) (off : Offset) (change : Header → Header) :
    Except Fault (BPlusTree F) :=
  (BlockFile.changeHeader t.file off change).map fun file => { t with file := file }

def unmapMeta (t : BPlusTree F) : BPlusTree F :=
  { t with file := BlockFile.writeMeta t.file t.info }

def alloc (α : Type) [NodeType α] (t : BPlusTree F) : Offset × BPlusTree F :=
  let slot := t.info.slot
  (slot, { t with info := { NodeType.counted α (· + 1) t.info with slot := slot + NodeType.size α } })

def unalloc (α : Type) [NodeType α] (t : BPlusTree F) : BPlusTree F :=
  { t with info := NodeType.counted α (· - 1) t.info }

/-- The neighbour's `prev` field in `node_create` and `node_remove`. -/
def relinkPrev (t : BPlusTree F) (neighbour prev : Offset) : Except Fault (BPlusTree F) :=
  if neighbour ≠ 0 then t.rewriteHeader neighbour fun h => { h with prev := prev } else .ok t

/-- `node_create(offset, node, next)`: the changed `node` and the fresh `next`,
whose slots the caller fills. -/
def nodeCreate {α : Type} [NodeType α] (t : BPlusTree F) (offset : Offset) (node : Node α) :
    Except Fault (BPlusTree F × Node α × Node α) := do
  let next : Node α := { parent := node.parent, next := node.next, prev := offset, children := [] }
  let (slot, t) := t.alloc α
  let node := { node with next := slot }
  let t ← t.relinkPrev next.next node.next
  return (t.unmapMeta, node, next)

/-- `node_remove(prev, node)`: the changed `prev`. -/
def nodeRemove {α : Type} [NodeType α] (t : BPlusTree F) (prev node : Node α) :
    Except Fault (BPlusTree F × Node α) := do
  let t := t.unalloc α
  let prev := { prev with next := node.next }
  let t ← t.relinkPrev node.next node.prev
  return (t.unmapMeta, prev)

def resetIndexChildrenParent (t : BPlusTree F) (slots : List Index) (parent : Offset) :
    Except Fault (BPlusTree F) :=
  match slots with
  | [] => .ok t
  | slot :: rest => do
    let t ← t.rewriteHeader slot.child fun h => { h with parent := parent }
    t.resetIndexChildrenParent rest parent

/-- `init_from_empty()`, on a file that was truncated. -/
def initFromEmptyOn (blank : F) : BPlusTree F :=
  let m : Meta :=
    { order := bpOrder, valueSize := 4, keySize := 64, internalNodeNum := 0, leafNodeNum := 0,
      height := 1, slot := offsetBlock, rootOffset := 0, leafOffset := 0 }
  let t : BPlusTree F := { info := m, file := blank }
  let (rootOffset, t) := t.alloc Index
  let t := { t with info := { t.info with rootOffset := rootOffset } }
  let leaf : Node Record := { parent := t.info.rootOffset, next := 0, prev := 0, children := [] }
  let (leafOffset, t) := t.alloc Record
  let root : Node Index :=
    { parent := 0, next := 0, prev := 0, children := [⟨Key.empty, leafOffset⟩] }
  let t := { t with info := { t.info with leafOffset := leafOffset } }
  ((t.unmapMeta).unmap root t.info.rootOffset).unmap leaf leafOffset

def initFromEmpty : BPlusTree := initFromEmptyOn { stored := none, blocks := [] }

end BPlusTree
end Fdfs2qq.Bpt
