import Fdfs2qq.Bpt.Remove

/-! Where `remove` leaves the invariant. Each of these is decided by the blocks
as they are before the call: which leaf loses a record, and which nodes on the
way up lose an entry because everything below and beside them is at the
minimum. -/
namespace Fdfs2qq.Bpt

inductive Defect where
  /-- The deleted entry is the last one of a full node, and its right neighbour
  in the array is written. -/
  | overrun
  /-- The last entry of a node with a right neighbour was deleted, so its
  last-slot key is no longer its upper separator. -/
  | staleLastSlot
  /-- The root is dropped and its only child, an internal node, keeps the
  offset of the old root as its parent. -/
  | staleRootParent
  /-- An internal node borrows from the left and its first separator is
  overwritten. -/
  | lostSeparator
deriving DecidableEq

namespace BPlusTree

variable {F : Type} [BlockFile F]

def slotCount (α : Type) [NodeType α] (t : BPlusTree F) (off : Offset) : Nat :=
  match t.map α off with
  | .ok node => node.children.length
  | .error _ => 0

/-- What goes wrong when the node at `off` loses an entry, `lastGone` when this
is its last one. -/
def lossDefects (t : BPlusTree F) (off : Offset) (lastGone : Bool) : Nat → List Defect
  | 0 => []
  | fuel + 1 =>
    match t.map Index off with
    | .error _ => []
    | .ok node =>
      if lastGone ∧ node.children.length = bpOrder then [.overrun]
      else
        (if lastGone ∧ node.next ≠ 0 then [.staleLastSlot] else []) ++
          if off = t.info.rootOffset then
            if node.children.length = 2 ∧ t.info.height ≠ 1 then [.staleRootParent] else []
          else if bpOrder / 2 < node.children.length then []
          else
            match t.map Index node.parent with
            | .error _ => []
            | .ok parent =>
              let isFirst := parent.children.head?.map Index.child = some off
              let isLast := parent.children.getLast?.map Index.child = some off
              if ¬ isFirst ∧ bpOrder / 2 < t.slotCount Index node.prev then [.lostSeparator]
              else if ¬ isLast ∧ bpOrder / 2 < t.slotCount Index node.next then []
              else t.lossDefects node.parent isLast fuel

/-- A leaf with this many records has to borrow or merge when it loses one. -/
def leafRepairs (t : BPlusTree F) (leaf : Node Record) : Bool :=
  t.info.leafNodeNum ≠ 1 ∧ leaf.children.length ≤ bpOrder / 2

/-- No neighbour can lend. -/
def leafMerges (t : BPlusTree F) (leaf : Node Record) : Bool :=
  ¬ (leaf.prev ≠ 0 ∧ bpOrder / 2 < t.slotCount Record leaf.prev) ∧
    ¬ (leaf.next ≠ 0 ∧ bpOrder / 2 < t.slotCount Record leaf.next)

/-- What goes wrong in `remove(key)`. -/
def removeDefects (t : BPlusTree F) (key : Key) : List Defect :=
  match t.searchIndex key with
  | .error _ => []
  | .ok parentOff =>
    match t.searchLeafFrom parentOff key with
    | .error _ => []
    | .ok offset =>
      match t.map Record offset with
      | .error _ => []
      | .ok leaf =>
        if binarySearch leaf key ∧ t.leafRepairs leaf ∧ t.leafMerges leaf then
          t.lossDefects parentOff false t.climbFuel
        else []

end BPlusTree
end Fdfs2qq.Bpt
