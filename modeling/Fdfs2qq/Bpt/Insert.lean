import Fdfs2qq.Bpt.Search

/-! `update` and `insert`, with the splits that climb along parent fields. -/
namespace Fdfs2qq.Bpt

/-- `std::copy_backward(where, end, end + 1)` and the assignment to `*where`,
inside the array of `BP_ORDER` slots. -/
def openSlot (slots : List α) (i : Nat) (slot : α) : Except Fault (List α) :=
  if slots.length < bpOrder then .ok (slots.insertIdx i slot) else .error .bounds

namespace BPlusTree

variable {F : Type} [BlockFile F]

def update (t : BPlusTree F) (key : Key) (value : Value) : Except Fault (Int × BPlusTree F) := do
  let offset ← t.searchLeaf key
  let leaf ← t.map Record offset
  let i := findRecord leaf key
  match leaf.children[i]? with
  | some record =>
    if keycmp key record.key = 0 then
      return (0, t.unmap { leaf with children := leaf.children.set i { record with value := value } }
        offset)
    else return (1, t)
  | none => return (-1, t)

def insertRecordNoSplit (leaf : Node Record) (key : Key) (value : Value) :
    Except Fault (Node Record) := do
  let i := upperBound (leaf.children.map Record.key) key
  return { leaf with children := ← openSlot leaf.children i ⟨key, value⟩ }

/-- `insert_key_to_index_no_split(node, key, value)`: the new slot takes the
child of the slot it displaces, which takes the new child. -/
def insertKeyToIndexNoSplit (node : Node Index) (key : Key) (value : Offset) :
    Except Fault (Node Index) := do
  let i := findIndex node key
  let displaced ← slotAt node.children i
  let slots ← openSlot node.children i ⟨key, displaced.child⟩
  return { node with children := slots.modify (i + 1) fun slot => { slot with child := value } }

/-- A split point and whether the new key goes right of it, in a full leaf. -/
def leafSplitPoint (leaf : Node Record) (key : Key) : Except Fault (Nat × Bool) := do
  let point := leaf.children.length / 2
  let middle ← slotAt leaf.children point
  let placeRight : Bool := 0 < keycmp key middle.key
  return (if placeRight then point + 1 else point, placeRight)

/-- The two halves with the new record in one of them, for a full leaf. -/
def splitLeaf (leaf newLeaf : Node Record) (key : Key) (value : Value) :
    Except Fault (Node Record × Node Record) := do
  let (point, placeRight) ← leafSplitPoint leaf key
  let newLeaf := { newLeaf with children := leaf.children.drop point }
  let leaf := { leaf with children := leaf.children.take point }
  if placeRight then return (leaf, ← insertRecordNoSplit newLeaf key value)
  else return (← insertRecordNoSplit leaf key value, newLeaf)

/-- The split point in a full internal node, stepping back where the new key itself
would be the middle key. -/
def indexSplitPoint (node : Node Index) (key : Key) : Except Fault (Nat × Bool) := do
  let point := (node.children.length - 1) / 2
  let middle ← slotAt node.children point
  let placeRight : Bool := 0 < keycmp key middle.key
  if placeRight then
    let after ← slotAt node.children (point + 1)
    return (if keycmp key after.key < 0 then point else point + 1, true)
  else return (point, false)

/-- The branch of `insert_key_to_index` for `offset == 0`. -/
def createRoot (t : BPlusTree F) (key : Key) (old after : Offset) : Except Fault (BPlusTree F) := do
  let (rootOffset, t) := t.alloc Index
  let t := { t with
    info := { t.info with rootOffset := rootOffset, height := t.info.height + 1 } }
  let root : Node Index :=
    { parent := 0, next := 0, prev := 0, children := [⟨key, old⟩, ⟨Key.empty, after⟩] }
  let t := t.unmapMeta.unmap root t.info.rootOffset
  t.resetIndexChildrenParent root.children t.info.rootOffset

/-- The middle key, the two halves with the new slot in one of them, for a full node. -/
def splitIndex (node newNode : Node Index) (key : Key) (after : Offset) :
    Except Fault (Key × Node Index × Node Index) := do
  let (point, placeRight) ← indexSplitPoint node key
  let middle ← slotAt node.children point
  let newNode := { newNode with children := node.children.drop (point + 1) }
  let node := { node with children := node.children.take (point + 1) }
  if placeRight then return (middle.key, node, ← insertKeyToIndexNoSplit newNode key after)
  else return (middle.key, ← insertKeyToIndexNoSplit node key after, newNode)

/-- `insert_key_to_index(offset, key, old, after)`, for at most `fuel` nodes. -/
def insertKeyToIndex (t : BPlusTree F) (offset : Offset) (key : Key) (old after : Offset) :
    Nat → Except Fault (BPlusTree F)
  | 0 => if offset = 0 then t.createRoot key old after else .error .diverged
  | fuel + 1 =>
    if offset = 0 then t.createRoot key old after else do
      let node ← t.map Index offset
      if node.children.length ≤ t.info.order then
        if node.children.length = t.info.order then do
          let (t, node, newNode) ← t.nodeCreate offset node
          let (middleKey, node, newNode) ← splitIndex node newNode key after
          let t := (t.unmap node offset).unmap newNode node.next
          let t ← t.resetIndexChildrenParent newNode.children node.next
          t.insertKeyToIndex node.parent middleKey offset node.next fuel
        else
          let node ← insertKeyToIndexNoSplit node key after
          return t.unmap node offset
      else .error .assertion

/-- More climbing steps than there are blocks repeat a block. -/
def climbFuel (t : BPlusTree F) : Nat := BlockFile.bound t.file + 1

def insert (t : BPlusTree F) (key : Key) (value : Value) : Except Fault (Int × BPlusTree F) := do
  let parent ← t.searchIndex key
  let offset ← t.searchLeafFrom parent key
  let leaf ← t.map Record offset
  if binarySearch leaf key then return (1, t)
  else if leaf.children.length = t.info.order then
    let (t, leaf, newLeaf) ← t.nodeCreate offset leaf
    let (leaf, newLeaf) ← splitLeaf leaf newLeaf key value
    let t := (t.unmap leaf offset).unmap newLeaf leaf.next
    let first ← slotAt newLeaf.children 0
    let t ← t.insertKeyToIndex parent first.key offset leaf.next t.climbFuel
    return (0, t)
  else
    let leaf ← insertRecordNoSplit leaf key value
    return (0, t.unmap leaf offset)

end BPlusTree
end Fdfs2qq.Bpt
