import Fdfs2qq.Bpt.Insert

/-! `remove`: leaf repair by borrowing or merging, and the loss of an index
entry that climbs along parent fields. -/
namespace Fdfs2qq.Bpt

/-- `assert(w != end(node))`, and the slot of `w`. -/
def assertSlot (slots : List α) (w : Nat) : Except Fault α :=
  match slots[w]? with
  | some slot => .ok slot
  | none => .error .assertion

/-- `std::copy(begin(right), end(right), end(left))` inside the array of `left`. -/
def appendSlots (left right : List α) : Except Fault (List α) :=
  if left.length + right.length ≤ bpOrder then .ok (left ++ right) else .error .bounds

/-- `(to_delete + 1)->child = to_delete->child` and the shift left over `to_delete`.
The first write goes to a dead slot when the last entry is deleted, and outside
the array when the node is also full. -/
def deleteEntry (slots : List Index) (i : Nat) : Except Fault (List Index) := do
  let deleted ← slotAt slots i
  if i + 1 < bpOrder then
    return (slots.modify (i + 1) fun slot => { slot with child := deleted.child }).eraseIdx i
  else .error .bounds

namespace BPlusTree

variable {F : Type} [BlockFile F]

/-- `change_parent_child(parent, o, n)`, for at most `fuel` nodes. -/
def changeParentChild (t : BPlusTree F) (parent : Offset) (o n : Key) :
    Nat → Except Fault (BPlusTree F)
  | 0 => .error .diverged
  | fuel + 1 => do
    let node ← t.map Index parent
    let w := findIndex node o
    let slot ← assertSlot node.children w
    let t := t.unmap { node with children := node.children.set w { slot with key := n } } parent
    if w = node.children.length - 1 then t.changeParentChild node.parent o n fuel else return t

/-- `borrow_key(from_right, leaf_node_t &borrower)`: whether a record was
borrowed, and the changed borrower, which the caller writes. -/
def borrowRecord (t : BPlusTree F) (fromRight : Bool) (borrower : Node Record) :
    Except Fault (Bool × BPlusTree F × Node Record) := do
  let lenderOff := if fromRight then borrower.next else borrower.prev
  let lender ← t.map Record lenderOff
  if t.info.order / 2 ≤ lender.children.length then
    if lender.children.length ≠ t.info.order / 2 then
      let lend := if fromRight then 0 else lender.children.length - 1
      let put := if fromRight then borrower.children.length else 0
      let lent ← slotAt lender.children lend
      let t ←
        if fromRight then do
          let first ← slotAt borrower.children 0
          let second ← slotAt lender.children 1
          t.changeParentChild borrower.parent first.key second.key t.climbFuel
        else do
          let first ← slotAt lender.children 0
          t.changeParentChild lender.parent first.key lent.key t.climbFuel
      let borrower := { borrower with children := ← openSlot borrower.children put lent }
      let lender := { lender with children := lender.children.eraseIdx lend }
      return (true, t.unmap lender lenderOff, borrower)
    else return (false, t, borrower)
  else .error .assertion

def borrowIndex (t : BPlusTree F) (fromRight : Bool) (borrower : Node Index) (offset : Offset) :
    Except Fault (Bool × BPlusTree F × Node Index) := do
  let lenderOff := if fromRight then borrower.next else borrower.prev
  let lender ← t.map Index lenderOff
  if t.info.order / 2 ≤ lender.children.length then
    if lender.children.length ≠ t.info.order / 2 then
      let lend := if fromRight then 0 else lender.children.length - 1
      let put := if fromRight then borrower.children.length else 0
      let lent ← slotAt lender.children lend
      let (t, borrower) ←
        if fromRight then do
          let parent ← t.map Index borrower.parent
          let last ← slotAt borrower.children (borrower.children.length - 1)
          let w := lowerBound (parent.children.dropLast.map Index.key) last.key
          let slot ← slotAt parent.children w
          let parent := { parent with children := parent.children.set w { slot with key := lent.key } }
          pure (t.unmap parent borrower.parent, borrower)
        else do
          let parent ← t.map Index lender.parent
          let first ← slotAt lender.children 0
          let w := findIndex parent first.key
          let slot ← slotAt parent.children w
          -- The separator overwrites the first key of the borrower before the shift.
          let borrower := { borrower with
            children := borrower.children.modify 0 fun s => { s with key := slot.key } }
          let beforeLent ← slotAt lender.children (lend - 1)
          let parent := { parent with
            children := parent.children.set w { slot with key := beforeLent.key } }
          pure (t.unmap parent lender.parent, borrower)
      let borrower := { borrower with children := ← openSlot borrower.children put lent }
      let t ← t.resetIndexChildrenParent [lent] offset
      let lender := { lender with children := lender.children.eraseIdx lend }
      return (true, t.unmap lender lenderOff, borrower)
    else return (false, t, borrower)
  else .error .assertion

def mergeLeafs (left right : Node Record) : Except Fault (Node Record) := do
  return { left with children := ← appendSlots left.children right.children }

/-- `merge_keys(where, node, next)`; `where` is not used. -/
def mergeKeys (t : BPlusTree F) (node next : Node Index) :
    Except Fault (BPlusTree F × Node Index) := do
  let node := { node with children := ← appendSlots node.children next.children }
  t.nodeRemove node next

/-- The borrowing attempts of `remove_from_index`, with the first and the last
child of the parent. -/
def borrowFromSiblings (t : BPlusTree F) (node : Node Index) (offset first last : Offset) :
    Except Fault (Bool × BPlusTree F × Node Index) := do
  let (borrowed, t, node) ←
    if offset ≠ first then t.borrowIndex false node offset else pure (false, t, node)
  if ¬ borrowed ∧ offset ≠ last then t.borrowIndex true node offset
  else return (borrowed, t, node)

def mergeIndex (t : BPlusTree F) (node : Node Index) (offset last : Offset) :
    Except Fault (BPlusTree F) := do
  if node.next ≠ 0 ∨ node.prev ≠ 0 then
    if offset = last then
      if node.prev ≠ 0 then
        let prev ← t.map Index node.prev
        let t ← t.resetIndexChildrenParent node.children node.prev
        let (t, prev) ← t.mergeKeys prev node
        return t.unmap prev node.prev
      else .error .assertion
    else if node.next ≠ 0 then
      let next ← t.map Index node.next
      let t ← t.resetIndexChildrenParent next.children offset
      let (t, node) ← t.mergeKeys node next
      return t.unmap node offset
    else .error .assertion
  else .error .assertion

/-- `remove_from_index(offset, node, key)`, for at most `fuel` nodes. -/
def removeFromIndex (t : BPlusTree F) (offset : Offset) (node : Node Index) (key : Key) :
    Nat → Except Fault (BPlusTree F)
  | 0 => .error .diverged
  | fuel + 1 => do
    let minN := if t.info.rootOffset = offset then 1 else t.info.order / 2
    if minN ≤ node.children.length ∧ node.children.length ≤ t.info.order then
      let indexKey := (← slotAt node.children 0).key
      let node := { node with children := ← deleteEntry node.children (findIndex node key) }
      if node.children.length = 1 ∧ t.info.rootOffset = offset ∧ t.info.internalNodeNum ≠ 1 then
        let only ← slotAt node.children 0
        let t := t.unalloc Index
        return unmapMeta { t with
          info := { t.info with height := t.info.height - 1, rootOffset := only.child } }
      else if node.children.length < minN then
        let parent ← t.map Index node.parent
        let first ← slotAt parent.children 0
        let last ← slotAt parent.children (parent.children.length - 1)
        let (borrowed, t, node) ← t.borrowFromSiblings node offset first.child last.child
        if borrowed then return t.unmap node offset
        else
          let t ← t.mergeIndex node offset last.child
          t.removeFromIndex node.parent parent indexKey fuel
      else return t.unmap node offset
    else .error .assertion

def borrowFromNeighbours (t : BPlusTree F) (leaf : Node Record) :
    Except Fault (Bool × BPlusTree F × Node Record) := do
  let (borrowed, t, leaf) ←
    if leaf.prev ≠ 0 then t.borrowRecord false leaf else pure (false, t, leaf)
  if ¬ borrowed ∧ leaf.next ≠ 0 then t.borrowRecord true leaf
  else return (borrowed, t, leaf)

/-- The merge of a leaf with its left or right neighbour, and the first key of
the left one of the two. -/
def mergeLeaf (t : BPlusTree F) (leaf : Node Record) (offset : Offset) (isLast : Bool) :
    Except Fault (BPlusTree F × Key) := do
  if leaf.next ≠ 0 ∨ leaf.prev ≠ 0 then
    if isLast then
      if leaf.prev ≠ 0 then
        let prev ← t.map Record leaf.prev
        let first ← slotAt prev.children 0
        let prev ← mergeLeafs prev leaf
        let (t, prev) ← t.nodeRemove prev leaf
        return (t.unmap prev leaf.prev, first.key)
      else .error .assertion
    else if leaf.next ≠ 0 then
      let next ← t.map Record leaf.next
      let first ← slotAt leaf.children 0
      let leaf ← mergeLeafs leaf next
      let (t, leaf) ← t.nodeRemove leaf next
      return (t.unmap leaf offset, first.key)
    else .error .assertion
  else .error .assertion

def remove (t : BPlusTree F) (key : Key) : Except Fault (Int × BPlusTree F) := do
  let parentOff ← t.searchIndex key
  let parent ← t.map Index parentOff
  let i := findIndex parent key
  let offset := (← slotAt parent.children i).child
  let leaf ← t.map Record offset
  if binarySearch leaf key then
    let minN := if t.info.leafNodeNum = 1 then 0 else t.info.order / 2
    if minN ≤ leaf.children.length ∧ leaf.children.length ≤ t.info.order then
      let leaf := { leaf with children := leaf.children.eraseIdx (findRecord leaf key) }
      if leaf.children.length < minN then
        let (borrowed, t, leaf) ← t.borrowFromNeighbours leaf
        if borrowed then return (0, t.unmap leaf offset)
        else
          let (t, indexKey) ← t.mergeLeaf leaf offset (i = parent.children.length - 1)
          return (0, ← t.removeFromIndex parentOff parent indexKey t.climbFuel)
      else return (0, t.unmap leaf offset)
    else .error .assertion
  else return (-1, t)

end BPlusTree
end Fdfs2qq.Bpt
