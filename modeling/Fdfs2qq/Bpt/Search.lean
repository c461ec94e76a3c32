import Fdfs2qq.Bpt.Store
import Fdfs2qq.Text

/-! Descent from the root to a leaf, point search and range search. -/
namespace Fdfs2qq.Bpt

/-- `std::upper_bound`: the first position whose key is greater. -/
def upperBound (keys : List Key) (key : Key) : Nat := keys.findIdx fun k => keycmp key k < 0

/-- `std::lower_bound`: the first position whose key is not less. -/
def lowerBound (keys : List Key) (key : Key) : Nat := keys.findIdx fun k => ¬ keycmp k key < 0

/-- `find(internal_node_t &, key)`: the search stops before the last slot. -/
def findIndex (node : Node Index) (key : Key) : Nat :=
  upperBound (node.children.dropLast.map Index.key) key

def findRecord (leaf : Node Record) (key : Key) : Nat :=
  lowerBound (leaf.children.map Record.key) key

def binarySearch (leaf : Node Record) (key : Key) : Bool :=
  match leaf.children[findRecord leaf key]? with
  | some record => ¬ keycmp key record.key < 0
  | none => false

def slotAt (slots : List α) (i : Nat) : Except Fault α :=
  match slots[i]? with
  | some slot => .ok slot
  | none => .error .bounds

namespace BPlusTree

variable {F : Type} [BlockFile F]

/-- The loop of `search_index`, for the given number of levels. -/
def searchIndexFrom (t : BPlusTree F) (key : Key) : Nat → Offset → Except Fault Offset
  | 0, org => .ok org
  | levels + 1, org => do
    let node ← t.map Index org
    let i ← slotAt node.children (findIndex node key)
    t.searchIndexFrom key levels i.child

def searchIndex (t : BPlusTree F) (key : Key) : Except Fault Offset :=
  t.searchIndexFrom key (t.info.height - 1) t.info.rootOffset

def searchLeafFrom (t : BPlusTree F) (index : Offset) (key : Key) : Except Fault Offset := do
  let node ← t.map Index index
  let i ← slotAt node.children (findIndex node key)
  return i.child

def searchLeaf (t : BPlusTree F) (key : Key) : Except Fault Offset := do
  t.searchLeafFrom (← t.searchIndex key) key

def search (t : BPlusTree F) (key : Key) : Except Fault (Int × Option Value) := do
  let leaf ← t.map Record (← t.searchLeaf key)
  match leaf.children[findRecord leaf key]? with
  | some record => return (keycmp record.key key, some record.value)
  | none => return (-1, none)

/-- `for (; b != e && i < max; ++b, ++i) values[i] = b->value;` with the records
from `b` to `e` and the values written so far; what is left lies between the
final `b` and `e`. -/
def copyValues (max : Nat) : List Record → List Value → List Value × List Record
  | [], values => (values, [])
  | record :: rest, values =>
    if values.length < max then copyValues max rest (values ++ [record.value])
    else (values, record :: rest)

/-- The walk over the leaves before `off_right`. The last component stands for
`b` and `e`, unset until a leaf was read. The walk is cut off where it visits
more leaves than there are blocks. -/
def rangeWalk (t : BPlusTree F) (left : Key) (offLeft offRight : Offset) (max : Nat) :
    Nat → Offset → List Value → Option (List Record) →
      Except Fault (List Value × Option (List Record))
  | fuel, off, values, pending =>
    if off ≠ offRight ∧ off ≠ 0 ∧ values.length < max then
      match fuel with
      | 0 => .error .diverged
      | fuel + 1 => do
        let leaf ← t.map Record off
        let b := if offLeft = off then findRecord leaf left else 0
        let (values, pending) := copyValues max (leaf.children.drop b) values
        t.rangeWalk left offLeft offRight max fuel leaf.next values (some pending)
    else .ok (values, pending)

/-- The records from `b` to `e`; a loop started with `b` after `e` runs off the leaf. -/
def between (leaf : Node Record) (b e : Nat) : Except Fault (List Record) :=
  if b ≤ e then .ok ((leaf.children.take e).drop b) else .error .bounds

/-- The returned count, a `size_t` passed as an `int`, the values written, `*left` and, when `next` is not
null, `*next`. -/
structure RangeResult where
  count : Int
  values : List Value
  left : Option Key
  next : Option Bool
deriving DecidableEq

def searchRange (t : BPlusTree F) (left : Option Key) (right : Key) (max : Nat) (wantNext : Bool) :
    Except Fault RangeResult :=
  match left with
  | none => .ok ⟨-1, [], none, none⟩
  | some from_ =>
    if 0 < keycmp from_ right then .ok ⟨-1, [], some from_, none⟩ else do
      let offLeft ← t.searchLeaf from_
      let offRight ← t.searchLeaf right
      let (values, pending) ←
        t.rangeWalk from_ offLeft offRight max (BlockFile.bound t.file + 1) offLeft [] none
      let (values, pending) ←
        if values.length < max then do
          let leaf ← t.map Record offRight
          let inside ← between leaf (findRecord leaf from_)
            (upperBound (leaf.children.map Record.key) right)
          let (values, pending) := copyValues max inside values
          pure (values, some pending)
        else pure (values, pending)
      if wantNext then
        match pending with
        | none => .error .bounds
        | some (record :: _) =>
          if values.length = max then
            return ⟨toInt values.length, values, some record.key, some true⟩
          else return ⟨toInt values.length, values, some from_, some false⟩
        | some [] => return ⟨toInt values.length, values, some from_, some false⟩
      else return ⟨toInt values.length, values, some from_, none⟩

end BPlusTree
end Fdfs2qq.Bpt
