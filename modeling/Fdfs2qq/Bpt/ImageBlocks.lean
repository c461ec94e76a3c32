import Fdfs2qq.Bpt.ImageBytes

/-! The blocks that lie in the bytes of the file. -/
namespace Fdfs2qq.Bpt

/-- The numbers of a body fit their fields, and its slots the array. -/
def Body.Fits : Body → Prop
  | .internal slots => slots.length ≤ bpOrder ∧ ∀ slot ∈ slots, slot.child < 2 ^ 64
  | .leaf slots => slots.length ≤ bpOrder

structure Header.Fits (h : Header) : Prop where
  parent : h.parent < 2 ^ 64
  next : h.next < 2 ^ 64
  prev : h.prev < 2 ^ 64

structure Block.Fits (b : Block) : Prop where
  header : b.toHeader.Fits
  body : b.body.Fits

theorem Body.Fits.count_le {body : Body} (fits : body.Fits) : body.count ≤ bpOrder := by
  cases body with
  | internal => exact fits.1
  | leaf => exact fits

/-- The body in the bytes of a block. -/
def bodyOf (kind : Kind) (n bytes : Nat) : Body :=
  match kind with
  | .internal => .internal ((slotsAt kind.slotSize n bytes).map indexOf)
  | .leaf => .leaf ((slotsAt kind.slotSize n bytes).map recordOf)

theorem Body.Fits.slots {body : Body} (fits : body.Fits) {old bytes : Nat}
    (same : ∀ i < body.count, bytesAt bytes (body.kind.slotSize * i) body.kind.slotSize =
      bytesAt (body.bytesOver old) (body.kind.slotSize * i) body.kind.slotSize) :
    bodyOf body.kind body.count bytes = body ∧
      (slotsAt body.kind.slotSize body.count bytes).all terminated := by
  cases body with
  | internal slots =>
    have again : ∀ x, indexOf (indexOf x).bytes = indexOf x := fun x =>
      (indexOf_bytes (Nat.mod_lt _ (Nat.two_pow_pos _))).slot
    obtain ⟨read, ends⟩ := slotsAt_slotsOver again (fun slot mem => indexOf_bytes (fits.2 slot mem)) same
    exact ⟨congrArg Body.internal read, ends⟩
  | leaf slots =>
    have again : ∀ x, recordOf (recordOf x).bytes = recordOf x := fun x => (recordOf_bytes _).slot
    obtain ⟨read, ends⟩ := slotsAt_slotsOver again (fun slot _ => recordOf_bytes slot) same
    exact ⟨congrArg Body.leaf read, ends⟩

theorem blockOf_eq (kind : Kind) (bytes : Nat) : blockOf kind bytes =
    ⟨(headerOf bytes).1, bodyOf kind (headerOf bytes).2 (bytes / 2 ^ (8 * sizeNoChildren))⟩ := by
  cases kind <;> rfl

theorem headerOf_congr {x y : Nat} (same : ∀ i < 4, field x i = field y i) : headerOf x = headerOf y := by
  simp only [headerOf, same 0 (by decide), same 1 (by decide), same 2 (by decide), same 3 (by decide)]

theorem headerOf_bytes {h : Header} (fits : h.Fits) {n : Nat} (few : n ≤ bpOrder) :
    headerOf (h.bytes n) = (h, n) := by
  have small : ∀ x ∈ [h.parent, h.next, h.prev, n], x < 2 ^ 64 := by
    have number : n < 2 ^ 64 := few.trans_lt (by decide)
    exact List.forall_mem_cons.mpr ⟨fits.parent, List.forall_mem_cons.mpr ⟨fits.next,
      List.forall_mem_cons.mpr ⟨fits.prev, List.forall_mem_singleton.mpr number⟩⟩⟩
  have at_ (i : Nat) (inside : i < 4) : field (h.bytes n) i = [h.parent, h.next, h.prev, n].get ⟨i, inside⟩ :=
    field_fieldBytes small inside
  simp only [headerOf, at_ 0 (by decide), at_ 1 (by decide), at_ 2 (by decide), at_ 3 (by decide)]
  rfl

theorem headerBytes_lt (h : Header) (n : Nat) : h.bytes n < 2 ^ (8 * sizeNoChildren) :=
  fieldBytes_lt [h.parent, h.next, h.prev, n]

theorem Kind.size_eq : ∀ kind : Kind, kind.size = sizeNoChildren + kind.slotSize * bpOrder
  | .internal | .leaf => rfl

/-- The block is in the bytes of the file. -/
structure Image.HoldsBlock (f : Image) (off : Offset) (b : Block) : Prop where
  inside : off + b.body.kind.size ≤ f.length
  header : headerOf (bytesAt f.bytes off b.body.kind.size) = (b.toHeader, b.body.count)
  body : bodyOf b.body.kind b.body.count (bytesAt f.bytes off b.body.kind.size / 2 ^ (8 * sizeNoChildren)) = b.body
  ends : (slotsAt b.body.kind.slotSize b.body.count
    (bytesAt f.bytes off b.body.kind.size / 2 ^ (8 * sizeNoChildren))).all terminated

namespace Image

variable {f : Image}

theorem spoilt_write (len new : Nat) (above : offsetBlock ≤ off) : (f.write off len new).spoilt = f.spoilt := by
  rw [write, decide_eq_false (Nat.not_lt.mpr above), Bool.or_false]

theorem spoilt_writeNode {α : Type} [NodeType α] (node : Node α) (above : offsetBlock ≤ off) :
    (BlockFile.writeNode f node off).spoilt = f.spoilt := spoilt_write 0 0 above

/-- The bytes of a block decide. -/
theorem HoldsBlock.congr {f' : Image} (holds : f.HoldsBlock off b) (longer : f.length ≤ f'.length)
    (same : bytesAt f'.bytes off b.body.kind.size = bytesAt f.bytes off b.body.kind.size) : f'.HoldsBlock off b where
  inside := holds.inside.trans longer
  header := same ▸ holds.header
  body := same ▸ holds.body
  ends := same ▸ holds.ends

theorem holdsBlock_of_bytes {b : Block} (fits : b.Fits) (inside : off + b.body.kind.size ≤ f.length) {old : Nat}
    (bytes : ∀ a l, a + l ≤ sizeNoChildren + b.body.kind.slotSize * b.body.count → bytesAt f.bytes (off + a) l =
      bytesAt (b.toHeader.bytes b.body.count + 2 ^ (8 * sizeNoChildren) * b.body.bytesOver old) a l) :
    f.HoldsBlock off b := by
  have few := fits.body.count_le
  have head := headerBytes_lt b.toHeader b.body.count
  have room : sizeNoChildren + b.body.kind.slotSize * b.body.count ≤ b.body.kind.size := by
    rw [Kind.size_eq]
    exact Nat.add_le_add_left (Nat.mul_le_mul_left _ few) _
  have header : headerOf (bytesAt f.bytes off b.body.kind.size) = (b.toHeader, b.body.count) := by
    rw [← headerOf_bytes fits.header few]
    refine headerOf_congr fun i below => ?_
    have front : 8 * i + 8 ≤ sizeNoChildren := by
      simp only [sizeNoChildren]
      omega
    rw [field, field, bytesAt_bytesAt (by omega), bytes _ _ (by omega), bytesAt_add front]
  have slots : ∀ i < b.body.count,
      bytesAt (bytesAt f.bytes off b.body.kind.size / 2 ^ (8 * sizeNoChildren)) (b.body.kind.slotSize * i)
          b.body.kind.slotSize =
        bytesAt (b.body.bytesOver old) (b.body.kind.slotSize * i) b.body.kind.slotSize := by
    intro i below
    have within : b.body.kind.slotSize * i + b.body.kind.slotSize ≤ b.body.kind.slotSize * b.body.count := by
      rw [← Nat.mul_succ]
      exact Nat.mul_le_mul_left _ below
    rw [bytesAt_div, bytesAt_bytesAt (by omega), bytes _ _ (by omega), bytesAt_high head]
  obtain ⟨body, ends⟩ := fits.body.slots slots
  exact ⟨inside, header, body, ends⟩

theorem holdsBlock_writeNode {α : Type} [NodeType α] [NodeKind α] (node : Node α) (off : Offset)
    (fits : Block.Fits ⟨node.toHeader, NodeType.body node.children⟩) :
    (BlockFile.writeNode f node off).HoldsBlock off ⟨node.toHeader, NodeType.body node.children⟩ := by
  refine holdsBlock_of_bytes fits ?_ fun a l inside => bytesAt_write_inside inside
  rw [NodeKind.kind_body, NodeKind.size_kind]
  exact Nat.le_max_right ..

/-- A node is written inside its block. -/
theorem HoldsBlock.writeNode {α : Type} [NodeType α] [NodeKind α] {node : Node α} {b : Block}
    (holds : f.HoldsBlock o b) (few : (NodeType.body node.children).count ≤ bpOrder)
    (apart : o + b.body.kind.size ≤ off ∨ off + NodeType.size α ≤ o) :
    (BlockFile.writeNode f node off).HoldsBlock o b := by
  have room : sizeNoChildren + (NodeType.body node.children).kind.slotSize * (NodeType.body node.children).count ≤
      NodeType.size α := by
    rw [← NodeKind.size_kind, NodeKind.kind_body, Kind.size_eq]
    exact Nat.add_le_add_left (Nat.mul_le_mul_left _ few) _
  refine holds.congr ((Nat.le_max_left ..).trans (Nat.le_max_left ..)) (bytesAt_write_apart ?_)
  exact apart.imp_right fun behind => (Nat.add_le_add_left room off).trans behind

theorem HoldsBlock.readNode {α : Type} [NodeType α] [NodeKind α] {node : Node α}
    (holds : f.HoldsBlock off ⟨node.toHeader, NodeType.body node.children⟩)
    (few : (NodeType.body node.children).count ≤ bpOrder) : BlockFile.readNode α f off = .ok node := by
  obtain ⟨inside, header, body, ends⟩ := holds
  simp only [NodeKind.kind_body, NodeKind.size_kind] at inside header body ends
  have block : blockOf (NodeKind.kind α) (bytesAt f.bytes off (NodeType.size α)) =
      ⟨node.toHeader, NodeType.body node.children⟩ := by
    rw [blockOf_eq, header, body]
  simp only [BlockFile.readNode, read, if_pos inside, NodeKind.kind_body, bind, Except.bind, header, block, few, ends,
    and_self, if_true, NodeType.children_body]

theorem HoldsBlock.writeMeta (holds : f.HoldsBlock off b) (behind : offsetBlock ≤ off) (m : Meta) :
    (BlockFile.writeMeta f m).HoldsBlock off b :=
  holds.congr (Nat.le_max_left ..) (bytesAt_write_apart (.inr (by rwa [Nat.zero_add])))

/-- The links of a block are rewritten. -/
theorem HoldsBlock.changeHeader {b : Block} {change : Header → Header} (holds : f.HoldsBlock off b)
    (fits : (change b.toHeader).Fits) (few : b.body.count ≤ bpOrder) :
    ∃ bytes, BlockFile.changeHeader f off change = .ok (f.write off sizeNoChildren bytes) ∧
      (f.write off sizeNoChildren bytes).HoldsBlock off { b with toHeader := change b.toHeader } ∧
      ∀ o c, f.HoldsBlock o c → o + c.body.kind.size ≤ off ∨ off + b.body.kind.size ≤ o →
        (f.write off sizeNoChildren bytes).HoldsBlock o c := by
  have front : sizeNoChildren ≤ b.body.kind.size := sizeNoChildren_le _
  have inside : off + sizeNoChildren ≤ f.length := (Nat.add_le_add_left front off).trans holds.inside
  have header : headerOf (bytesAt f.bytes off sizeNoChildren) = (b.toHeader, b.body.count) := by
    rw [← holds.header]
    refine headerOf_congr fun i below => ?_
    have within : 8 * i + 8 ≤ sizeNoChildren := by
      simp only [sizeNoChildren]
      omega
    rw [field, field, bytesAt_bytesAt within, bytesAt_bytesAt (within.trans front)]
  refine ⟨(change b.toHeader).bytes b.body.count, ?_, ?_, ?_⟩
  · simp only [BlockFile.changeHeader, read, if_pos inside, bind, Except.bind, header]
  · generalize written : f.write off sizeNoChildren ((change b.toHeader).bytes b.body.count) = f'
    have longer : f.length ≤ f'.length := written ▸ Nat.le_max_left ..
    have rest : bytesAt f'.bytes off b.body.kind.size / 2 ^ (8 * sizeNoChildren) =
        bytesAt f.bytes off b.body.kind.size / 2 ^ (8 * sizeNoChildren) := by
      apply Nat.eq_of_testBit_eq
      intro j
      simp only [Nat.testBit_div_two_pow, testBit_bytesAt, ← written, testBit_write]
      rw [if_neg (by omega)]
    refine ⟨holds.inside.trans longer, ?_, rest ▸ holds.body, rest ▸ holds.ends⟩
    rw [← headerOf_bytes fits few]
    refine headerOf_congr fun i below => ?_
    have within : 8 * i + 8 ≤ sizeNoChildren := by
      simp only [sizeNoChildren]
      omega
    rw [field, field, bytesAt_bytesAt (within.trans front), ← written, bytesAt_write_inside within]
  · intro o c there apart
    exact there.congr (Nat.le_max_left ..)
      (bytesAt_write_apart (apart.imp_right (Nat.add_le_add_left front off).trans))

end Image

end Fdfs2qq.Bpt
