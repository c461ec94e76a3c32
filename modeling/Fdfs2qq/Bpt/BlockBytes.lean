import Fdfs2qq.Bpt.Extents
import Fdfs2qq.Bpt.Layout

/-! The file as bytes, whatever stands in the slots past the `n`-th of a node. The
blocks of the model are what is read from the bytes that the calls write. -/
namespace Fdfs2qq.Bpt
open Lib

theorem littleEndian_append (bytes rest : List UInt8) :
    littleEndian (bytes ++ rest) = littleEndian bytes + 2 ^ (8 * bytes.length) * littleEndian rest := by
  induction bytes with
  | nil => simp [littleEndian]
  | cons b bytes ih =>
    have longer : 2 ^ (8 * (b :: bytes).length) = 256 * 2 ^ (8 * bytes.length) := by
      rw [List.length_cons, Nat.mul_succ, Nat.pow_add, Nat.mul_comm]
    show b.toNat + 256 * littleEndian (bytes ++ rest) = b.toNat + 256 * littleEndian bytes + _
    rw [ih, longer, Nat.mul_add, Nat.add_assoc, Nat.mul_assoc]

theorem littleEndian_lt (bytes : List UInt8) : littleEndian bytes < 2 ^ (8 * bytes.length) := by
  induction bytes with
  | nil => decide
  | cons b bytes ih =>
    have small := b.toNat_lt
    rw [List.length_cons, Nat.mul_succ, Nat.pow_add]
    show b.toNat + 256 * littleEndian bytes < _
    omega

theorem bytesAt_add {x y off len stop : Nat} (inside : off + len ≤ stop) :
    bytesAt (x + 2 ^ (8 * stop) * y) off len = bytesAt x off len := by
  obtain ⟨more, rfl⟩ := Nat.exists_eq_add_of_le inside
  rw [bytesAt, Nat.mul_add, Nat.mul_add, Nat.pow_add, Nat.pow_add, Nat.mul_assoc, Nat.mul_assoc,
    Nat.add_mul_div_left _ _ (Nat.two_pow_pos _), Nat.add_mul_mod_self_left]
  rfl

theorem headerOf_append {head rest : List UInt8} (size : head.length = sizeNoChildren) :
    headerOf (littleEndian (head ++ rest)) = headerOf (littleEndian head) := by
  have at_ (i : Nat) (inside : i < 4) :
      field (littleEndian (head ++ rest)) i = field (littleEndian head) i := by
    rw [littleEndian_append, size]
    exact bytesAt_add (by simp only [sizeNoChildren]; omega)
  simp only [headerOf, at_ 0 (by decide), at_ 1 (by decide), at_ 2 (by decide), at_ 3 (by decide)]

theorem children_append {head rest : List UInt8} (size : head.length = sizeNoChildren) :
    littleEndian (head ++ rest) / 2 ^ (8 * sizeNoChildren) = littleEndian rest := by
  have small := littleEndian_lt head
  rw [size] at small
  rw [littleEndian_append, size, Nat.add_mul_div_left _ _ (Nat.two_pow_pos _), Nat.div_eq_of_lt small, Nat.zero_add]

theorem sizeNoChildren_le : ∀ kind : Kind, sizeNoChildren ≤ kind.size
  | .internal | .leaf => by decide

theorem blockOf_header {kind : Kind} {head head' rest : List UInt8} (size : head.length = sizeNoChildren)
    (size' : head'.length = sizeNoChildren)
    (count : (headerOf (littleEndian head')).2 = (headerOf (littleEndian head)).2) :
    blockOf kind (littleEndian (head' ++ rest)) =
      { blockOf kind (littleEndian (head ++ rest)) with toHeader := (headerOf (littleEndian head')).1 } := by
  simp only [blockOf, headerOf_append size, headerOf_append size', children_append size, children_append size', count]

def numberAt (m : Memory) (off len : Nat) : Nat := littleEndian (m.read off len)

/-- Writing the first bytes of a block changes its header only. -/
theorem blockOf_patch {m : Memory} {bytes : List UInt8} (kind : Kind) (size : bytes.length = sizeNoChildren)
    (count : (headerOf (littleEndian bytes)).2 = (headerOf (numberAt m off sizeNoChildren)).2) :
    blockOf kind (numberAt (m.write off bytes) off kind.size) =
      { blockOf kind (numberAt m off kind.size) with toHeader := (headerOf (littleEndian bytes)).1 } := by
  obtain ⟨rest, parts⟩ := Nat.exists_eq_add_of_le (sizeNoChildren_le kind)
  have after : (m.write off bytes).read off (sizeNoChildren + rest) = bytes ++ m.read (off + sizeNoChildren) rest := by
    rw [← size, Memory.read_write_add]
  rw [numberAt, numberAt, parts, after, Memory.read_add]
  exact blockOf_header Memory.length_read size count

/-- What a write of the model is in the bytes of the file. -/
inductive ByteStep (m : Memory) : Write → Memory → Prop where
  | nothing : ByteStep m .nothing m
  | info : bytes.length = offsetBlock → metaOf (littleEndian bytes) = i → ByteStep m (.info i) (m.write 0 bytes)
  | block {b : Block} : bytes.length = b.body.kind.size → blockOf b.body.kind (littleEndian bytes) = b →
      ByteStep m (.block off b) (m.write off bytes)
  /-- `n` is written back as it was read. -/
  | header {b : Block} : bytes.length = sizeNoChildren →
      headerOf (littleEndian bytes) = (b.toHeader, (headerOf (numberAt m off sizeNoChildren)).2) →
      ByteStep m (.header off b) (m.write off bytes)

/-- The bytes of the file hold its blocks and its meta block. -/
structure Holds (t : BPlusTree) (m : Memory) : Prop where
  info : ∀ i, t.file.stored = some i → metaOf (numberAt m 0 offsetBlock) = i
  block : ∀ off b, t.file.get off = some b → blockOf b.body.kind (numberAt m off b.body.kind.size) = b

variable {s s' : Draft} {t : BPlusTree} {ps row : List (Offset × Kind)} {m m' : Memory}

theorem Draft.Tiled.mem_row {b : Block} (tiled : Draft.Tiled ⟨ps, t⟩ row) (found : t.file.get off = some b) :
    (off, b.body.kind) ∈ row := (tiled.pieces _ _).mpr (.inl ⟨b, found, rfl⟩)

/-- A write inside one piece leaves the meta block and the other pieces alone. -/
theorem Holds.write {b : Block} {kind : Kind} {bytes : List UInt8} (holds : Holds t m)
    (tiled : Draft.Tiled ⟨ps, t⟩ row) (kinds : b.body.kind = kind) (here : (off, kind) ∈ row)
    (inside : bytes.length ≤ kind.size)
    (new : blockOf kind (numberAt (m.write off bytes) off kind.size) = b) :
    Holds { t with file := t.file.put off b } (m.write off bytes) where
  info i stored := by
    rw [numberAt, Memory.read_write_apart]
    · exact holds.info i stored
    · exact .inr (by simpa using (tiled.tiles.bounds here).1)
  block o c found := by
    rw [File.get_put] at found
    split at found
    next same =>
      cases found
      rw [same, kinds, new]
    next other =>
      rw [numberAt, Memory.read_write_apart]
      · exact holds.block o c found
      · obtain same | before | behind := tiled.tiles.apart here (tiled.mem_row found)
        · exact absurd (Prod.mk.inj same).1.symm other
        · exact .inl (by omega)
        · exact .inr behind

/-- The bytes follow the edits. -/
theorem Holds.step {w : Write} (holds : Holds s.tree m) (tiled : s.Tiled row) (edit : Edit s w s')
    (step : ByteStep m w m') : Holds s'.tree m' := by
  have whole {b : Block} {off : Offset} {bytes : List UInt8} (size : bytes.length = b.body.kind.size)
      (decodes : blockOf b.body.kind (littleEndian bytes) = b) :
      blockOf b.body.kind (numberAt (m.write off bytes) off b.body.kind.size) = b := by
    rw [numberAt, ← size, Memory.read_write, decodes]
  cases edit with
  | alloc | info =>
    cases step
    exact ⟨holds.info, holds.block⟩
  | unmapMeta =>
    cases step with
    | info size decodes =>
      constructor
      · rintro i ⟨⟩
        rw [numberAt, ← size, Memory.read_write, decodes]
      · intro off b found
        rw [numberAt, Memory.read_write_apart]
        · exact holds.block off b found
        · have bounds := (tiled.tiles.bounds (tiled.mem_row found)).1
          exact .inl (by rw [Nat.zero_add, size]; exact bounds)
  | unmap here =>
    cases step with
    | block size decodes =>
      exact holds.write tiled rfl ((tiled.pieces _ _).mpr (.inl here)) size.le (whole size decodes)
  | fresh =>
    cases step with
    | block size decodes =>
      exact holds.write tiled rfl ((tiled.pieces _ _).mpr (.inr (by simp))) size.le (whole size decodes)
  | @header off ps t b h found =>
    cases step with
    | @header bytes _ _ size decodes =>
      have here : (off, b.body.kind) ∈ row := tiled.mem_row found
      have before := holds.block off b found
      have inside : bytes.length ≤ b.body.kind.size := size.trans_le (sizeNoChildren_le b.body.kind)
      have count : (headerOf (littleEndian bytes)).2 = (headerOf (numberAt m off sizeNoChildren)).2 := by rw [decodes]
      have patched : blockOf b.body.kind (numberAt (m.write off bytes) off b.body.kind.size) =
          { b with toHeader := h } := by
        rw [blockOf_patch b.body.kind size count, before, decodes]
      have kinds : ({ b with toHeader := h } : Block).body.kind = b.body.kind := rfl
      exact holds.write tiled kinds here inside patched

theorem Holds.run {writes : List Write} (edits : Run Edit s writes s') (tiled : s.Tiled row)
    (steps : Run ByteStep m writes m') (holds : Holds s.tree m) : Holds s'.tree m' := by
  induction edits generalizing m row with
  | refl =>
    cases steps
    exact holds
  | next edit _ ih =>
    cases steps with
    | next step later =>
      obtain ⟨⟨more, tiled'⟩, -⟩ := edit.keeps tiled
      exact ih tiled' later (holds.step tiled edit step)

theorem Holds.map {α : Type} [NodeType α] [NodeKind α] {node : Node α} (holds : Holds t m)
    (mapped : t.map α off = .ok node) :
    blockOf (NodeKind.kind α) (numberAt m off (NodeType.size α)) = ⟨node.toHeader, NodeType.body node.children⟩ := by
  have same := holds.block off _ (get_of_map node mapped)
  simp only [NodeKind.kind_body] at same
  rwa [NodeKind.size_kind] at same

theorem blankDraft_holds (m : Memory) : Holds blankDraft.tree m := ⟨nofun, nofun⟩

/-- Fields of 8 bytes, and zeros up to the end of a struct. -/
def structBytes (fields : List Nat) (size : Nat) : List UInt8 :=
  (fields.flatMap fun n => (List.range 8).map fun i => UInt8.ofNat (n / 256 ^ i)) ++
    List.replicate (size - 8 * fields.length) 0

end Fdfs2qq.Bpt
