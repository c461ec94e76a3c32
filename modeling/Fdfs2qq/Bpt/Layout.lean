import Mathlib.Data.List.TakeWhile
import Fdfs2qq.Bpt.WellFormed

/-! The structs of `bpt.h` as bytes. Fields of 8 bytes are little-endian, `key_t` has 64
bytes and `value_t` 4. The bytes of a struct are one number here, the lowest first. -/
namespace Fdfs2qq.Bpt

def littleEndian (bytes : List UInt8) : Nat := bytes.foldr (fun b n => b.toNat + 256 * n) 0

/-- This many bytes from this byte on. -/
def bytesAt (bytes off len : Nat) : Nat := bytes / 2 ^ (8 * off) % 2 ^ (8 * len)

def field (bytes i : Nat) : Nat := bytesAt bytes (8 * i) 8

def metaOf (bytes : Nat) : Meta where
  order := field bytes 0
  valueSize := field bytes 1
  keySize := field bytes 2
  internalNodeNum := field bytes 3
  leafNodeNum := field bytes 4
  height := field bytes 5
  slot := field bytes 6
  rootOffset := field bytes 7
  leafOffset := field bytes 8

def sizeNoChildren : Nat := 32

/-- `parent`, `next` and `prev`, and `n`. -/
def headerOf (bytes : Nat) : Header × Nat := (⟨field bytes 0, field bytes 1, field bytes 2⟩, field bytes 3)

/-- The bytes before the first NUL, of so many. -/
def stringOf : Nat → Nat → List UInt8
  | 0, _ => []
  | len + 1, bytes => if bytes % 256 = 0 then [] else UInt8.ofNat (bytes % 256) :: stringOf len (bytes / 256)

theorem stringOf_nulFree {len bytes : Nat} : ∀ b ∈ stringOf len bytes, b ≠ 0 := by
  induction len generalizing bytes with
  | zero => nofun
  | succ len ih =>
    rw [stringOf]
    split
    next => nofun
    next other =>
      intro b mem
      obtain rfl | mem := List.mem_cons.mp mem
      · intro zero
        have same := congrArg UInt8.toNat zero
        rw [UInt8.toNat_ofNat', Nat.mod_mod] at same
        exact other same
      · exact ih b mem

theorem length_stringOf {len bytes : Nat} : (stringOf len bytes).length ≤ len := by
  induction len generalizing bytes with
  | zero => exact Nat.le_refl 0
  | succ len ih =>
    rw [stringOf]
    split
    next => exact Nat.zero_le _
    next => exact Nat.succ_le_succ ih

def keyAt (bytes : Nat) : Key := ⟨stringOf 63 bytes, stringOf_nulFree, length_stringOf⟩

def terminated (bytes : Nat) : Bool := (stringOf 64 bytes).length < 64

/-- `index_t`, 72 bytes -/
def indexOf (bytes : Nat) : Index := ⟨keyAt bytes, field bytes 8⟩

/-- `record_t`, 68 bytes -/
def recordOf (bytes : Nat) : Record := ⟨keyAt bytes, Int32.ofBitVec (BitVec.ofNat 32 (bytesAt bytes 64 4))⟩

def Kind.slotSize : Kind → Nat
  | .internal => 72
  | .leaf => 68

def slotsAt (width n bytes : Nat) : List Nat := (List.range n).map fun i => bytesAt bytes (width * i) width

def blockOf (kind : Kind) (bytes : Nat) : Block :=
  let (header, n) := headerOf bytes
  let slots := slotsAt kind.slotSize n (bytes / 2 ^ (8 * sizeNoChildren))
  { header with
    body := match kind with
      | .internal => .internal (slots.map indexOf)
      | .leaf => .leaf (slots.map recordOf) }

end Fdfs2qq.Bpt
