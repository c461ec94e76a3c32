import Mathlib.Data.List.Basic

/-! Pieces of given sizes laid end to end, and a memory of bytes. What is written to
one piece is read back, and the other pieces keep their bytes. -/
namespace Lib

section Tiles

variable {K : Type*} (size : K → Nat)

/-- The pieces fill the room from `start` to `stop`, one after the other. -/
def Tiles : Nat → List (Nat × K) → Nat → Prop
  | start, [], stop => start = stop
  | start, (off, kind) :: rest, stop => off = start ∧ Tiles (start + size kind) rest stop

instance Tiles.decidable : (start : Nat) → (row : List (Nat × K)) → (stop : Nat) → Decidable (Tiles size start row stop)
  | start, [], stop => inferInstanceAs (Decidable (start = stop))
  | start, (off, kind) :: rest, stop =>
    have := decidable (start + size kind) rest stop
    inferInstanceAs (Decidable (off = start ∧ Tiles size (start + size kind) rest stop))

namespace Tiles

variable {size} {start stop off off' : Nat} {kind kind' : K} {row : List (Nat × K)}

theorem concat (tiles : Tiles size start row stop) (kind : K) :
    Tiles size start (row ++ [(stop, kind)]) (stop + size kind) := by
  induction row generalizing start with
  | nil =>
    cases tiles
    exact ⟨rfl, rfl⟩
  | cons piece rest ih => exact ⟨tiles.1, ih tiles.2⟩

theorem start_le (tiles : Tiles size start row stop) : start ≤ stop := by
  induction row generalizing start with
  | nil => exact Nat.le_of_eq tiles
  | cons piece rest ih => exact Nat.le_trans (Nat.le_add_right ..) (ih tiles.2)

theorem bounds (tiles : Tiles size start row stop) (mem : (off, kind) ∈ row) :
    start ≤ off ∧ off + size kind ≤ stop := by
  induction row generalizing start with
  | nil => cases mem
  | cons piece rest ih =>
    obtain ⟨rfl, tiles⟩ := tiles
    obtain here | mem := List.mem_cons.mp mem
    · cases here
      exact ⟨Nat.le_refl _, tiles.start_le⟩
    · obtain ⟨above, below⟩ := ih tiles mem
      exact ⟨Nat.le_trans (Nat.le_add_right ..) above, below⟩

/-- No two pieces overlap. -/
theorem apart (tiles : Tiles size start row stop) (mem : (off, kind) ∈ row) (mem' : (off', kind') ∈ row) :
    (off, kind) = (off', kind') ∨ off + size kind ≤ off' ∨ off' + size kind' ≤ off := by
  induction row generalizing start with
  | nil => cases mem
  | cons piece rest ih =>
    obtain ⟨rfl, tiles⟩ := tiles
    obtain here | inside := List.mem_cons.mp mem
    · obtain here' | inside' := List.mem_cons.mp mem'
      · exact .inl (here.trans here'.symm)
      · cases here
        exact .inr (.inl (tiles.bounds inside').1)
    · obtain here' | inside' := List.mem_cons.mp mem'
      · cases here'
        exact .inr (.inr (tiles.bounds inside).1)
      · exact ih tiles inside inside'

theorem kind_unique (positive : ∀ kind, 0 < size kind) (tiles : Tiles size start row stop)
    (mem : (off, kind) ∈ row) (mem' : (off, kind') ∈ row) : kind = kind' := by
  obtain same | before | behind := tiles.apart mem mem'
  · exact (Prod.mk.inj same).2
  · have := positive kind
    omega
  · have := positive kind'
    omega

end Tiles

/-- The pieces that lie end to end from this offset on, where `look` tells which piece
starts at an offset. -/
def walk (look : Nat → Option K) : Nat → Nat → List (Nat × K)
  | 0, _ => []
  | fuel + 1, off =>
    match look off with
    | none => []
    | some kind => (off, kind) :: walk look fuel (off + size kind)

variable {size} {look : Nat → Option K} {off o stop : Nat} {kind : K} {row : List (Nat × K)}

theorem look_of_mem_walk {fuel : Nat} (mem : (o, kind) ∈ walk size look fuel off) : look o = some kind := by
  induction fuel generalizing off with
  | zero => cases mem
  | succ fuel ih =>
    rw [walk] at mem
    split at mem
    next => cases mem
    next found =>
      obtain here | mem := List.mem_cons.mp mem
      · cases here
        exact found
      · exact ih mem

/-- Pieces that fill the room are found by walking it. -/
theorem Tiles.walk_eq (positive : ∀ kind, 0 < size kind) (beyond : look stop = none)
    (pieces : ∀ piece ∈ row, look piece.1 = some piece.2) {start fuel : Nat}
    (tiles : Tiles size start row stop) (enough : stop - start < fuel) : walk size look fuel start = row := by
  induction row generalizing start fuel with
  | nil =>
    obtain ⟨fuel, rfl⟩ := Nat.exists_eq_add_one_of_ne_zero (Nat.ne_of_gt (Nat.zero_lt_of_lt enough))
    obtain rfl : start = stop := tiles
    simp only [walk, beyond]
  | cons piece rest ih =>
    obtain ⟨off, kind⟩ := piece
    obtain ⟨rfl, tiles⟩ := tiles
    obtain ⟨fuel, rfl⟩ := Nat.exists_eq_add_one_of_ne_zero (Nat.ne_of_gt (Nat.zero_lt_of_lt enough))
    have below := tiles.start_le
    have longer := positive kind
    simp only [walk, pieces _ List.mem_cons_self]
    rw [ih (fun piece mem => pieces piece (List.mem_cons_of_mem _ mem)) tiles (by omega)]

end Tiles

/-- A byte at each address. -/
abbrev Memory := Nat → UInt8

namespace Memory

def read (m : Memory) (off len : Nat) : List UInt8 := (List.range len).map fun i => m (off + i)

def write (m : Memory) (off : Nat) (bytes : List UInt8) : Memory := fun a =>
  if off ≤ a then (bytes[a - off]?).getD (m a) else m a

variable {m : Memory} {off off' len len' : Nat} {bytes : List UInt8}

@[simp] theorem length_read : (m.read off len).length = len := by simp [read]

theorem read_add : m.read off (len + len') = m.read off len ++ m.read (off + len) len' := by
  rw [read, read, read, List.range_add, List.map_append, List.map_map]
  congr 1
  exact List.map_congr_left fun i _ => by simp [Nat.add_assoc]

theorem read_write : (m.write off bytes).read off bytes.length = bytes := by
  apply List.ext_getElem
  · exact length_read
  · intro i _ inside
    simp [read, write, inside]

theorem read_write_apart (apart : off + bytes.length ≤ off' ∨ off' + len ≤ off) :
    (m.write off bytes).read off' len = m.read off' len := by
  refine List.map_congr_left fun i inside => ?_
  rw [List.mem_range] at inside
  simp only [write]
  split
  next above =>
    rw [List.getElem?_eq_none (by omega)]
    rfl
  next => rfl

/-- What is behind the written bytes stays. -/
theorem read_write_add : (m.write off bytes).read off (bytes.length + len) =
    bytes ++ m.read (off + bytes.length) len := by
  rw [read_add, read_write, read_write_apart (.inl (Nat.le_refl _))]

end Memory
end Lib
