import Mathlib.Data.List.Basic

/-! Reading a sequence piece by piece up to a delimiter. -/
namespace Lib

variable {α : Type*} [DecidableEq α] (d : α)

/-- The lines that a loop on `getline` sees. -/
def getlines : List α → List (List α)
  | [] => []
  | c :: rest =>
    if c = d then [] :: getlines rest
    else
      match getlines rest with
      | [] => [[c]]
      | line :: lines => (c :: line) :: lines

variable {d} {line rest stream : List α}

theorem getlines_append (free : d ∉ line) :
    getlines d (line ++ d :: rest) = line :: getlines d rest := by
  induction line with
  | nil => simp [getlines]
  | cons c line ih =>
    rw [List.mem_cons, not_or] at free
    simp only [List.cons_append, getlines, Ne.symm free.1, if_false, ih free.2]

theorem getlines_last (free : d ∉ line) (filled : line ≠ []) : getlines d line = [line] := by
  induction line with
  | nil => contradiction
  | cons c line ih =>
    rw [List.mem_cons, not_or] at free
    cases line with
    | nil => simp [getlines, Ne.symm free.1]
    | cons c' line => simp only [getlines, Ne.symm free.1, if_false] at ih ⊢; rw [ih free.2 (by simp)]

theorem mem_of_mem_getlines {c : α} (mem : line ∈ getlines d stream) (inside : c ∈ line) : c ∈ stream := by
  induction stream generalizing line with
  | nil => cases mem
  | cons b rest ih =>
    rw [getlines] at mem
    split at mem
    next =>
      obtain rfl | mem := List.mem_cons.mp mem
      · cases inside
      · exact List.mem_cons_of_mem b (ih mem inside)
    next =>
      split at mem
      next =>
        obtain rfl := List.mem_singleton.mp mem
        exact List.mem_cons.mpr (.inl (List.mem_singleton.mp inside))
      next first lines split =>
        obtain rfl | mem := List.mem_cons.mp mem
        · obtain rfl | inside := List.mem_cons.mp inside
          · exact List.mem_cons_self
          · exact List.mem_cons_of_mem b (ih (split ▸ List.mem_cons_self) inside)
        · exact List.mem_cons_of_mem b (ih (split ▸ List.mem_cons_of_mem _ mem) inside)

theorem notMem_of_mem_getlines (mem : line ∈ getlines d stream) : d ∉ line := by
  induction stream generalizing line with
  | nil => cases mem
  | cons b rest ih =>
    rw [getlines] at mem
    split at mem
    next =>
      obtain rfl | mem := List.mem_cons.mp mem
      · exact List.not_mem_nil
      · exact ih mem
    next other =>
      split at mem
      next =>
        obtain rfl := List.mem_singleton.mp mem
        exact fun same => other (List.mem_singleton.mp same).symm
      next first lines split =>
        obtain rfl | mem := List.mem_cons.mp mem
        · rw [List.mem_cons, not_or]
          exact ⟨Ne.symm other, ih (split ▸ List.mem_cons_self)⟩
        · exact ih (split ▸ List.mem_cons_of_mem _ mem)

theorem takeWhile_ne_append (free : d ∉ line) :
    (line ++ d :: rest).takeWhile (fun c => decide (c ≠ d)) = line := by
  induction line with
  | nil => simp
  | cons c line ih =>
    rw [List.mem_cons, not_or] at free
    rw [List.cons_append, List.takeWhile_cons_of_pos (by simpa using Ne.symm free.1), ih free.2]

theorem takeWhile_ne_self (free : d ∉ line) : line.takeWhile (fun c => decide (c ≠ d)) = line := by
  induction line with
  | nil => rfl
  | cons c line ih =>
    rw [List.mem_cons, not_or] at free
    rw [List.takeWhile_cons_of_pos (by simpa using Ne.symm free.1), ih free.2]

end Lib
