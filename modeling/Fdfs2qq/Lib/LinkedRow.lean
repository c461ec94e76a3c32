import Mathlib.Data.List.Basic

/-! Doubly linked rows of cells. A cell is anything with an address, and
`holds c next prev` says that the store has this cell with these two links. The
store itself is not fixed: two stores are two `holds` predicates. -/
namespace Lib

variable {γ δ ι : Type*} (addr : γ → ι)

/-- Address of the first cell, or where the row stops. -/
def firstAddr (stop : ι) : List γ → ι
  | [] => stop
  | c :: _ => addr c

/-- Address of the last cell, or where the row starts. -/
def lastAddr (start : ι) : List γ → ι
  | [] => start
  | c :: rest => lastAddr (addr c) rest

/-- The cells follow each other by both links, from `start` to `stop`. -/
def Linked (holds : γ → ι → ι → Prop) (stop : ι) : ι → List γ → Prop
  | _, [] => True
  | start, c :: rest =>
    holds c (firstAddr addr stop rest) start ∧ Linked holds stop (addr c) rest

instance Linked.decidable (holds : γ → ι → ι → Prop) [∀ c next prev, Decidable (holds c next prev)]
    (stop : ι) : (start : ι) → (row : List γ) → Decidable (Linked addr holds stop start row)
  | _, [] => isTrue trivial
  | _, c :: rest => @instDecidableAnd _ _ _ (Linked.decidable holds stop (addr c) rest)

variable {addr} {holds : γ → ι → ι → Prop} {start stop : ι}

@[simp] theorem firstAddr_append (xs ys : List γ) :
    firstAddr addr stop (xs ++ ys) = firstAddr addr (firstAddr addr stop ys) xs := by
  cases xs <;> rfl

@[simp] theorem lastAddr_append (xs ys : List γ) :
    lastAddr addr start (xs ++ ys) = lastAddr addr (lastAddr addr start xs) ys := by
  induction xs generalizing start with
  | nil => rfl
  | cons c xs ih => exact ih

/-- The addresses alone determine the two ends of a row. -/
theorem firstAddr_map {addr' : δ → ι} {xs : List γ} {ys : List δ}
    (same : xs.map addr = ys.map addr') : firstAddr addr stop xs = firstAddr addr' stop ys := by
  cases xs <;> cases ys <;> simp_all [firstAddr]

theorem Linked.append_iff (xs ys : List γ) :
    Linked addr holds stop start (xs ++ ys) ↔
      Linked addr holds (firstAddr addr stop ys) start xs ∧
        Linked addr holds stop (lastAddr addr start xs) ys := by
  induction xs generalizing start with
  | nil => simp [Linked, lastAddr]
  | cons c xs ih => simp [Linked, lastAddr, ih, and_assoc]

theorem Linked.cons_iff (c : γ) (ys : List γ) :
    Linked addr holds stop start (c :: ys) ↔
      holds c (firstAddr addr stop ys) start ∧ Linked addr holds stop (addr c) ys := Iff.rfl

theorem Linked.at_iff (A : List γ) (x : γ) (B : List γ) :
    Linked addr holds stop start (A ++ x :: B) ↔
      Linked addr holds (addr x) start A ∧
        holds x (firstAddr addr stop B) (lastAddr addr start A) ∧
          Linked addr holds stop (addr x) B := by
  rw [Linked.append_iff, Linked.cons_iff]
  rfl

theorem Linked.map_iff {holds : ι → ι → ι → Prop} (row : List γ) :
    Linked id holds stop start (row.map addr) ↔
      Linked addr (fun c => holds (addr c)) stop start row := by
  induction row generalizing start with
  | nil => rfl
  | cons c rest ih =>
    have first : firstAddr id stop (rest.map addr) = firstAddr addr stop rest :=
      firstAddr_map (List.map_id _)
    simp only [List.map_cons, Linked, first, id, ih]

/-- Frame: cells that the second store still has stay linked. -/
theorem Linked.frame {holds' : γ → ι → ι → Prop} {row : List γ}
    (keep : ∀ c ∈ row, ∀ next prev, holds c next prev → holds' c next prev)
    (linked : Linked addr holds stop start row) : Linked addr holds' stop start row := by
  induction row generalizing start with
  | nil => trivial
  | cons c rest ih =>
    exact ⟨keep c (by simp) _ _ linked.1, ih (fun d hd => keep d (by simp [hd])) linked.2⟩

theorem Linked.mem {row : List γ} (linked : Linked addr holds stop start row) {c : γ}
    (mem : c ∈ row) : ∃ next prev, holds c next prev := by
  obtain ⟨A, B, rfl⟩ := List.append_of_mem mem
  exact ⟨_, _, ((Linked.at_iff A c B).mp linked).2.1⟩

end Lib
