import Mathlib.Algebra.BigOperators.Group.List.Basic
import Fdfs2qq.Lib.Machine

/-! A pool of threads over one shared state. A step is one of one thread or of
the world around the pool. What is asserted of every thread stays true when the
thread that moves restores its own assertion and disturbs no other. -/
namespace Lib

structure Pool (S T : Type*) where
  shared : S
  threads : List T
deriving DecidableEq

namespace Pool

/-- Who takes the step, and what is left open to it. -/
inductive Label (C E : Type*) where
  | thread (i : Nat) (choice : C)
  | around (event : E)

variable {S T C E M : Type*} {p q : Pool S T} {i : Nat} {t t' : T} 
  {s : S}

section Step

variable (thread : Nat → C → T → S → Option (T × S)) (around : E → S → Option S)

def step? (p : Pool S T) : Label C E → Option (Pool S T)
  | .thread i choice =>
    p.threads[i]?.bind fun t =>
      (thread i choice t p.shared).map fun (t, s) => ⟨s, p.threads.set i t⟩
  | .around event => (around event p.shared).map fun s => ⟨s, p.threads⟩

variable {thread around}

/-- What one step of the pool is. -/
theorem step_cases {label : Label C E} (stepped : step? thread around p label = some q) :
    (∃ i choice t t' s, label = .thread i choice ∧ p.threads[i]? = some t ∧
      thread i choice t p.shared = some (t', s) ∧ q = ⟨s, p.threads.set i t'⟩) ∨
    ∃ event s, label = .around event ∧ around event p.shared = some s ∧ q = ⟨s, p.threads⟩ := by
  cases label with
  | thread i choice =>
    obtain ⟨t, found, stepped⟩ := Option.bind_eq_some_iff.mp stepped
    obtain ⟨⟨t', s⟩, moved, rfl⟩ := Option.map_eq_some_iff.mp stepped
    exact .inl ⟨i, choice, t, t', s, rfl, found, moved, rfl⟩
  | around event =>
    obtain ⟨s, moved, rfl⟩ := Option.map_eq_some_iff.mp stepped
    exact .inr ⟨event, s, rfl, moved, rfl⟩

end Step

def Allows (guard : Nat → C → T → Pool S T → Prop) (p : Pool S T) : Label C E → Prop
  | .thread i choice => ∀ t, p.threads[i]? = some t → guard i choice t p
  | .around _ => True

instance (guard : Nat → C → T → Pool S T → Prop) [∀ i choice t p, Decidable (guard i choice t p)]
    (p : Pool S T) : (label : Label C E) → Decidable (Allows guard p label)
  | .thread i choice =>
    match found : p.threads[i]? with
    | none => isTrue fun t same => by rw [found] at same; cases same
    | some t => decidable_of_iff (guard i choice t p) (by simp [Allows, found])
  | .around _ => isTrue trivial

/-- Every thread meets its assertion. -/
def Valid (A : Nat → T → S → Prop) (p : Pool S T) : Prop :=
  ∀ i t, p.threads[i]? = some t → A i t p.shared

variable {A : Nat → T → S → Prop}

theorem Valid.thread (valid : Valid A p) (own : A i t' s)
    (others : ∀ j u, j ≠ i → p.threads[j]? = some u → A j u p.shared → A j u s) :
    Valid A ⟨s, p.threads.set i t'⟩ := by
  intro j u found
  rw [List.getElem?_set] at found
  split at found
  next same =>
    obtain rfl := same
    split at found
    next => exact Option.some.inj found ▸ own
    next => cases found
  next other => exact others j u (Ne.symm other) found (valid j u found)

theorem Valid.around (valid : Valid A p)
    (others : ∀ j u, p.threads[j]? = some u → A j u p.shared → A j u s) :
    Valid A ⟨s, p.threads⟩ :=
  fun j u found => others j u found (valid j u found)

def total [AddCommMonoid M] (w : T → M) (threads : List T) : M := (threads.map w).sum

theorem total_set [AddCommMonoid M] (w : T → M) {threads : List T} (t' : T) (found : threads[i]? = some t) :
    total w (threads.set i t') + w t = total w threads + w t' := by
  induction threads generalizing i with
  | nil => cases found
  | cons head rest ih =>
    cases i with
    | zero =>
      cases found
      simp only [total, List.set_cons_zero, List.map_cons, List.sum_cons]
      rw [add_right_comm, add_comm (w t'), add_right_comm]
    | succ i =>
      simp only [total, List.set_cons_succ, List.map_cons, List.sum_cons, add_assoc] at ih ⊢
      rw [ih found]

/-- Threads at different places each carry their share. -/
theorem mul_length_le_total {w : T → Nat} {threads : List T} {c : Nat} {places : List Nat}
    (distinct : places.Nodup) (heavy : ∀ j ∈ places, ∃ t, threads[j]? = some t ∧ c ≤ w t) :
    c * places.length ≤ total w threads := by
  have whole : total w threads = total id (threads.map w) := by simp [total]
  replace heavy : ∀ j ∈ places, ∃ n, (threads.map w)[j]? = some n ∧ c ≤ n := fun j mem => by
    obtain ⟨t, found, enough⟩ := heavy j mem
    exact ⟨w t, by rw [List.getElem?_map, found]; rfl, enough⟩
  rw [whole]
  generalize threads.map w = weights at heavy
  induction places generalizing weights with
  | nil => simp
  | cons j rest ih =>
    obtain ⟨away, distinct⟩ := List.nodup_cons.mp distinct
    obtain ⟨⟨n, found, enough⟩, heavy⟩ := List.forall_mem_cons.mp heavy
    have less := total_set id 0 found
    have later := ih distinct (weights.set j 0) fun k mem => by
      rw [List.getElem?_set_ne (ne_of_mem_of_not_mem mem away).symm]
      exact heavy k mem
    rw [List.length_cons, Nat.mul_succ]
    simp only [id] at less
    omega

/-- Only threads at these places carry anything. -/
theorem total_le_mul_length {w : T → Nat} {threads : List T} {c : Nat} {places : List Nat}
    (light : ∀ j t, threads[j]? = some t → w t ≤ c ∧ (w t = 0 ∨ j ∈ places)) :
    total w threads ≤ c * places.length := by
  have whole : total w threads = total id (threads.map w) := by simp [total]
  replace light : ∀ (j n : Nat), (threads.map w)[j]? = some n → n ≤ c ∧ (n = 0 ∨ j ∈ places) := by
    intro j n mapped
    rw [List.getElem?_map] at mapped
    obtain ⟨t, found, rfl⟩ := Option.map_eq_some_iff.mp mapped
    exact light j t found
  rw [whole]
  generalize threads.map w = weights at light
  induction places generalizing weights with
  | nil =>
    have zero : weights.sum = 0 := List.sum_eq_zero fun n mem => by
      obtain ⟨j, found⟩ := List.mem_iff_getElem?.mp mem
      exact (light j n found).2.resolve_right (by simp)
    simp [total, zero]
  | cons j rest ih =>
    have later := ih (weights.set j 0) fun k n found => by
      rw [List.getElem?_set] at found
      split at found
      next =>
        obtain ⟨-, same⟩ := Option.ite_none_right_eq_some.mp found
        cases same
        exact ⟨Nat.zero_le _, .inl rfl⟩
      next other =>
        exact (light k n found).imp_right (·.imp_right fun mem =>
          (List.mem_cons.mp mem).resolve_left (Ne.symm other))
    rw [List.length_cons, Nat.mul_succ]
    cases found : weights[j]? with
    | none =>
      rw [List.set_eq_of_length_le (List.getElem?_eq_none_iff.mp found)] at later
      omega
    | some n =>
      have less := total_set id 0 found
      have small := (light j n found).1
      simp only [id] at less
      omega

end Pool

end Lib
