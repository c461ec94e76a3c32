import Mathlib.Order.Lattice
import Mathlib.Data.List.Pairwise
import Mathlib.Logic.Function.Basic
import Fdfs2qq.Lib.ListSplit

/-! Lists of entries sorted by a key without repeats: the gap where a key
belongs, what a search finds there, and the list as a finite map. -/
namespace Lib

variable {ρ κ ν : Type*} [LinearOrder κ] (key : ρ → κ)

/-- Strictly increasing keys. -/
def SortedBy (xs : List ρ) : Prop := xs.Pairwise fun a b => key a < key b

instance (xs : List ρ) : Decidable (SortedBy key xs) :=
  have : IsTrans ρ fun a b => key a < key b := ⟨fun _ _ _ => lt_trans⟩
  decidable_of_iff (xs.IsChain fun a b => key a < key b) List.isChain_iff_pairwise

/-- The entries before and after the position of `k`. -/
structure Gap (k : κ) (X Y : List ρ) : Prop where
  above : ∀ x ∈ X, key x < k
  below : ∀ y ∈ Y, k < key y

def lookup (k : κ) (xs : List ρ) : Option ρ := xs.find? fun x => key x = k

variable {key} {k k' : κ} {r s : ρ} {X Y : List ρ}

theorem SortedBy.append_iff : SortedBy key (X ++ Y) ↔
    SortedBy key X ∧ SortedBy key Y ∧ ∀ a ∈ X, ∀ b ∈ Y, key a < key b := List.pairwise_append

theorem SortedBy.gap (sorted : SortedBy key (X ++ r :: Y)) : Gap key (key r) X Y := by
  obtain ⟨_, tail, across⟩ := SortedBy.append_iff.mp sorted
  exact ⟨fun x mem => across x mem r (by simp), (List.pairwise_cons.mp tail).1⟩

theorem SortedBy.erase (sorted : SortedBy key (X ++ r :: Y)) : SortedBy key (X ++ Y) :=
  sorted.sublist ((List.Sublist.refl X).append (List.sublist_cons_self r Y))

theorem SortedBy.insert (sorted : SortedBy key (X ++ Y)) (gap : Gap key (key r) X Y) :
    SortedBy key (X ++ r :: Y) := by
  obtain ⟨before, after, across⟩ := SortedBy.append_iff.mp sorted
  refine SortedBy.append_iff.mpr ⟨before, List.pairwise_cons.mpr ⟨gap.below, after⟩, ?_⟩
  intro a mem b mem'
  rcases List.mem_cons.mp mem' with rfl | mem'
  · exact gap.above a mem
  · exact across a mem b mem'

theorem SortedBy.replace (sorted : SortedBy key (X ++ r :: Y)) (same : key s = key r) :
    SortedBy key (X ++ s :: Y) :=
  sorted.erase.insert (same ▸ sorted.gap)

/-- A key is in a sorted list or has a gap there. -/
theorem SortedBy.cases {xs : List ρ} (sorted : SortedBy key xs) (k : κ) :
    (∃ X r Y, xs = X ++ r :: Y ∧ key r = k ∧ Gap key k X Y) ∨
      ∃ X Y, xs = X ++ Y ∧ Gap key k X Y := by
  induction xs with
  | nil => exact Or.inr ⟨[], [], rfl, by simp, by simp⟩
  | cons x xs ih =>
    obtain ⟨head, tail⟩ := List.pairwise_cons.mp sorted
    rcases lt_trichotomy k (key x) with less | same | more
    · refine Or.inr ⟨[], x :: xs, rfl, by simp, ?_⟩
      intro y mem
      rcases List.mem_cons.mp mem with rfl | mem
      · exact less
      · exact less.trans (head y mem)
    · exact Or.inl ⟨[], x, xs, rfl, same.symm, by simp, fun y mem => same ▸ head y mem⟩
    · rcases ih tail with ⟨X, r, Y, rfl, found, gap⟩ | ⟨X, Y, rfl, gap⟩
      · exact Or.inl ⟨x :: X, r, Y, rfl, found, by simpa [more] using gap.above, gap.below⟩
      · exact Or.inr ⟨x :: X, Y, rfl, by simpa [more] using gap.above, gap.below⟩

theorem Gap.notMem (gap : Gap key k X Y) : ∀ x ∈ X ++ Y, key x ≠ k := by
  intro x mem
  rcases List.mem_append.mp mem with mem | mem
  · exact (gap.above x mem).ne
  · exact (gap.below x mem).ne'

theorem Gap.extend {P S : List ρ} (gap : Gap key k X Y) (before : ∀ p ∈ P, key p < k)
    (after : ∀ s ∈ S, k < key s) : Gap key k (P ++ X) (Y ++ S) := by
  constructor
  · intro x mem
    exact (List.mem_append.mp mem).elim (before x) (gap.above x)
  · intro y mem
    exact (List.mem_append.mp mem).elim (gap.below y) (after y)

theorem lookup_eq_none {xs : List ρ} : lookup key k xs = none ↔ ∀ x ∈ xs, key x ≠ k := by
  simp [lookup]

theorem lookup_gap (gap : Gap key k X Y) : lookup key k (X ++ Y) = none :=
  lookup_eq_none.mpr gap.notMem

theorem lookup_found (gap : Gap key k X Y) (found : key r = k) :
    lookup key k (X ++ r :: Y) = some r := by
  have before : X.find? (fun x => decide (key x = k)) = none := by
    simpa using fun x mem => (gap.above x mem).ne
  simp only [lookup, List.find?_append, before, Option.none_or, List.find?_cons, found, decide_true]

theorem lookup_erase (other : k' ≠ key r) :
    lookup key k' (X ++ r :: Y) = lookup key k' (X ++ Y) := by
  have skip : decide (key r = k') = false := by simpa using other.symm
  simp only [lookup, List.find?_append, List.find?_cons, skip]

/-- A list as a finite map. -/
def dictionary (key : ρ → κ) (val : ρ → ν) (xs : List ρ) : κ → Option ν :=
  fun k => (lookup key k xs).map val

variable {val : ρ → ν}

theorem dictionary_found (gap : Gap key (key r) X Y) :
    dictionary key val (X ++ r :: Y) (key r) = some (val r) := by
  rw [dictionary, lookup_found gap rfl]
  rfl

theorem dictionary_gap (gap : Gap key k X Y) : dictionary key val (X ++ Y) k = none := by
  rw [dictionary, lookup_gap gap]
  rfl

theorem dictionary_insert (gap : Gap key (key r) X Y) :
    dictionary key val (X ++ r :: Y) =
      Function.update (dictionary key val (X ++ Y)) (key r) (some (val r)) := by
  funext k
  by_cases same : k = key r
  · subst same
    rw [Function.update_self, dictionary_found gap]
  · rw [Function.update_of_ne same, dictionary, lookup_erase same]
    rfl

theorem dictionary_erase (gap : Gap key (key r) X Y) :
    dictionary key val (X ++ Y) =
      Function.update (dictionary key val (X ++ r :: Y)) (key r) none := by
  rw [dictionary_insert gap, Function.update_idem, ← dictionary_gap gap,
    Function.update_eq_self]

theorem dictionary_replace (gap : Gap key (key r) X Y) (same : key s = key r) :
    dictionary key val (X ++ s :: Y) =
      Function.update (dictionary key val (X ++ r :: Y)) (key r) (some (val s)) := by
  rw [dictionary_insert gap, Function.update_idem, ← same, dictionary_insert (same ▸ gap)]

end Lib
