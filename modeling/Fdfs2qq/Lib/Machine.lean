import Mathlib.Logic.Basic

/-! Labelled steps and their runs, and machines that answer calls. An invariant
or a simulation is shown for one step and then holds along every run. -/
namespace Lib

variable {S L I O E A : Type*}

/-- From one state to another by steps with these labels. -/
inductive Run (step : S → L → S → Prop) : S → List L → S → Prop where
  | refl (s) : Run step s [] s
  | next : step s label t → Run step t rest u → Run step s (label :: rest) u

namespace Run

variable {step step' : S → L → S → Prop} {s t : S} {labels : List L}

theorem invariant {P : S → Prop} (preserves : ∀ {s label t}, P s → step s label t → P t)
    (run : Run step s labels t) (initial : P s) : P t := by
  induction run with
  | refl => exact initial
  | next head _ ih => exact ih (preserves initial head)

theorem append {u : S} {labels' : List L} (first : Run step s labels t) (later : Run step t labels' u) :
    Run step s (labels ++ labels') u := by
  induction first with
  | refl => exact later
  | next head _ ih => exact .next head (ih later)

/-- A measure that every step lowers bounds the run. -/
theorem length_le {P : S → Prop} {measure : S → Nat}
    (lowers : ∀ {s label t}, P s → step s label t → P t ∧ measure t < measure s)
    (run : Run step s labels t) (initial : P s) : labels.length ≤ measure s := by
  induction run with
  | refl => exact Nat.zero_le _
  | next head _ ih =>
    obtain ⟨kept, less⟩ := lowers initial head
    exact Nat.le_trans (Nat.succ_le_succ (ih kept)) less

theorem mono (weaker : ∀ {s label t}, step s label t → step' s label t)
    (run : Run step s labels t) : Run step' s labels t := by
  induction run with
  | refl => exact .refl _
  | next head _ ih => exact .next (weaker head) ih

end Run

section Steps

def Steps (step? : S → L → Option S) (s : S) (label : L) (t : S) : Prop := step? s label = some t

/-- The steps that start as the guard allows. -/
def Within (guard : S → L → Prop) (step : S → L → S → Prop) (s : S) (label : L) (t : S) : Prop :=
  guard s label ∧ step s label t

theorem run_of_foldlM {step? : S → L → Option S} {s t : S} {labels : List L}
    (followed : labels.foldlM step? s = some t) : Run (Steps step?) s labels t := by
  induction labels generalizing s with
  | nil =>
    cases followed
    exact .refl _
  | cons label rest ih =>
    rw [List.foldlM_cons, Option.bind_eq_bind, Option.bind_eq_some_iff] at followed
    obtain ⟨u, stepped, followed⟩ := followed
    exact .next stepped (ih followed)

/-- A run that is followed to its end, where a test is made. -/
theorem exists_run_of_any (step? : S → L → Option S) (s : S) (labels : List L) (test : S → Bool)
    (passed : (labels.foldlM step? s).any test) : ∃ t, Run (Steps step?) s labels t ∧ test t := by
  obtain ⟨t, followed, holds⟩ := (Option.any_eq_true _ _).mp passed
  exact ⟨t, run_of_foldlM followed, holds⟩

theorem exists_run_within_of_any (guard : S → L → Prop) [∀ s label, Decidable (guard s label)]
    (step? : S → L → Option S) (s : S) (labels : List L) (test : S → Bool)
    (passed : (labels.foldlM (fun s label => if guard s label then step? s label else none) s).any test) :
    ∃ t, Run (Within guard (Steps step?)) s labels t ∧ test t := by
  obtain ⟨t, run, holds⟩ := exists_run_of_any _ s labels test passed
  exact ⟨t, run.mono fun stepped => Option.ite_none_right_eq_some.mp stepped, holds⟩

end Steps

section Calls

variable (call : S → I → Except E (O × S))

/-- The call returns and leaves the state `t`. -/
def Returns (s : S) (i : I) (t : S) : Prop := ∃ o, call s i = .ok (o, t)

def play (s : S) : List I → Except E S
  | [] => .ok s
  | i :: rest =>
    match call s i with
    | .ok (_, t) => play t rest
    | .error e => .error e

/-- As `play`, with the answers. -/
def replies (s : S) : List I → Except E (List O × S)
  | [] => .ok ([], s)
  | i :: rest => do
    let (o, s) ← call s i
    let (os, s) ← replies s rest
    return (o :: os, s)

/-- Every call is made in a state that meets the guard. -/
def Guarded (guard : S → I → Prop) : S → List I → Prop
  | _, [] => True
  | s, i :: rest => guard s i ∧ ∀ o t, call s i = .ok (o, t) → Guarded guard t rest

/-- Every call returns with an answer the abstract state expects. -/
def Conforms (expects : A → I → O → Prop) (after : A → I → A) : S → A → List I → Prop
  | _, _, [] => True
  | s, a, i :: rest =>
    ∃ o t, call s i = .ok (o, t) ∧ expects a i o ∧ Conforms expects after t (after a i) rest

variable {call} {s t : S} {a : A} {is js : List I} {expects : A → I → O → Prop} {after : A → I → A}

theorem play_append : play call s (is ++ js) = (play call s is).bind fun t => play call t js := by
  induction is generalizing s with
  | nil => rfl
  | cons i rest ih =>
    simp only [List.cons_append, play]
    split
    next => exact ih
    next => rfl

theorem run_of_play (played : play call s is = .ok t) : Run (Returns call) s is t := by
  induction is generalizing s with
  | nil =>
    cases played
    exact .refl _
  | cons i rest ih =>
    simp only [play] at played
    split at played
    next o u returned => exact .next ⟨o, returned⟩ (ih played)
    next => contradiction

theorem exists_run_of_play {P : S → Prop} (ends : ∃ t ∈ (play call s is).toOption, P t) :
    ∃ t, Run (Returns call) s is t ∧ P t := by
  obtain ⟨t, last, holds⟩ := ends
  cases played : play call s is with
  | error => simp [played, Except.toOption] at last
  | ok u =>
    obtain rfl : u = t := by simpa [played, Except.toOption] using last
    exact ⟨u, run_of_play played, holds⟩

instance Guarded.decidable (guard : S → I → Prop) [∀ s i, Decidable (guard s i)] :
    (s : S) → (is : List I) → Decidable (Guarded call guard s is)
  | _, [] => isTrue trivial
  | s, i :: rest =>
    match returned : call s i with
    | .error _ => decidable_of_iff (guard s i)
        ⟨fun here => ⟨here, fun _ _ same => by rw [returned] at same; contradiction⟩, And.left⟩
    | .ok (_, t) =>
      have := Guarded.decidable guard t rest
      decidable_of_iff (guard s i ∧ Guarded call guard t rest)
        (and_congr_right fun _ => ⟨fun later _ _ same => by rw [returned] at same; cases same; exact later,
          fun later => later _ _ returned⟩)

theorem Guarded.run {guard : S → I → Prop} (guarded : Guarded call guard s is) (played : play call s is = .ok t) :
    Run (Within guard (Returns call)) s is t := by
  induction is generalizing s with
  | nil =>
    cases played
    exact .refl _
  | cons i rest ih =>
    simp only [play] at played
    split at played
    next o u returned => exact .next ⟨guarded.1, o, returned⟩ (ih (guarded.2 o u returned) played)
    next => contradiction

/-- A simulation under a guard makes guarded runs conform. -/
theorem Guarded.conforms {guard : S → I → Prop} {R : S → A → Prop}
    (simulates : ∀ {s a i}, R s a → guard s i →
      ∃ o t, call s i = .ok (o, t) ∧ expects a i o ∧ R t (after a i))
    (related : R s a) (guarded : Guarded call guard s is) : Conforms call expects after s a is := by
  induction is generalizing s a with
  | nil => trivial
  | cons i rest ih =>
    obtain ⟨here, later⟩ := guarded
    obtain ⟨o, t, returned, expected, related'⟩ := simulates related here
    exact ⟨o, t, returned, expected, ih related' (later o t returned)⟩

/-- What conformance says after some of the calls. -/
theorem Conforms.drop (conforms : Conforms call expects after s a (is ++ js)) :
    ∃ t, play call s is = .ok t ∧ Conforms call expects after t (is.foldl after a) js := by
  induction is generalizing s a with
  | nil => exact ⟨s, rfl, conforms⟩
  | cons i rest ih =>
    obtain ⟨o, t, returned, -, conforms⟩ := conforms
    obtain ⟨u, played, conforms⟩ := ih conforms
    exact ⟨u, by simp only [play, returned, played], conforms⟩

theorem replies_cons {i : I} {os : List O} : replies call s (i :: is) = .ok (os, t) ↔
    ∃ o u os', call s i = .ok (o, u) ∧ replies call u is = .ok (os', t) ∧ os = o :: os' := by
  rw [replies]
  constructor
  · intro replied
    cases returned : call s i with
    | error => simp [returned, bind, Except.bind] at replied
    | ok r =>
      cases later : replies call r.2 is with
      | error => simp [returned, later, bind, Except.bind] at replied
      | ok r' =>
        simp only [returned, later, bind, Except.bind, pure, Except.pure, Except.ok.injEq, Prod.mk.injEq] at replied
        obtain ⟨rfl, rfl⟩ := replied
        exact ⟨r.1, r.2, r'.1, rfl, later, rfl⟩
  · rintro ⟨o, u, os', returned, later, rfl⟩
    simp only [returned, later, bind, Except.bind]
    rfl

theorem play_of_replies {os : List O} (replied : replies call s is = .ok (os, t)) : play call s is = .ok t := by
  induction is generalizing s os with
  | nil =>
    cases replied
    rfl
  | cons i rest ih =>
    obtain ⟨o, u, os', returned, later, -⟩ := replies_cons.mp replied
    simp only [play, returned, ih later]

theorem replies_of_play (played : play call s is = .ok t) : ∃ os, replies call s is = .ok (os, t) := by
  induction is generalizing s with
  | nil =>
    cases played
    exact ⟨[], rfl⟩
  | cons i rest ih =>
    simp only [play] at played
    split at played
    next o u returned =>
      obtain ⟨os, later⟩ := ih played
      exact ⟨o :: os, replies_cons.mpr ⟨o, u, os, returned, later, rfl⟩⟩
    next => contradiction

section Simulation

variable {T : Type*} {call' : T → I → Except E (O × T)} {R : S → T → Prop} {guard : S → I → Prop} {c : T}
  (simulates : ∀ {s c i o t}, R s c → guard s i → call s i = .ok (o, t) → ∃ d, call' c i = .ok (o, d) ∧ R t d)
include simulates

/-- A machine that simulates another one answers as that one does. -/
theorem Guarded.simulated {os : List O} (related : R s c) (guarded : Guarded call guard s is)
    (replied : replies call s is = .ok (os, t)) : ∃ d, replies call' c is = .ok (os, d) ∧ R t d := by
  induction is generalizing s c os with
  | nil =>
    cases replied
    exact ⟨c, rfl, related⟩
  | cons i rest ih =>
    obtain ⟨o, u, os', returned, later, rfl⟩ := replies_cons.mp replied
    obtain ⟨d, returned', related'⟩ := simulates related guarded.1 returned
    obtain ⟨e, later', ends⟩ := ih related' (guarded.2 o u returned) later
    exact ⟨e, replies_cons.mpr ⟨o, d, os', returned', later', rfl⟩, ends⟩

theorem Conforms.simulated (related : R s c) (guarded : Guarded call guard s is)
    (conforms : Conforms call expects after s a is) : Conforms call' expects after c a is := by
  induction is generalizing s c a with
  | nil => trivial
  | cons i rest ih =>
    obtain ⟨here, later⟩ := guarded
    obtain ⟨o, t, returned, expected, conforms⟩ := conforms
    obtain ⟨d, returned', related'⟩ := simulates related here returned
    exact ⟨o, d, returned', expected, ih related' (later o t returned) conforms⟩

end Simulation

end Calls

end Lib
