import Fdfs2qq.Common.WorkqueueProofs

/-! What a shutdown does to the pool. The worker that exits leaves the loop with the
mutex locked, so after the first exit nobody gets it any more. -/
namespace Fdfs2qq.Common
open Lib

variable {D U C : Type*} {program : Program D U C} {i j : Nat} {q q' : Workqueue D U} {t t' : Thread}

def Thread.Awaits : Thread → Prop
  | .worker .lock | .worker .asleep | .caller (.addLock _) | .caller .shutdownLock => True
  | _ => False

theorem Chained.unique {items : Items} {head : Option Nat} {stack stack' : List Nat}
    (chained : Chained items head stack) (chained' : Chained items head stack') : stack = stack' := by
  rw [← follow_of_chained chained (Nat.le_max_left stack.length stack'.length),
    follow_of_chained chained' (Nat.le_max_right ..)]

/-- The list and what has been done with it, and the workers freed. -/
def Workqueue.list (q : Workqueue D U) :=
  (q.jobItems, q.waitingJobs, q.added, q.taken, q.dropped, q.freed)

/-- Who waits for a mutex that is taken does not move, and the others leave the list alone. -/
theorem Thread.Moves.outside (moves : t.Moves i q t' q') (held : t.holds = false) (taken : q.mutex ≠ none) :
    ¬ t.Awaits ∧ q'.list = q.list := by
  cases moves with
  | worker moves =>
    cases moves with
    | lock free | wake _ free => exact absurd free taken
    | work | done => exact ⟨id, rfl⟩
    | _ => contradiction
  | caller moves =>
    cases moves with
    | lock _ free | lock' free => exact absurd free taken
    | shutdown | prepare | create | walked | walk | next => exact ⟨id, rfl⟩
    | _ => contradiction

/-- Freed are the workers that exited, and none is touched before one is. -/
structure Process.Frees (p : Process D U) : Prop where
  sound : p.Sound
  accounts : ∃ stack, p.Accounts stack
  freed : p.shared.freed = [] ∧ p.shared.touched = false ∧
      (∀ j : Nat, p.threads[j]? ≠ some (.worker .exited)) ∨
    ∃ i, p.shared.freed = [i] ∧ p.threads[i]? = some (.worker .exited)

/-- What a move does to the workers that were freed. -/
theorem Thread.Moves.frees (moves : t.Moves i q t' q') :
    t = .worker .terminate' ∧ t' = .worker .exited ∧ q'.freed = q.freed ++ [i] ∧ q'.touched = q.touched ∨
    t ≠ .worker .exited ∧ t' ≠ .worker .exited ∧ q'.freed = q.freed ∧
      (q.freed = [] → q'.touched = q.touched) := by
  cases moves with
  | worker moves =>
    cases moves with
    | exit => exact .inl ⟨rfl, rfl, rfl, rfl⟩
    | _ => exact .inr ⟨nofun, nofun, rfl, fun _ => rfl⟩
  | caller moves =>
    cases moves with
    | walk | next => exact .inr ⟨nofun, nofun, rfl, fun none_ => by simp [none_]⟩
    | _ => exact .inr ⟨nofun, nofun, rfl, fun _ => rfl⟩

theorem Process.Frees.step {p p' : Process D U} {e : Event C} (frees : p.Frees)
    (stepped : p.step? program e = some p') : p'.Frees := by
  obtain ⟨stack, accounts⟩ := frees.accounts
  refine ⟨frees.sound.step stepped, accounts.step stepped, ?_⟩
  obtain ⟨i, o, t, t', q, rfl, found, moves, -, rfl⟩ | ⟨i, rfl, rfl⟩ := Process.step_cases stepped
  · have inside : i < p.threads.length := (List.getElem?_eq_some_iff.mp found).1
    obtain ⟨rfl, rfl, freed, -⟩ | ⟨before, after, freed, touched⟩ := moves.frees
    · obtain ⟨none_, -⟩ | ⟨j, -, exited⟩ := frees.freed
      · exact .inr ⟨i, by rw [freed, none_]; rfl, by rw [List.getElem?_set_self inside]⟩
      · -- the exited worker has the mutex, and so has the one that is about to exit
        have theirs := (frees.sound j _ exited).mutex.mp rfl
        have mine := (frees.sound i _ found).mutex.mp rfl
        obtain rfl := Option.some.inj (mine.symm.trans theirs)
        cases found.symm.trans exited
    · obtain ⟨none_, whole, alive⟩ | ⟨j, one, exited⟩ := frees.freed
      · refine .inl ⟨freed.trans none_, (touched none_).trans whole, fun j exited => ?_⟩
        rw [List.getElem?_set] at exited
        split at exited
        next => exact after (Option.some.inj exited)
        next => exact alive j exited
      · refine .inr ⟨j, freed.trans one, ?_⟩
        have other : i ≠ j := by
          rintro rfl
          exact before (Option.some.inj (found.symm.trans exited))
        rw [List.getElem?_set_ne other]
        exact exited
  · exact frees.freed

theorem Process.frees_start (user : U) (numWorkers callers : Nat) :
    (Process.start user numWorkers callers : Process D U).Frees := by
  refine ⟨sound_start user numWorkers callers, ⟨[], accounts_start user numWorkers callers⟩,
    .inl ⟨rfl, rfl, fun j exited => ?_⟩⟩
  have mem := List.mem_of_getElem? exited
  simp [Process.start] at mem

/-- Nothing is done with the list of `p` any more, and who waits for the mutex waits on. -/
structure Process.Stopped (p : Process D U) (i : Nat) (p' : Process D U) : Prop where
  exited : p'.threads[i]? = some (.worker .exited)
  alone : ∀ j : Nat, p'.threads[j]? = some (.worker .exited) → j = i
  freed : p'.shared.freed = [i]
  mutex : p'.shared.mutex = some i
  waiting : p'.shared.waiting = p.shared.waiting
  added : p'.shared.added = p.shared.added
  taken : p'.shared.taken = p.shared.taken
  dropped : p'.shared.dropped = p.shared.dropped
  waits : ∀ (j : Nat) (t : Thread), p.threads[j]? = some t → t.Awaits → p'.threads[j]? = some t

theorem Process.Frees.stopped {p : Process D U} (frees : p.Frees) (freed : p.shared.freed = [i])
    (exited : p.threads[i]? = some (.worker .exited)) : p.Stopped i p where
  exited := exited
  alone j exited' := by
    have mine := (frees.sound i _ exited).mutex.mp rfl
    have theirs := (frees.sound j _ exited').mutex.mp rfl
    exact Option.some.inj (theirs.symm.trans mine)
  freed := freed
  mutex := (frees.sound i _ exited).mutex.mp rfl
  waiting := rfl
  added := rfl
  taken := rfl
  dropped := rfl
  waits _ _ found _ := found

theorem Process.Stopped.step {p p' p'' : Process D U} {e : Event C} (stopped : p.Stopped i p')
    (frees : p'.Frees) (stepped : p'.step? program e = some p'') : p.Stopped i p'' := by
  have frees' := frees.step stepped
  obtain ⟨stack, accounts⟩ := frees.accounts
  obtain ⟨stack', accounts'⟩ := frees'.accounts
  obtain ⟨j, o, t, t', q, rfl, found, moves, -, rfl⟩ | ⟨j, rfl, rfl⟩ := Process.step_cases stepped
  · have other : j ≠ i := by
      rintro rfl
      cases found.symm.trans stopped.exited
      obtain ⟨same, -⟩ | ⟨before, -⟩ := moves.frees
      · cases same
      · exact before rfl
    have held : t.holds = false := by
      rw [← Bool.not_eq_true, (frees.sound j t found).mutex, stopped.mutex]
      exact fun same => other (Option.some.inj same).symm
    obtain ⟨moving, same⟩ := moves.outside held (by rw [stopped.mutex]; nofun)
    simp only [Workqueue.list, Prod.mk.injEq] at same
    obtain ⟨items, head, added, taken, dropped, freed⟩ := same
    have exited : (p'.threads.set j t')[i]? = some (.worker .exited) := by
      rw [List.getElem?_set_ne other]
      exact stopped.exited
    have now := frees'.stopped (freed.trans stopped.freed) exited
    refine ⟨exited, now.alone, now.freed, now.mutex, ?_, added.trans stopped.added,
      taken.trans stopped.taken, dropped.trans stopped.dropped, fun k u found' awaits => ?_⟩
    · rw [← stopped.waiting, accounts.waiting_eq, accounts'.waiting_eq]
      refine Chained.unique accounts'.chained ?_
      simpa only [items, head] using accounts.chained
    · have there := stopped.waits k u found' awaits
      rw [List.getElem?_set_ne]
      · exact there
      · rintro rfl
        obtain rfl := Option.some.inj (there.symm.trans found)
        exact moving awaits
  · exact ⟨stopped.exited, stopped.alone, stopped.freed, stopped.mutex, stopped.waiting, stopped.added,
      stopped.taken, stopped.dropped, stopped.waits⟩

/-- In every run of the pool no worker was freed and none touched after that, or one
worker exited, and then whatever happens later no other exits, nothing is added to
the list or taken off it, and no call that waits for the mutex returns. The memory of a
freed worker is taken to keep its bytes when a later shutdown goes through it. -/
theorem first_exit_stops (program : Program D U C) (user : U) (numWorkers callers : Nat)
    (events : List (Event C)) (p : Process D U)
    (run : Run (Steps (Process.step? program)) (.start user numWorkers callers) events p) :
    p.shared.freed = [] ∧ p.shared.touched = false ∨
      ∃ i, ∀ (later : List (Event C)) (p' : Process D U),
        Run (Steps (Process.step? program)) p later p' → p.Stopped i p' := by
  have frees : p.Frees :=
    run.invariant (fun frees stepped => frees.step stepped) (Process.frees_start user numWorkers callers)
  obtain ⟨none_, whole, -⟩ | ⟨i, freed, exited⟩ := frees.freed
  · exact .inl ⟨none_, whole⟩
  · refine .inr ⟨i, fun later p' run' => ?_⟩
    exact (run'.invariant (P := fun p' => p'.Frees ∧ p.Stopped i p')
      (fun ⟨frees, stopped⟩ stepped => ⟨frees.step stepped, stopped.step frees stepped⟩)
      ⟨frees, frees.stopped freed exited⟩).2

/-- Two workers and a shutdown: the first exits, and the second waits for ever. -/
theorem first_exit_stops_sample : ∃ p : Process Nat Nat, p.shared.touched = true ∧
    ∀ (later : List (Event Nat)) (p' : Process Nat Nat),
      Run (Steps (Process.step? Program.sums)) p later p' → p'.threads[1]? = some (.worker .lock) := by
  obtain ⟨p, run, ended⟩ := exists_run_of_any (Process.step? Program.sums) (.start 0 2 1)
    ([2, 2, 2, 2, 0, 0, 0, 0, 2].map fun i => .thread i ⟨true, 0, 0⟩)
    (fun p => p.threads[0]? = some (.worker .exited) ∧ p.threads[1]? = some (.worker .lock) ∧
      p.shared.touched = true) (by decide +kernel)
  obtain ⟨exited, waits, touched⟩ := of_decide_eq_true ended
  refine ⟨p, touched, fun later p' run' => ?_⟩
  obtain ⟨-, whole⟩ | ⟨i, stops⟩ := first_exit_stops Program.sums 0 2 1 _ p run
  · rw [touched] at whole
    cases whole
  · exact (stops later p' run').waits 1 _ waits trivial

end Fdfs2qq.Common
