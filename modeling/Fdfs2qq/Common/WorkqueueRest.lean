import Fdfs2qq.Common.WorkqueueProofs

/-! The pool while no shutdown is called. No signal is lost: the threads that are
neither asleep nor in a job run out of steps, and then a job waits only while every
worker runs one. -/
namespace Fdfs2qq.Common
open Lib

variable {D U C : Type*} {program : Program D U C} {i : Nat} {q q' : Workqueue D U} {t t' : Thread}

def Thread.Rests (i : Nat) (q : Workqueue D U) : Thread → Prop
  | .worker .asleep => i ∈ q.sleeping
  | .worker (.run _) | .caller .idle => True
  | _ => False

instance Thread.Rests.decidable (i : Nat) (q : Workqueue D U) : (t : Thread) → Decidable (t.Rests i q)
  | .worker .asleep => inferInstanceAs (Decidable (i ∈ q.sleeping))
  | .worker (.run _) | .caller .idle => isTrue trivial
  | .worker .lock | .worker .jobs | .worker .terminate | .worker .wait | .worker .terminate'
  | .worker .take | .worker (.unlock _) | .worker .exited => isFalse id
  | .caller (.addLock _) | .caller (.add _) | .caller .signal | .caller .addUnlock | .caller (.walk _)
  | .caller (.next _) | .caller .shutdownLock | .caller .clearWorkers | .caller .clearJobs
  | .caller .broadcast | .caller .shutdownUnlock => isFalse id

/-- The step is none that calls `workqueue_shutdown`. -/
def Process.Serves (p : Process D U) : Event C → Prop
  | .thread i o => o.shutdown = true → p.threads[i]? ≠ some (.caller .idle)
  | .around _ => True

def Process.Busy (p : Process D U) : Event C → Prop
  | .thread i _ => ∃ t, p.threads[i]? = some t ∧ ¬ t.Rests i p.shared
  | .around _ => False

instance (p : Process D U) : (e : Event C) → Decidable (p.Serves e)
  | .thread i o => inferInstanceAs (Decidable (o.shutdown = true → p.threads[i]? ≠ some (.caller .idle)))
  | .around _ => isTrue trivial

instance (p : Process D U) : (e : Event C) → Decidable (p.Busy e)
  | .thread i _ =>
    match found : p.threads[i]? with
    | none => isFalse fun ⟨_, same, _⟩ => by rw [found] at same; cases same
    | some t => decidable_of_iff (¬ t.Rests i p.shared) (by simp [Process.Busy, found])
  | .around _ => isFalse id

theorem Process.Busy.serves {p : Process D U} {e : Event C} (busy : p.Busy e) : p.Serves e := by
  cases e with
  | thread i o =>
    obtain ⟨t, found, awake⟩ := busy
    intro _ idle
    obtain rfl := Option.some.inj (found.symm.trans idle)
    exact awake trivial
  | around => cases busy

def Thread.looks : Thread → Nat
  | .worker (.unlock (some _)) | .worker (.run _) | .worker .exited => 0
  | .worker _ => 1
  | .caller .signal => 1
  | .caller _ => 0

/-- How many steps are left at most, a sleeper counted as awake. -/
def Thread.rank : Thread → Nat
  | .worker .lock | .worker .asleep => 6
  | .worker .jobs => 5
  | .worker .terminate | .worker .terminate' => 4
  | .worker .wait | .worker .take => 3
  | .worker (.unlock _) => 2
  | .caller (.addLock _) => 10
  | .caller (.add _) => 9
  | .caller .signal => 8
  | .caller .addUnlock => 1
  | _ => 0

/-- A bound on the steps until all threads rest. -/
def Process.busyness (p : Process D U) : Nat :=
  Pool.total Thread.rank p.threads - 6 * p.shared.sleeping.length

/-- Where a thread may stand while no shutdown was called. -/
def Thread.serving : Thread → Bool
  | .worker (.unlock none) | .worker .exited => false
  | .worker _ => true
  | .caller .idle | .caller (.addLock _) | .caller (.add _) | .caller .signal | .caller .addUnlock => true
  | .caller _ => false

structure Thread.Calm (t : Thread) (q : Workqueue D U) : Prop where
  serving : t.serving = true
  found : t = .worker .terminate' ∨ t = .worker .take → q.waitingJobs ≠ none

/-- No signal is lost: where someone sleeps, for every waiting job someone will look. -/
structure Process.Calm (p : Process D U) : Prop where
  sound : p.Sound
  accounts : ∃ stack, p.Accounts stack
  calm : ∀ (i : Nat) (t : Thread), p.threads[i]? = some t → t.Calm p.shared
  going : ∀ i, p.shared.terminate i = false
  holder : ∀ i ∈ p.shared.mutex, i < p.threads.length
  distinct : p.shared.sleeping.Nodup
  sleepers : ∀ i ∈ p.shared.sleeping, i < p.threads.length
  counted : p.shared.sleeping = [] ∨ p.shared.added.length + p.shared.sleeping.length ≤
    p.shared.taken.length + p.shared.dropped.length + Pool.total Thread.looks p.threads

/-- What a move does to the sleepers, the flags, the counts and the weights. -/
inductive Thread.Turns (i : Nat) (q q' : Workqueue D U) : Thread → Thread → Prop where
  | sleep : q'.sleeping = q.sleeping ++ [i] → q'.terminate = q.terminate → q'.mutex = none →
      q'.added = q.added → q'.taken = q.taken → q'.dropped = q.dropped →
      Turns i q q' (.worker .wait) (.worker .asleep)
  | signal (n : Nat) : q'.sleeping = q.sleeping.eraseIdx (n % q.sleeping.length) →
      q'.terminate = q.terminate → q'.mutex = q.mutex →
      q'.added = q.added → q'.taken = q.taken → q'.dropped = q.dropped →
      Turns i q q' (.caller .signal) (.caller .addUnlock)
  | other : q'.sleeping = q.sleeping → q'.terminate = q.terminate →
      (∀ j ∈ q'.mutex, j = i ∨ q.mutex = some j) → u'.serving = true →
      (u' = .worker .terminate' ∨ u' = .worker .take →
        q'.waitingJobs ≠ none ∨ (u = .worker .terminate' ∧ q'.waitingJobs = q.waitingJobs)) →
      (q'.added.length + (q.taken.length + q.dropped.length + u.looks) ≤
        q.added.length + (q'.taken.length + q'.dropped.length + u'.looks)) →
      (Thread.Rests i q u ∨ u'.rank < u.rank) → Turns i q q' u u'

theorem Thread.Moves.turns (moves : t.Moves i q t' q') (calm : t.Calm q)
    (going : ∀ j, q.terminate j = false) (serves : t = .caller .idle → ∀ r, t' ≠ .caller (.walk r)) :
    t.Turns i q q' t' := by
  have mine : ∀ j ∈ some i, j = i ∨ q.mutex = some j := fun j same => .inl (Option.some.inj same).symm
  have free : ∀ j ∈ (none : Option Nat), j = i ∨ q.mutex = some j := nofun
  have kept : ∀ j ∈ q.mutex, j = i ∨ q.mutex = some j := fun j same => .inr same
  cases moves with
  | worker moves =>
    cases moves with
    | stop stop | exit stop => exact absurd stop (by simp [going])
    | miss empty => exact absurd empty (calm.found (.inr rfl))
    | again => exact absurd calm.serving (by decide)
    | sleep => exact .sleep rfl rfl rfl rfl rfl rfl
    | filled filled =>
      exact .other rfl rfl kept rfl (fun _ => .inl filled) (by simp [looks]) (.inr (by simp [rank]))
    | stay =>
      exact .other rfl rfl kept rfl (fun _ => .inr ⟨rfl, rfl⟩) (by simp [looks]) (.inr (by simp [rank]))
    | take =>
      exact .other rfl rfl kept rfl nofun (by simp only [looks, List.length_append, List.length_cons, List.length_nil]; omega) (.inr (by simp [rank]))
    | lock | wake => exact .other rfl rfl mine rfl nofun (by simp [looks]) (.inr (by simp [rank]))
    | start => exact .other rfl rfl free rfl nofun (by simp [looks, Workqueue.release]) (.inr (by simp [rank]))
    | work | done => exact .other rfl rfl kept rfl nofun (by simp [looks]) (.inl trivial)
    | _ => exact .other rfl rfl kept rfl nofun (by simp [looks]) (.inr (by simp [rank]))
  | caller moves =>
    cases moves with
    | shutdown => exact absurd rfl (serves rfl _)
    | signal n => exact .signal n rfl rfl rfl rfl rfl rfl
    | prepare | create => exact .other rfl rfl kept rfl nofun (by simp [looks]) (.inl trivial)
    | lock => exact .other rfl rfl mine rfl nofun (by simp [looks]) (.inr (by simp [rank]))
    | add => exact .other rfl rfl kept rfl nofun (by simp only [looks, List.length_append, List.length_cons, List.length_nil]; omega) (.inr (by simp [rank]))
    | unlock =>
      exact .other rfl rfl free rfl nofun (by simp [looks, Workqueue.release]) (.inr (by simp [rank]))
    | _ => exact absurd calm.serving (by simp [Thread.serving])

/-- A signal wakes one sleeper, if there is one. -/
theorem length_eraseIdx_mod (sleeping : List Nat) (n : Nat) :
    (sleeping.eraseIdx (n % sleeping.length)).length + 1 = sleeping.length ∨
      sleeping = [] ∧ sleeping.eraseIdx (n % sleeping.length) = [] := by
  cases sleeping with
  | nil => exact .inr ⟨rfl, rfl⟩
  | cons j rest =>
    left
    rw [List.length_eraseIdx_of_lt (Nat.mod_lt _ (by simp))]
    simp

namespace Process.Calm

variable {p p' : Process D U} {e : Event C}

/-- The sleepers are in `pthread_cond_wait`. -/
theorem asleep (calm : p.Calm) {j : Nat} (mem : j ∈ p.shared.sleeping) :
    p.threads[j]? = some (.worker .asleep) := by
  have found := List.getElem?_eq_getElem (calm.sleepers j mem)
  rw [found, (calm.sound j _ found).sleeping mem]

theorem six_sleepers (calm : p.Calm) :
    6 * p.shared.sleeping.length ≤ Pool.total Thread.rank p.threads :=
  Pool.mul_length_le_total calm.distinct fun _ mem => ⟨_, calm.asleep mem, le_rfl⟩

/-- The sleepers and one worker that is about to sleep would all look. -/
theorem sleepers_lt (calm : p.Calm) (found : p.threads[i]? = some (.worker .wait)) :
    p.shared.sleeping.length < Pool.total Thread.looks p.threads := by
  have away : i ∉ p.shared.sleeping := fun mem => nomatch (calm.sound i _ found).sleeping mem
  have all : 1 * (i :: p.shared.sleeping).length ≤ Pool.total Thread.looks p.threads :=
    Pool.mul_length_le_total (List.nodup_cons.mpr ⟨away, calm.distinct⟩) fun j mem => by
      obtain rfl | mem := List.mem_cons.mp mem
      · exact ⟨_, found, le_rfl⟩
      · exact ⟨_, calm.asleep mem, le_rfl⟩
  rw [List.length_cons] at all
  omega

theorem length_waiting (calm : p.Calm) : p.shared.added.length =
    p.shared.waiting.length + p.shared.taken.length + p.shared.dropped.length := by
  obtain ⟨stack, accounts⟩ := calm.accounts
  rw [accounts.waiting_eq]
  simpa [Nat.add_assoc] using congrArg Multiset.card accounts.added

theorem thread (calm : p.Calm) (found : p.threads[i]? = some t) (moves : t.Moves i p.shared t' q)
    (serves : t = .caller .idle → ∀ r, t' ≠ .caller (.walk r)) :
    Process.Calm (⟨q, p.threads.set i t'⟩ : Process D U) := by
  have own := calm.sound i t found
  have framed := moves.framed
  have turns := moves.turns (calm.calm i t found) calm.going serves
  have inside : i < p.threads.length := (List.getElem?_eq_some_iff.mp found).1
  have looks := Pool.total_set Thread.looks t' found
  have sound : Process.Sound (⟨q, p.threads.set i t'⟩ : Process D U) :=
    Pool.Valid.thread calm.sound (framed.own own) fun j u other _ kept => framed.others own other kept
  obtain ⟨stack, accounts⟩ := calm.accounts
  have accounts' := accounts.thread found moves.works
  have others : ∀ j u, j ≠ i → p.threads[j]? = some u → u.Calm q := by
    intro j u other found'
    obtain ⟨serving, there⟩ := calm.calm j u found'
    refine ⟨serving, fun place => ?_⟩
    obtain held | same := framed.list
    · have mine : u.holds = true := by obtain rfl | rfl := place <;> rfl
      have theirs := (calm.sound j u found').mutex.mp mine
      exact absurd (Option.some.inj (theirs.symm.trans (own.mutex.mp held))) other
    · rw [same]
      exact there place
  have calm' (here : t'.Calm q) : ∀ (j : Nat) (u : Thread), (p.threads.set i t')[j]? = some u → u.Calm q := by
    intro j u found'
    rw [List.getElem?_set] at found'
    split at found'
    next same =>
      exact Option.some.inj found' ▸ here
    next other => exact others j u (Ne.symm other) found'
  cases turns with
  | sleep sleeping terminate mutex added taken dropped =>
    have away : i ∉ p.shared.sleeping := fun mem => nomatch own.sleeping mem
    have empty := own.empty (.inr rfl)
    have none_ : p.shared.waiting.length = 0 := by
      rw [accounts.waiting_eq, (accounts.chained.eq_nil_iff.mp empty)]
      rfl
    have counts := calm.length_waiting
    have less := calm.sleepers_lt found
    simp only [Thread.looks] at looks
    refine ⟨sound, accounts', calm' ⟨rfl, nofun⟩, ?_, ?_, ?_, ?_, ?_⟩
    · simpa only [terminate] using calm.going
    · simp [mutex]
    · simp only [sleeping]
      exact List.nodup_append.mpr ⟨calm.distinct, List.nodup_singleton i, fun a mem b mem' => by
        rw [List.mem_singleton.mp mem']
        exact ne_of_mem_of_not_mem mem away⟩
    · intro j mem
      simp only [sleeping, List.mem_append, List.mem_singleton] at mem
      rw [List.length_set]
      obtain mem | rfl := mem
      · exact calm.sleepers j mem
      · exact inside
    · right
      simp only [sleeping, added, taken, dropped, List.length_append, List.length_singleton]
      omega
  | signal n sleeping terminate mutex added taken dropped =>
    simp only [Thread.looks] at looks
    have shorter := length_eraseIdx_mod p.shared.sleeping n
    rw [← sleeping] at shorter
    refine ⟨sound, accounts', calm' ⟨rfl, nofun⟩, ?_, ?_, ?_, ?_, ?_⟩
    · simpa only [terminate] using calm.going
    · simpa only [mutex, List.length_set] using calm.holder
    · simp only [sleeping]
      exact calm.distinct.eraseIdx _
    · intro j mem
      simp only [sleeping] at mem
      rw [List.length_set]
      exact calm.sleepers j (List.mem_of_mem_eraseIdx mem)
    · obtain shorter | ⟨-, empty⟩ := shorter
      · refine calm.counted.imp (fun none_ => ?_) fun counted => ?_
        · simp [none_] at shorter
        · simp only [added, taken, dropped]
          omega
      · exact .inl empty
  | other sleeping terminate mutex serving place counts less =>
    have before := calm.calm i t found
    refine ⟨sound, accounts', calm' ⟨serving, fun at_ => ?_⟩, ?_, ?_, ?_, ?_, ?_⟩
    · refine (place at_).elim id fun ⟨here, same⟩ => ?_
      rw [same]
      exact before.found (.inl here)
    · simpa only [terminate] using calm.going
    · intro j mem
      rw [List.length_set]
      obtain rfl | held := mutex j mem
      · exact inside
      · exact calm.holder j held
    · simpa only [sleeping] using calm.distinct
    · simpa only [sleeping, List.length_set] using calm.sleepers
    · simp only [sleeping]
      refine calm.counted.imp id fun counted => ?_
      omega

theorem less (calm : p.Calm) (found : p.threads[i]? = some t) (moves : t.Moves i p.shared t' q)
    (awake : ¬ t.Rests i p.shared) : Process.busyness (⟨q, p.threads.set i t'⟩ : Process D U) < p.busyness := by
  have serves : t = .caller .idle → ∀ r, t' ≠ .caller (.walk r) := by
    rintro rfl
    exact absurd trivial awake
  have six := (calm.thread found moves serves).six_sleepers
  have rank := Pool.total_set Thread.rank t' found
  simp only [busyness]
  cases moves.turns (calm.calm i t found) calm.going serves with
  | sleep sleeping =>
    simp only [sleeping, List.length_append, List.length_singleton, Thread.rank] at six rank ⊢
    omega
  | signal n sleeping =>
    have shorter := length_eraseIdx_mod p.shared.sleeping n
    rw [← sleeping] at shorter
    simp only [Thread.rank] at six rank
    obtain shorter | ⟨before, after⟩ := shorter
    · omega
    · simp only [before, after, List.length_nil]
      omega
  | other sleeping _ _ _ _ _ less =>
    have less := less.resolve_left awake
    simp only [sleeping] at six ⊢
    omega

theorem step (calm : p.Calm) (serves : p.Serves e) (stepped : p.step? program e = some p') : p'.Calm := by
  obtain ⟨i, o, t, t', q, rfl, found, moves, moved, rfl⟩ | ⟨i, rfl, rfl⟩ := Process.step_cases stepped
  · refine calm.thread found moves fun idle r walk => ?_
    subst idle walk
    have call : o.shutdown ≠ true := fun call => serves call found
    simp only [Thread.step, Caller.step, call, if_false, Bool.false_eq_true] at moved
    obtain ⟨⟨c, r'⟩, inner, same⟩ := Option.map_eq_some_iff.mp moved
    obtain ⟨⟨data, user⟩, -, inner⟩ := Option.map_eq_some_iff.mp inner
    cases data <;> cases inner <;> cases same
  · have sound : Process.Sound (⟨{ p.shared with sleeping := p.shared.sleeping.erase i }, p.threads⟩ : Process D U) :=
      Pool.Valid.around calm.sound fun j u _ kept => ⟨kept.mutex, kept.empty, fun mem =>
        kept.sleeping (List.mem_of_mem_erase mem)⟩
    obtain ⟨stack, accounts⟩ := calm.accounts
    refine ⟨sound, ⟨stack, accounts.chained, accounts.distinct, accounts.made, accounts.added,
      accounts.taken, accounts.newestFirst⟩, fun j u found => ?_, calm.going, calm.holder,
      calm.distinct.erase i, fun j mem => calm.sleepers j (List.mem_of_mem_erase mem), ?_⟩
    · exact ⟨(calm.calm j u found).serving, (calm.calm j u found).found⟩
    · refine calm.counted.imp (fun none_ => ?_) fun counted => ?_
      · simp [none_]
      · have shorter := List.length_erase_le (a := i) (l := p.shared.sleeping)
        simp only
        omega

theorem busy_step (calm : p.Calm) (busy : p.Busy e) (stepped : p.step? program e = some p') :
    p'.busyness < p.busyness := by
  obtain ⟨i, o, t, t', q, rfl, found, moves, -, rfl⟩ | ⟨i, rfl, -⟩ := Process.step_cases stepped
  · obtain ⟨u, found', awake⟩ := busy
    obtain rfl := Option.some.inj (found'.symm.trans found)
    exact calm.less found moves awake
  · exact busy.elim

end Process.Calm

/-- Who has the mutex is never held up. -/
theorem Thread.step_of_holds (program : Program D U C) (held : t.holds = true) (serving : t.serving = true) (o : Choice C) :
    ¬ t.Rests i q ∧ (t.step program i o q).isSome = true := by
  cases t with
  | worker w =>
    cases w with
    | lock | asleep | run | exited => contradiction
    | terminate' =>
      simp only [Rests, step, Worker.step]
      split <;> exact ⟨id, rfl⟩
    | unlock job => cases job <;> exact ⟨id, rfl⟩
    | _ => exact ⟨id, rfl⟩
  | caller c =>
    cases c with
    | add | signal | addUnlock => exact ⟨id, rfl⟩
    | _ => contradiction

/-- Where the mutex is free, a thread that does not have it either rests or can move. -/
theorem Thread.step_of_free (program : Program D U C) (free : q.mutex = none) (away : t.holds = false) (serving : t.serving = true)
    (o : Choice C) : t.Rests i q ∨ (t.step program i o q).isSome = true := by
  have taken : (q.acquire i).isSome = true := by simp [Workqueue.acquire, free]
  cases t with
  | worker w =>
    cases w with
    | lock => exact .inr (by simpa [step, Worker.step] using taken)
    | asleep =>
      by_cases mem : i ∈ q.sleeping
      · exact .inl mem
      · exact .inr (by simpa [step, Worker.step, mem] using taken)
    | run => exact .inl trivial
    | _ => contradiction
  | caller c =>
    cases c with
    | idle => exact .inl trivial
    | addLock => exact .inr (by simpa [step, Caller.step] using taken)
    | _ => contradiction

namespace Process.Calm

variable {p : Process D U}

theorem rests_of_stuck [Inhabited C] (calm : p.Calm)
    (stuck : ∀ e : Event C, p.Busy e → p.step? program e = none) :
    p.shared.mutex = none ∧ ∀ (i : Nat) (t : Thread), p.threads[i]? = some t → t.Rests i p.shared := by
  have still : ∀ (i : Nat) (t : Thread), p.threads[i]? = some t → ¬ t.Rests i p.shared →
      (t.step program i ⟨false, 0, default⟩ p.shared).isSome = false := by
    intro i t found awake
    have blocked := stuck (.thread i ⟨false, 0, default⟩) ⟨t, found, awake⟩
    simp only [Process.step?, Pool.step?, found, Option.bind_some, Option.map_eq_none_iff] at blocked
    rw [blocked]
    rfl
  have free : p.shared.mutex = none := by
    by_contra taken
    obtain ⟨j, holder⟩ := Option.ne_none_iff_exists'.mp taken
    have found := List.getElem?_eq_getElem (calm.holder j holder)
    have held := (calm.sound j _ found).mutex.mpr holder
    obtain ⟨awake, moves⟩ := Thread.step_of_holds (i := j) (q := p.shared) program held
      (calm.calm j _ found).serving ⟨false, 0, default⟩
    rw [still j _ found awake] at moves
    cases moves
  refine ⟨free, fun i t found => ?_⟩
  by_contra awake
  have away : t.holds = false := by
    rw [← Bool.not_eq_true, (calm.sound i t found).mutex, free]
    exact (Option.some_ne_none i).symm
  obtain rests | moves := Thread.step_of_free program free away
    (calm.calm i t found).serving ⟨false, 0, default⟩
  · exact awake rests
  · rw [still i t found awake] at moves
    cases moves

/-- Where all threads rest, a job waits only while no worker sleeps. -/
theorem waiting_of_rests (calm : p.Calm)
    (rests : ∀ (i : Nat) (t : Thread), p.threads[i]? = some t → t.Rests i p.shared) :
    p.shared.sleeping = [] ∨ p.shared.waiting = [] := by
  refine calm.counted.imp id fun counted => List.eq_nil_of_length_eq_zero ?_
  have light : Pool.total Thread.looks p.threads ≤ 1 * p.shared.sleeping.length :=
    Pool.total_le_mul_length fun i t found => by
      have rests := rests i t found
      cases t with
      | worker w =>
        cases w with
        | asleep => exact ⟨le_rfl, .inr rests⟩
        | run => exact ⟨Nat.zero_le _, .inl rfl⟩
        | _ => exact rests.elim
      | caller c =>
        cases c with
        | idle => exact ⟨Nat.zero_le _, .inl rfl⟩
        | _ => exact rests.elim
  have counts := calm.length_waiting
  omega

end Process.Calm

theorem Process.calm_start (user : U) (numWorkers callers : Nat) :
    (Process.start user numWorkers callers : Process D U).Calm := by
  refine ⟨sound_start user numWorkers callers, ⟨[], accounts_start user numWorkers callers⟩,
    fun i t found => ?_, fun _ => rfl, fun i held => ?_, List.nodup_nil,
    fun i asleep => absurd asleep List.not_mem_nil, .inl rfl⟩
  · have mem := List.mem_of_getElem? found
    simp only [Process.start, List.mem_append, List.mem_replicate] at mem
    obtain ⟨-, rfl⟩ | ⟨-, rfl⟩ := mem <;> exact ⟨rfl, by simp⟩
  · cases held

/-- In every run without a shutdown the threads outside of the jobs come to rest,
whatever the order of their steps, with the mutex free. A job waits then only while
every worker runs a job. -/
theorem pool_settles [Inhabited C] (program : Program D U C) (user : U) (numWorkers callers : Nat)
    (events busy : List (Event C)) (p p' : Process D U)
    (run : Run (Within Process.Serves (Steps (Process.step? program))) (.start user numWorkers callers)
      events p)
    (later : Run (Within Process.Busy (Steps (Process.step? program))) p busy p') :
    busy.length ≤ p.busyness ∧
      ((∀ e : Event C, p'.Busy e → p'.step? program e = none) →
        p'.shared.mutex = none ∧
        (∀ (i : Nat) (t : Thread), p'.threads[i]? = some t → t.Rests i p'.shared) ∧
        (p'.shared.waiting ≠ [] → ∀ (i : Nat) (w : Worker), p'.threads[i]? = some (.worker w) →
          ∃ job, w = .run job)) := by
  have calm : p.Calm := run.invariant (fun calm ⟨serves, stepped⟩ => calm.step serves stepped)
    (Process.calm_start user numWorkers callers)
  refine ⟨later.length_le (P := Process.Calm) (fun calm ⟨busy, stepped⟩ =>
    ⟨calm.step busy.serves stepped, calm.busy_step busy stepped⟩) calm, fun stuck => ?_⟩
  have calm' : p'.Calm := later.invariant (fun calm ⟨busy, stepped⟩ => calm.step busy.serves stepped) calm
  obtain ⟨free, rests⟩ := calm'.rests_of_stuck stuck
  refine ⟨free, rests, fun waits i w found => ?_⟩
  have awake := (calm'.waiting_of_rests rests).resolve_right waits
  have rests := rests i _ found
  cases w with
  | run job => exact ⟨job, rfl⟩
  | asleep => simp [Thread.Rests, awake] at rests
  | _ => exact rests.elim

/-- One worker and two jobs: it takes the second, and the first waits. -/
theorem pool_settles_sample : ∃ p : Process Nat Nat, p.shared.mutex = none ∧ p.shared.waiting = [0] ∧
    ∀ w, p.threads[0]? = some (.worker w) → ∃ job, w = .run job := by
  obtain ⟨p, run, continues⟩ := exists_run_within_of_any Process.Serves (Process.step? Program.sums)
    (.start 0 1 1)
    (List.replicate 5 (.thread 1 ⟨false, 0, 3⟩) ++ List.replicate 5 (.thread 1 ⟨false, 0, 4⟩))
    (fun p : Process Nat Nat => ((List.replicate 5 (.thread 0 ⟨false, 0, 0⟩ : Event Nat)).foldlM
      (fun (p : Process Nat Nat) e => if p.Busy e then Process.step? Program.sums p e else none) p).any fun (p : Process Nat Nat) =>
        p.threads = [.worker (.run 1), .caller .idle] ∧ p.shared.waiting = [0])
    (by decide +kernel)
  obtain ⟨p', later, ended⟩ := exists_run_within_of_any Process.Busy (Process.step? Program.sums) p _ _ continues
  obtain ⟨threads, waiting⟩ := of_decide_eq_true ended
  obtain ⟨free, -, working⟩ := (pool_settles Program.sums 0 1 1 _ _ p p' run later).2 fun e busy => by
    cases e with
    | thread i o =>
      obtain ⟨t, found, awake⟩ := busy
      rw [threads] at found
      match i with
      | 0 | 1 =>
        cases found
        exact absurd trivial awake
      | _ + 2 => cases found
    | around => exact busy.elim
  exact ⟨p', free, waiting, working (by simp [waiting]) 0⟩

end Fdfs2qq.Common
