import Fdfs2qq.Common.Workqueue

/-! What the lists of the work queue hold, and what one step of a thread is. -/
namespace Fdfs2qq.Common
open Lib

/-- The items from the head on, none of them linked back. -/
def Chained (items : Items) : Option Nat → List Nat → Prop
  | head, [] => head = none
  | head, item :: rest => head = some item ∧ (items item).prev = none ∧ Chained items (items item).next rest

variable {items : Items} {head : Option Nat} {item : Nat} {stack : List Nat}

theorem Chained.congr {items' : Items} (chained : Chained items head stack)
    (same : ∀ item ∈ stack, items' item = items item) : Chained items' head stack := by
  induction stack generalizing head with
  | nil => exact chained
  | cons item rest ih =>
    obtain ⟨here, unlinked, chained⟩ := chained
    rw [List.forall_mem_cons] at same
    refine ⟨here, by rw [same.1]; exact unlinked, ?_⟩
    rw [same.1]
    exact ih chained same.2

theorem Chained.add (chained : Chained items head stack) (fresh : item ∉ stack) :
    Chained (llAdd items head item).1 (llAdd items head item).2 (item :: stack) := by
  simp only [llAdd]
  refine ⟨rfl, by rw [Function.update_self], ?_⟩
  rw [Function.update_self]
  exact chained.congr fun other mem => Function.update_of_ne (ne_of_mem_of_not_mem mem fresh) ..

/-- Only the head is ever taken off, so no link back is missed. -/
theorem Chained.remove (chained : Chained items head (item :: stack)) (distinct : (item :: stack).Nodup) :
    Chained (llRemove items head item).1 (llRemove items head item).2 stack := by
  obtain ⟨here, unlinked, chained⟩ := chained
  obtain ⟨fresh, -⟩ := List.nodup_cons.mp distinct
  simp only [llRemove, unlinked, here, if_true]
  refine @Chained.congr items _ stack _ ?_ ?_
  · cases next : (items item).next with
    | none => rwa [next] at chained ⊢
    | some next' =>
      rw [next] at chained
      simp only
      by_cases same : next' = item
      · -- the head does not follow itself
        cases stack with
        | nil => cases chained
        | cons first rest =>
          obtain ⟨first_, -⟩ := chained
          cases first_
          exact absurd (same ▸ List.mem_cons_self) fresh
      · rw [Function.update_of_ne (Ne.symm same), next]
        exact chained
  · intro other mem
    have away : other ≠ item := ne_of_mem_of_not_mem mem fresh
    rw [Function.update_of_ne away]
    cases next : (items item).next with
    | none => rfl
    | some next' =>
      by_cases same : other = next'
      · subst same
        simp only [Function.update_self]
        cases stack with
        | nil => cases mem
        | cons first rest =>
          obtain ⟨first_, free, -⟩ := chained
          rw [next] at first_
          cases first_
          exact congrArg (Links.mk · (items other).next) free.symm
      · simp only [Function.update_of_ne same]

theorem follow_of_chained (chained : Chained items head stack) (enough : stack.length ≤ fuel) :
    follow items fuel head = stack := by
  induction stack generalizing head fuel with
  | nil =>
    cases chained
    cases fuel <;> rfl
  | cons item rest ih =>
    obtain ⟨rfl, -, chained⟩ := chained
    cases fuel with
    | zero => cases enough
    | succ fuel => rw [follow, ih chained (Nat.le_of_succ_le_succ enough)]

theorem Chained.eq_nil_iff (chained : Chained items head stack) : head = none ↔ stack = [] := by
  cases stack with
  | nil => exact iff_of_true chained rfl
  | cons item rest => exact iff_of_false (by rw [chained.1]; nofun) (by simp)

variable {D U C : Type*} {program : Program D U C} {i : Nat} {o : Choice C} {q q' : Workqueue D U}

inductive Worker.Moves (i : Nat) (q : Workqueue D U) : Worker → Worker → Workqueue D U → Prop where
  | lock : q.mutex = none → Moves i q .lock .jobs { q with mutex := some i }
  | empty : q.waitingJobs = none → Moves i q .jobs .terminate q
  | filled : q.waitingJobs ≠ none → Moves i q .jobs .terminate' q
  | stop : q.terminate i = true → Moves i q .terminate .terminate' q
  | on : q.terminate i = false → Moves i q .terminate .wait q
  | sleep : Moves i q .wait .asleep { q.release with sleeping := q.sleeping ++ [i] }
  | wake : i ∉ q.sleeping → q.mutex = none → Moves i q .asleep .jobs { q with mutex := some i }
  | exit : q.terminate i = true → Moves i q .terminate' .exited { q with freed := q.freed ++ [i] }
  | stay : q.terminate i = false → Moves i q .terminate' .take q
  | miss : q.waitingJobs = none → Moves i q .take (.unlock none) q
  | take (job : Nat) : q.waitingJobs = some job → Moves i q .take (.unlock (some job))
      { q with
        jobItems := (llRemove q.jobItems q.waitingJobs job).1
        waitingJobs := (llRemove q.jobItems q.waitingJobs job).2
        taken := q.taken ++ [job] }
  | again : Moves i q (.unlock none) .lock q.release
  | start (job : Nat) : Moves i q (.unlock (some job)) (.run job) q.release
  | work (job : Nat) (user : U) : Moves i q (.run job) (.run job) { q with user := user }
  | done (job : Nat) (user : U) :
      Moves i q (.run job) .lock { q with user := user, finished := q.finished ++ [job] }

theorem acquire_eq_some (acquired : q.acquire i = some q') :
    q.mutex = none ∧ q' = { q with mutex := some i } := by
  obtain ⟨free, same⟩ := Option.ite_none_right_eq_some.mp acquired
  exact ⟨free, (Option.some.inj same).symm⟩

theorem Worker.moves_of_step {w w' : Worker} (stepped : w.step program i o q = some (w', q')) :
    w.Moves i q w' q' := by
  cases w with
  | lock =>
    obtain ⟨r, acquired, same⟩ := Option.map_eq_some_iff.mp stepped
    obtain ⟨free, rfl⟩ := acquire_eq_some acquired
    cases same
    exact .lock free
  | jobs =>
    cases stepped
    split
    next empty => exact .empty empty
    next filled => exact .filled filled
  | terminate =>
    cases stepped
    split
    next stop => exact .stop stop
    next on => exact .on (by simpa using on)
  | wait =>
    cases stepped
    exact .sleep
  | asleep =>
    obtain ⟨awake, moved⟩ := Option.ite_none_left_eq_some.mp stepped
    obtain ⟨r, acquired, same⟩ := Option.map_eq_some_iff.mp moved
    obtain ⟨free, rfl⟩ := acquire_eq_some acquired
    cases same
    exact .wake awake free
  | terminate' =>
    simp only [step] at stepped
    split at stepped
    next stop =>
      cases stepped
      exact .exit stop
    next on =>
      cases stepped
      exact .stay (by simpa using on)
  | take =>
    simp only [step, Workqueue.takeJob] at stepped
    split at stepped
    next empty =>
      cases stepped
      exact .miss empty
    next job found =>
      cases stepped
      exact .take job found
  | unlock job =>
    cases job with
    | none =>
      cases stepped
      exact .again
    | some job =>
      cases stepped
      exact .start job
  | run job =>
    obtain ⟨data, -, moved⟩ := Option.bind_eq_some_iff.mp stepped
    obtain ⟨⟨returned, user⟩, -, same⟩ := Option.map_eq_some_iff.mp moved
    cases returned with
    | false =>
      cases same
      exact .work job user
    | true =>
      cases same
      exact .done job user
  | exited => cases stepped

inductive Caller.Moves (i : Nat) (q : Workqueue D U) : Caller → Caller → Workqueue D U → Prop where
  | shutdown : Moves i q .idle (.walk q.workers) q
  | prepare (user : U) : Moves i q .idle .idle { q with user := user }
  | create (data : D) (user : U) : Moves i q .idle (.addLock q.jobs.length)
      { q with user := user, jobs := q.jobs ++ [data] }
  | lock (job : Nat) : q.mutex = none → Moves i q (.addLock job) (.add job) { q with mutex := some i }
  | add (job : Nat) : Moves i q (.add job) .signal
      { q with
        jobItems := (llAdd q.jobItems q.waitingJobs job).1
        waitingJobs := (llAdd q.jobItems q.waitingJobs job).2
        added := q.added ++ [job] }
  | signal (n : Nat) : Moves i q .signal .addUnlock
      { q with sleeping := q.sleeping.eraseIdx (n % q.sleeping.length) }
  | unlock : Moves i q .addUnlock .idle q.release
  | walked : Moves i q (.walk none) .shutdownLock q
  | walk (worker : Nat) : Moves i q (.walk (some worker)) (.next worker)
      { q with
        terminate := Function.update q.terminate worker true
        touched := q.touched || worker ∈ q.freed }
  | next (worker : Nat) : Moves i q (.next worker) (.walk (q.workerItems worker).next)
      { q with touched := q.touched || worker ∈ q.freed }
  | lock' : q.mutex = none → Moves i q .shutdownLock .clearWorkers { q with mutex := some i }
  | clearWorkers : Moves i q .clearWorkers .clearJobs { q with workers := none }
  | clearJobs : Moves i q .clearJobs .broadcast
      { q with waitingJobs := none, dropped := q.dropped ++ q.waiting }
  | broadcast : Moves i q .broadcast .shutdownUnlock { q with sleeping := [] }
  | unlock' : Moves i q .shutdownUnlock .idle q.release

theorem Caller.moves_of_step {c c' : Caller} (stepped : c.step program i o q = some (c', q')) :
    c.Moves i q c' q' := by
  cases c with
  | idle =>
    simp only [step] at stepped
    split at stepped
    next =>
      cases stepped
      exact .shutdown
    next =>
      obtain ⟨⟨data, user⟩, -, same⟩ := Option.map_eq_some_iff.mp stepped
      cases data with
      | none =>
        cases same
        exact .prepare user
      | some data =>
        cases same
        exact .create data user
  | addLock job =>
    obtain ⟨r, acquired, same⟩ := Option.map_eq_some_iff.mp stepped
    obtain ⟨free, rfl⟩ := acquire_eq_some acquired
    cases same
    exact .lock job free
  | shutdownLock =>
    obtain ⟨r, acquired, same⟩ := Option.map_eq_some_iff.mp stepped
    obtain ⟨free, rfl⟩ := acquire_eq_some acquired
    cases same
    exact .lock' free
  | walk worker =>
    cases worker <;> cases stepped <;> constructor
  | signal =>
    cases stepped
    exact .signal o.wake
  | _ => cases stepped; constructor

inductive Thread.Moves (i : Nat) (q : Workqueue D U) : Thread → Thread → Workqueue D U → Prop where
  | worker : Worker.Moves i q w w' r → Moves i q (.worker w) (.worker w') r
  | caller : Caller.Moves i q c c' r → Moves i q (.caller c) (.caller c') r

theorem Thread.moves_of_step {t t' : Thread} (stepped : t.step program i o q = some (t', q')) :
    t.Moves i q t' q' := by
  cases t with
  | worker w =>
    obtain ⟨⟨w', r⟩, moved, same⟩ := Option.map_eq_some_iff.mp stepped
    cases same
    exact .worker (Worker.moves_of_step moved)
  | caller c =>
    obtain ⟨⟨c', r⟩, moved, same⟩ := Option.map_eq_some_iff.mp stepped
    cases same
    exact .caller (Caller.moves_of_step moved)

/-- What one step of the process is. -/
theorem Process.step_cases {p p' : Process D U} {e : Event C} (stepped : p.step? program e = some p') :
    (∃ i o t t' q, e = .thread i o ∧ p.threads[i]? = some t ∧ t.Moves i p.shared t' q ∧
      t.step program i o p.shared = some (t', q) ∧ p' = ⟨q, p.threads.set i t'⟩) ∨
    ∃ i, e = .around i ∧ p' = ⟨{ p.shared with sleeping := p.shared.sleeping.erase i }, p.threads⟩ := by
  obtain ⟨i, o, t, t', q, rfl, found, moved, rfl⟩ | ⟨i, q, rfl, moved, rfl⟩ := Pool.step_cases stepped
  · exact .inl ⟨i, o, t, t', q, rfl, found, Thread.moves_of_step moved, moved, rfl⟩
  · cases moved
    exact .inr ⟨i, rfl, rfl⟩

end Fdfs2qq.Common
