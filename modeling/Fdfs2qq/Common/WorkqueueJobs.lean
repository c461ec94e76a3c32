import Fdfs2qq.Common.WorkqueueProofs

/-! What the functions of the jobs keep, in whatever order the workers run them. The
pool is reduced to two bags, of the jobs that were not begun and of those in hand. -/
namespace Fdfs2qq.Common
open Lib

variable {D U C : Type*} {program : Program D U C} {i : Nat} {q q' : Workqueue D U} {t t' : Thread}

/-- A step, by what it does to the state that the jobs work on. -/
inductive Thread.Uses (program : Program D U C) (q q' : Workqueue D U) : Thread → Thread → Prop where
  | prepare (c : C) (user : U) : program.prepare c q.user = some (none, user) →
      q' = { q with user := user } → Uses program q q' (.caller .idle) (.caller .idle)
  | create (c : C) (data : D) (user : U) : program.prepare c q.user = some (some data, user) →
      q' = { q with user := user, jobs := q.jobs ++ [data] } →
      Uses program q q' (.caller .idle) (.caller (.addLock q.jobs.length))
  | work (c : C) (job : Nat) (data : D) (user : U) : q.jobs[job]? = some data →
      program.jobFunction data c q.user = some (false, user) →
      q' = { q with user := user } → Uses program q q' (.worker (.run job)) (.worker (.run job))
  | done (c : C) (job : Nat) (data : D) (user : U) : q.jobs[job]? = some data →
      program.jobFunction data c q.user = some (true, user) →
      q' = { q with user := user, finished := q.finished ++ [job] } →
      Uses program q q' (.worker (.run job)) (.worker .lock)
  | other : q'.user = q.user → q'.jobs = q.jobs → q'.finished = q.finished → Uses program q q' u u'

theorem Thread.uses_of_step {o : Choice C} (stepped : t.step program i o q = some (t', q')) :
    t.Uses program q q' t' := by
  cases t with
  | worker w =>
    cases w with
    | run job =>
      simp only [step, Worker.step, Option.map_eq_some_iff, Option.bind_eq_some_iff, Prod.exists] at stepped
      obtain ⟨w, r, ⟨data, found, returned, user, called, same⟩, last⟩ := stepped
      cases last
      cases returned with
      | true =>
        cases same
        exact .done o.own job data user found called rfl
      | false =>
        cases same
        exact .work o.own job data user found called rfl
    | _ =>
      have moves := moves_of_step stepped
      cases moves with
      | worker moves => cases moves <;> exact .other rfl rfl rfl
  | caller c =>
    cases c with
    | idle =>
      simp only [step, Caller.step] at stepped
      split at stepped
      next =>
        cases stepped
        exact .other rfl rfl rfl
      next =>
        simp only [Option.map_eq_some_iff, Prod.exists] at stepped
        obtain ⟨c, r, ⟨data, user, called, same⟩, last⟩ := stepped
        cases last
        cases data with
        | none =>
          cases same
          exact .prepare o.own user called rfl
        | some data =>
          cases same
          exact .create o.own data user called rfl
    | _ =>
      have moves := moves_of_step stepped
      cases moves with
      | caller moves => cases moves <;> exact .other rfl rfl rfl

def Workqueue.data (q : Workqueue D U) (jobs : Multiset Nat) : Multiset D := jobs.filterMap (q.jobs[·]?)

theorem Workqueue.data_cons {job : Nat} {data : D} (found : q.jobs[job]? = some data) (jobs : Multiset Nat) :
    q.data (job ::ₘ jobs) = data ::ₘ q.data jobs := Multiset.filterMap_cons_some _ _ _ found

theorem Workqueue.data_append {jobs : Multiset Nat} {data : D} (same : q'.jobs = q.jobs ++ [data])
    (inside : ∀ job ∈ jobs, job < q.jobs.length) : q'.data jobs = q.data jobs := by
  induction jobs using Multiset.induction_on with
  | empty => rfl
  | cons job jobs ih =>
    obtain ⟨here, inside⟩ := Multiset.forall_mem_cons.mp inside
    rw [data_cons (List.getElem?_eq_getElem here), data_cons (q := q'), ih inside]
    rw [same, List.getElem?_append_left here, List.getElem?_eq_getElem here]

namespace Process

variable {p p' : Process D U} {stack stack' : List Nat} {made began ended : Multiset Nat}

/-- The jobs that no worker has begun. Those that a shutdown dropped stay here. -/
def idle (p : Process D U) : Multiset Nat :=
  p.shared.waiting + p.shared.dropped + Pool.total Thread.adding p.threads

def running (p : Process D U) : Multiset Nat := Pool.total Thread.inHand p.threads

theorem Accounts.idle_eq (accounts : p.Accounts stack) (made began : Multiset Nat) (accounts' : p'.Accounts stack')
    (added : p'.shared.added + Pool.total Thread.adding p'.threads =
      p.shared.added + Pool.total Thread.adding p.threads + made)
    (taken : (p'.shared.taken : Multiset Nat) = p.shared.taken + began) :
    p'.idle + began = p.idle + made := by
  apply add_right_cancel (b := (↑p.shared.taken : Multiset Nat))
  calc p'.idle + began + p.shared.taken
      = p'.shared.added + Pool.total Thread.adding p'.threads := by
        rw [idle, accounts'.waiting_eq, accounts'.added, taken]
        abel
    _ = p.idle + made + p.shared.taken := by
        rw [added, idle, accounts.waiting_eq, accounts.added]
        abel

theorem Accounts.running_eq (accounts : p.Accounts stack) (began ended : Multiset Nat) (accounts' : p'.Accounts stack')
    (taken : (p'.shared.taken : Multiset Nat) = p.shared.taken + began)
    (finished : (p'.shared.finished : Multiset Nat) = p.shared.finished + ended) :
    p'.running + ended = p.running + began := by
  apply add_left_cancel (a := (p.shared.finished : Multiset Nat))
  calc (p.shared.finished : Multiset Nat) + (p'.running + ended)
      = p'.shared.taken := by
        rw [accounts'.taken, finished, running]
        abel
    _ = p.shared.finished + (p.running + began) := by
        rw [taken, accounts.taken, running]
        abel

theorem Accounts.bags_eq (accounts : p.Accounts stack) (accounts' : p'.Accounts stack')
    (added : p'.shared.added + Pool.total Thread.adding p'.threads =
      p.shared.added + Pool.total Thread.adding p.threads)
    (taken : p'.shared.taken = p.shared.taken) (finished : p'.shared.finished = p.shared.finished) :
    p'.idle = p.idle ∧ p'.running = p.running := by
  have idle := accounts.idle_eq 0 0 accounts' (by simpa using added) (by simp [taken])
  have running := accounts.running_eq 0 0 accounts' (by simp [taken]) (by simp [finished])
  exact ⟨by simpa using idle, by simpa using running⟩

theorem Accounts.lt_of_mem_idle (accounts : p.Accounts stack) {job : Nat} (mem : job ∈ p.idle) :
    job < p.shared.jobs.length := by
  apply accounts.made
  rw [accounts.added, ← accounts.waiting_eq]
  simp only [idle, Multiset.mem_add] at mem ⊢
  tauto

theorem Accounts.lt_of_mem_running (accounts : p.Accounts stack) {job : Nat} (mem : job ∈ p.running) :
    job < p.shared.jobs.length := by
  apply accounts.made
  rw [accounts.added, accounts.taken]
  simp only [running, Multiset.mem_add] at mem ⊢
  tauto

end Process

/-- Every step of the client code keeps the assertion, on its state and on the data of
the jobs not begun and of those in hand. -/
structure Program.Keeps (program : Program D U C) (A : U → Multiset D → Multiset D → Prop) : Prop where
  prepare : ∀ {c user user' idle running}, A user idle running →
    program.prepare c user = some (none, user') → A user' idle running
  create : ∀ {c user user' data idle running}, A user idle running →
    program.prepare c user = some (some data, user') → A user' (data ::ₘ idle) running
  start : ∀ {user data idle running}, A user (data ::ₘ idle) running → A user idle (data ::ₘ running)
  work : ∀ {c user user' data idle running}, A user idle (data ::ₘ running) →
    program.jobFunction data c user = some (false, user') → A user' idle (data ::ₘ running)
  done : ∀ {c user user' data idle running}, A user idle (data ::ₘ running) →
    program.jobFunction data c user = some (true, user') → A user' idle running

variable {A : U → Multiset D → Multiset D → Prop}

def Process.Meets (p : Process D U) (A : U → Multiset D → Multiset D → Prop) : Prop :=
  A p.shared.user (p.shared.data p.idle) (p.shared.data p.running)

namespace Process

variable {p p' : Process D U} {stack stack' : List Nat}

theorem running_cons {job : Nat} (found : p.threads[i]? = some (.worker (.run job))) :
    p.running = job ::ₘ Pool.total Thread.inHand (p.threads.set i (.worker .lock)) := by
  have hand := Pool.total_set Thread.inHand (.worker .lock) found
  rw [running, ← Multiset.singleton_add, add_comm]
  simpa [Thread.inHand] using hand.symm

theorem Meets.thread (keeps : program.Keeps A) (meets : p.Meets A) (accounts : p.Accounts stack)
    (found : p.threads[i]? = some t) (uses : t.Uses program p.shared q t') (works : t.Works p.shared q t') :
    Meets ⟨q, p.threads.set i t'⟩ A := by
  obtain ⟨stack', accounts'⟩ := accounts.thread found works
  have adding := Pool.total_set Thread.adding t' found
  simp only [Meets] at meets ⊢
  cases uses with
  | prepare c user called same =>
    subst same
    obtain ⟨idle, running⟩ := accounts.bags_eq accounts' (by simpa [Thread.adding] using adding) rfl rfl
    rw [idle, running]
    exact keeps.prepare meets called
  | create c data user called same =>
    have adds : Pool.total Thread.adding (p.threads.set i (.caller (.addLock p.shared.jobs.length))) =
        Pool.total Thread.adding p.threads + {p.shared.jobs.length} := by simpa [Thread.adding] using adding
    have idle := accounts.idle_eq {p.shared.jobs.length} 0 accounts'
      (by simp only [same, adds, add_assoc]) (by simp [same])
    have running := accounts.running_eq 0 0 accounts' (by simp [same]) (by simp [same])
    rw [add_zero, add_comm, Multiset.singleton_add] at idle
    rw [add_zero, add_zero] at running
    have jobs : q.jobs = p.shared.jobs ++ [data] := by rw [same]
    have user' : q.user = user := by rw [same]
    rw [idle, running, user']
    rw [Workqueue.data_cons (q := q) (by rw [jobs]; exact List.getElem?_concat_length),
      Workqueue.data_append jobs fun job => accounts.lt_of_mem_idle,
      Workqueue.data_append jobs fun job => accounts.lt_of_mem_running]
    exact keeps.create meets called
  | work c job data user inside called same =>
    subst same
    obtain ⟨idle, running⟩ := accounts.bags_eq accounts' (by simpa [Thread.adding] using adding) rfl rfl
    rw [running_cons found, Workqueue.data_cons inside] at meets
    have kept := keeps.work meets called
    rw [← Workqueue.data_cons inside, ← running_cons found] at kept
    rw [idle, running]
    exact kept
  | done c job data user inside called same =>
    have adds : Pool.total Thread.adding (p.threads.set i (.worker .lock)) =
        Pool.total Thread.adding p.threads := by simpa [Thread.adding] using adding
    have idle := accounts.idle_eq 0 0 accounts' (by simp only [same, adds, add_zero])
      (by simp [same])
    rw [add_zero, add_zero] at idle
    rw [running_cons found, Workqueue.data_cons inside] at meets
    subst same
    rw [idle]
    exact keeps.done meets called
  | other user jobs finished =>
    have data (bag : Multiset Nat) : q.data bag = p.shared.data bag := by rw [Workqueue.data, jobs, Workqueue.data]
    rw [user, data, data]
    cases works with
    | create data user same =>
      rw [same] at jobs
      exact absurd jobs (by simp)
    | done job user same =>
      rw [same] at finished
      exact absurd finished (by simp)
    | add job same =>
      have adds : Pool.total Thread.adding (p.threads.set i (.caller .signal)) + {job} =
          Pool.total Thread.adding p.threads := by simpa [Thread.adding] using adding
      obtain ⟨idle, running⟩ := accounts.bags_eq accounts'
        (by
          simp only [same, Workqueue.addJob, ← adds, ← Multiset.coe_add, Multiset.coe_singleton]
          abel)
        (by simp [same, Workqueue.addJob]) (by simp [same, Workqueue.addJob])
      rw [idle, running]
      exact meets
    | take job head same =>
      simp only [Workqueue.takeJob, head] at same
      have adds : Pool.total Thread.adding (p.threads.set i (.worker (.unlock (some job)))) =
          Pool.total Thread.adding p.threads := by simpa [Thread.adding] using adding
      have taken : (q.taken : Multiset Nat) = p.shared.taken + {job} := by
        rw [same, ← Multiset.coe_singleton, Multiset.coe_add]
      have idle := accounts.idle_eq 0 {job} accounts' (by simp only [same, adds, add_zero]) taken
      have running := accounts.running_eq {job} 0 accounts' taken (by simp [same])
      rw [add_zero, add_comm, Multiset.singleton_add] at idle
      rw [add_zero, add_comm p.running, Multiset.singleton_add] at running
      have inside := accounts.lt_of_mem_idle (idle ▸ Multiset.mem_cons_self job _)
      have found := List.getElem?_eq_getElem inside
      rw [← idle, Workqueue.data_cons found] at meets
      rw [running, Workqueue.data_cons found]
      exact keeps.start meets
    | clear same =>
      have adds : Pool.total Thread.adding (p.threads.set i (.caller .broadcast)) =
          Pool.total Thread.adding p.threads := by simpa [Thread.adding] using adding
      obtain ⟨idle, running⟩ := accounts.bags_eq accounts' (by simp only [same, adds]) (by simp [same])
        (by simp [same])
      rw [idle, running]
      exact meets
    | other sameHand sameAdds same =>
      simp only [Workqueue.work, Prod.mk.injEq] at same
      obtain ⟨-, -, -, added, taken, -, finished⟩ := same
      rw [sameAdds, add_left_inj] at adding
      obtain ⟨idle, running⟩ := accounts.bags_eq accounts' (by simp only [added, adding]) taken finished
      rw [idle, running]
      exact meets

theorem Meets.step {e : Event C} (keeps : program.Keeps A) (meets : p.Meets A) (accounts : p.Accounts stack)
    (stepped : p.step? program e = some p') : p'.Meets A := by
  obtain ⟨i, o, t, t', q, rfl, found, moves, moved, rfl⟩ | ⟨i, rfl, rfl⟩ := Process.step_cases stepped
  · exact meets.thread keeps accounts found (Thread.uses_of_step moved) moves.works
  · exact meets

end Process

/-- What the client code keeps, every run of the pool keeps. -/
theorem Program.Keeps.run {user : U} {numWorkers callers : Nat} {events : List (Event C)} {p : Process D U}
    (keeps : program.Keeps A) (initial : A user 0 0)
    (run : Run (Steps (Process.step? program)) (.start user numWorkers callers) events p) : p.Meets A := by
  have start : Process.Meets (.start user numWorkers callers) A := by
    simpa [Process.Meets, Process.idle, Process.running, Process.start, Pool.total, Thread.adding,
      Thread.inHand, Workqueue.waiting, Workqueue.data] using initial
  have both : p.Meets A ∧ ∃ stack, p.Accounts stack := by
    refine run.invariant (P := fun p => p.Meets A ∧ ∃ stack, p.Accounts stack) ?_
      ⟨start, [], Process.accounts_start user numWorkers callers⟩
    rintro p label p' ⟨meets, stack, accounts⟩ stepped
    exact ⟨meets.step keeps accounts stepped, accounts.step stepped⟩
  exact both.1

end Fdfs2qq.Common
