import Mathlib.Algebra.Order.Group.Multiset
import Mathlib.Tactic.Abel
import Fdfs2qq.Common.WorkqueueSteps

/-! Jobs over whole runs of the pool. A job that was added is on the list, with a
worker, finished, or was dropped by a shutdown, and it is taken once. -/
namespace Fdfs2qq.Common
open Lib

variable {D U C : Type*} {program : Program D U C} {i : Nat} {q q' : Workqueue D U} {t t' : Thread}

def Worker.holds : Worker → Bool
  | .lock | .asleep | .run _ => false
  | _ => true

def Caller.holds : Caller → Bool
  | .add _ | .signal | .addUnlock | .clearWorkers | .clearJobs | .broadcast | .shutdownUnlock => true
  | _ => false

def Thread.holds : Thread → Bool
  | .worker w => w.holds
  | .caller c => c.holds

/-- What is known of a thread from where it stands. -/
structure Thread.Sound (i : Nat) (t : Thread) (q : Workqueue D U) : Prop where
  mutex : t.holds = true ↔ q.mutex = some i
  empty : t = .worker .terminate ∨ t = .worker .wait → q.waitingJobs = none
  sleeping : i ∈ q.sleeping → t = .worker .asleep

/-- What a move does to the mutex, to the list and to the sleepers. -/
structure Thread.Framed (i : Nat) (q : Workqueue D U) (t t' : Thread) (q' : Workqueue D U) : Prop where
  mutex : t.holds = t'.holds ∧ q'.mutex = q.mutex ∨
    t.holds = false ∧ t'.holds = true ∧ q.mutex = none ∧ q'.mutex = some i ∨
    t.holds = true ∧ t'.holds = false ∧ q'.mutex = none
  list : t.holds = true ∨ q'.waitingJobs = q.waitingJobs
  sleeping : ∀ j ∈ q'.sleeping, j ∈ q.sleeping ∨ j = i ∧ t' = .worker .asleep
  empty : t' = .worker .terminate ∨ t' = .worker .wait →
    q'.waitingJobs = q.waitingJobs ∧
      (t = .worker .terminate ∨ t = .worker .wait ∨ q.waitingJobs = none)
  awake : t = .worker .asleep → i ∉ q'.sleeping

theorem Thread.Moves.framed (moves : t.Moves i q t' q') : t.Framed i q t' q' := by
  cases moves with
  | worker moves =>
    cases moves with
    | lock free => exact ⟨.inr (.inl ⟨rfl, rfl, free, rfl⟩), .inr rfl, fun _ => .inl, nofun, nofun⟩
    | wake awake free =>
      exact ⟨.inr (.inl ⟨rfl, rfl, free, rfl⟩), .inr rfl, fun _ => .inl, nofun, fun _ => awake⟩
    | empty empty =>
      exact ⟨.inl ⟨rfl, rfl⟩, .inr rfl, fun _ => .inl, fun _ => ⟨rfl, .inr (.inr empty)⟩, nofun⟩
    | on => exact ⟨.inl ⟨rfl, rfl⟩, .inr rfl, fun _ => .inl, fun _ => ⟨rfl, .inl rfl⟩, nofun⟩
    | sleep =>
      refine ⟨.inr (.inr ⟨rfl, rfl, rfl⟩), .inr rfl, fun j mem => ?_, nofun, nofun⟩
      exact (List.mem_append.mp mem).imp_right fun mem => ⟨List.mem_singleton.mp mem, rfl⟩
    | again | start => exact ⟨.inr (.inr ⟨rfl, rfl, rfl⟩), .inr rfl, fun _ => .inl, nofun, nofun⟩
    | take => exact ⟨.inl ⟨rfl, rfl⟩, .inl rfl, fun _ => .inl, nofun, nofun⟩
    | _ => exact ⟨.inl ⟨rfl, rfl⟩, .inr rfl, fun _ => .inl, nofun, nofun⟩
  | caller moves =>
    cases moves with
    | lock _ free | lock' free =>
      exact ⟨.inr (.inl ⟨rfl, rfl, free, rfl⟩), .inr rfl, fun _ => .inl, nofun, nofun⟩
    | signal => exact ⟨.inl ⟨rfl, rfl⟩, .inr rfl, fun _ mem => .inl (List.mem_of_mem_eraseIdx mem), nofun, nofun⟩
    | broadcast => exact ⟨.inl ⟨rfl, rfl⟩, .inr rfl, nofun, nofun, nofun⟩
    | unlock | unlock' => exact ⟨.inr (.inr ⟨rfl, rfl, rfl⟩), .inr rfl, fun _ => .inl, nofun, nofun⟩
    | add | clearJobs => exact ⟨.inl ⟨rfl, rfl⟩, .inl rfl, fun _ => .inl, nofun, nofun⟩
    | _ => exact ⟨.inl ⟨rfl, rfl⟩, .inr rfl, fun _ => .inl, nofun, nofun⟩

theorem Thread.Framed.own (framed : t.Framed i q t' q') (sound : t.Sound i q) : t'.Sound i q' := by
  constructor
  · obtain ⟨same, kept⟩ | ⟨-, held, -, taken⟩ | ⟨-, left, free⟩ := framed.mutex
    · rw [← same, kept]
      exact sound.mutex
    · exact iff_of_true held taken
    · exact iff_of_false (by simp [left]) (by simp [free])
  · intro place
    obtain ⟨kept, before⟩ := framed.empty place
    rw [kept]
    exact before.elim (fun h => sound.empty (.inl h)) fun h => h.elim (fun h => sound.empty (.inr h)) id
  · intro mem
    obtain before | ⟨-, asleep⟩ := framed.sleeping i mem
    · exact absurd mem (framed.awake (sound.sleeping before))
    · exact asleep

theorem Thread.Framed.others (framed : t.Framed i q t' q') (sound : t.Sound i q) {j : Nat} {u : Thread}
    (other : j ≠ i) (kept : u.Sound j q) : u.Sound j q' := by
  have apart : q.mutex = some i → q.mutex ≠ some j := fun mine yours =>
    other (Option.some.inj (yours.symm.trans mine))
  constructor
  · obtain ⟨-, same⟩ | ⟨-, -, free, taken⟩ | ⟨held, -, free⟩ := framed.mutex
    · rw [same]
      exact kept.mutex
    · rw [kept.mutex, free, taken]
      exact iff_of_false nofun fun same => other (Option.some.inj same).symm
    · rw [kept.mutex, free]
      exact iff_of_false (apart (sound.mutex.mp held)) nofun
  · intro place
    obtain held | same := framed.list
    · have mine : u.holds = true := by obtain rfl | rfl := place <;> rfl
      exact absurd (kept.mutex.mp mine) (apart (sound.mutex.mp held))
    · rw [same]
      exact kept.empty place
  · intro mem
    obtain before | ⟨same, -⟩ := framed.sleeping j mem
    · exact kept.sleeping before
    · exact absurd same other

def Process.Sound (p : Process D U) : Prop := p.Valid Thread.Sound

theorem Process.Sound.step {p p' : Process D U} {e : Event C} (sound : p.Sound)
    (stepped : p.step? program e = some p') : p'.Sound := by
  obtain ⟨i, o, t, t', q, rfl, found, moves, -, rfl⟩ | ⟨i, rfl, rfl⟩ := Process.step_cases stepped
  · have framed := moves.framed
    have own := sound i t found
    exact Pool.Valid.thread sound (framed.own own) fun j u other _ kept => framed.others own other kept
  · refine Pool.Valid.around sound fun j u _ kept => ⟨kept.mutex, kept.empty, fun mem => ?_⟩
    exact kept.sleeping (List.mem_of_mem_erase mem)

theorem Process.sound_start (user : U) (numWorkers callers : Nat) :
    (Process.start user numWorkers callers : Process D U).Sound := by
  intro i t found
  have mem := List.mem_of_getElem? found
  simp only [Process.start, List.mem_append, List.mem_replicate] at mem
  obtain ⟨-, rfl⟩ | ⟨-, rfl⟩ := mem
  all_goals exact ⟨iff_of_false nofun nofun, nofun, nofun⟩

def Thread.inHand : Thread → Multiset Nat
  | .worker (.unlock (some job)) | .worker (.run job) => {job}
  | _ => 0

def Thread.adding : Thread → Multiset Nat
  | .caller (.addLock job) | .caller (.add job) => {job}
  | _ => 0

/-- The jobs made, added, taken, dropped and finished, and the list. -/
def Workqueue.work (q : Workqueue D U) :=
  (q.jobItems, q.waitingJobs, q.jobs.length, q.added, q.taken, q.dropped, q.finished)

/-- What a move does to the jobs. -/
inductive Thread.Works (q q' : Workqueue D U) : Thread → Thread → Prop where
  | create (data : D) (user : U) : q' = { q with user := user, jobs := q.jobs ++ [data] } →
      Works q q' (.caller .idle) (.caller (.addLock q.jobs.length))
  | add (job : Nat) : q' = q.addJob job → Works q q' (.caller (.add job)) (.caller .signal)
  | take (job : Nat) : q.waitingJobs = some job → q' = q.takeJob.2 →
      Works q q' (.worker .take) (.worker (.unlock (some job)))
  | done (job : Nat) (user : U) : q' = { q with user := user, finished := q.finished ++ [job] } →
      Works q q' (.worker (.run job)) (.worker .lock)
  | clear : q' = { q with waitingJobs := none, dropped := q.dropped ++ q.waiting } →
      Works q q' (.caller .clearJobs) (.caller .broadcast)
  | other : Thread.inHand u = Thread.inHand u' → u.adding = u'.adding → q'.work = q.work → Works q q' u u'

theorem Thread.Moves.works (moves : t.Moves i q t' q') : t.Works q q' t' := by
  cases moves with
  | worker moves =>
    cases moves with
    | take job found =>
      refine .take job found ?_
      simp only [Workqueue.takeJob, found]
    | done job user => exact .done job user rfl
    | _ => exact .other rfl rfl rfl
  | caller moves =>
    cases moves with
    | create data user => exact .create data user rfl
    | add job => exact .add job rfl
    | clearJobs => exact .clear rfl
    | _ => exact .other rfl rfl rfl

/-- `stack` is the list of waiting jobs. -/
structure Process.Accounts (p : Process D U) (stack : List Nat) : Prop where
  chained : Chained p.shared.jobItems p.shared.waitingJobs stack
  distinct : ((p.shared.added : Multiset Nat) + Pool.total Thread.adding p.threads).Nodup
  made : ∀ job ∈ (p.shared.added : Multiset Nat) + Pool.total Thread.adding p.threads,
    job < p.shared.jobs.length
  added : (p.shared.added : Multiset Nat) = stack + p.shared.taken + p.shared.dropped
  taken : (p.shared.taken : Multiset Nat) = p.shared.finished + Pool.total Thread.inHand p.threads
  newestFirst : stack.Sublist p.shared.added.reverse

namespace Process.Accounts

variable {p : Process D U} {stack : List Nat}

theorem added_nodup (accounts : p.Accounts stack) : p.shared.added.Nodup :=
  Multiset.coe_nodup.mp (Multiset.nodup_of_le (Multiset.le_add_right _ _) accounts.distinct)

theorem stack_nodup (accounts : p.Accounts stack) : stack.Nodup :=
  accounts.newestFirst.nodup (List.nodup_reverse.mpr accounts.added_nodup)

theorem waiting_eq (accounts : p.Accounts stack) : p.shared.waiting = stack := by
  apply follow_of_chained accounts.chained
  have inside : stack ⊆ List.range p.shared.jobs.length := fun job mem => List.mem_range.mpr <|
    accounts.made job (Multiset.mem_add.mpr (.inl (List.mem_reverse.mp (accounts.newestFirst.mem mem))))
  simpa using (accounts.stack_nodup.subperm inside).length_le

theorem thread (accounts : p.Accounts stack) (found : p.threads[i]? = some t)
    (works : t.Works p.shared q t') : ∃ stack', Accounts ⟨q, p.threads.set i t'⟩ stack' := by
  have hand := Pool.total_set Thread.inHand t' found
  have adds := Pool.total_set Thread.adding t' found
  have distinct_ := accounts.distinct
  have made_ := accounts.made
  cases works with
  | create data user same =>
    subst same
    have adds' : Pool.total Thread.adding (p.threads.set i (.caller (.addLock p.shared.jobs.length))) =
        Pool.total Thread.adding p.threads + {p.shared.jobs.length} := by simpa [Thread.adding] using adds
    have hand' : Pool.total Thread.inHand (p.threads.set i (.caller (.addLock p.shared.jobs.length))) =
        Pool.total Thread.inHand p.threads := by simpa [Thread.inHand] using hand
    refine ⟨stack, accounts.chained, ?_, ?_, accounts.added, ?_, accounts.newestFirst⟩
    · simp only [adds', ← add_assoc]
      rw [add_comm, Multiset.singleton_add, Multiset.nodup_cons]
      exact ⟨fun mem => lt_irrefl _ (made_ _ mem), distinct_⟩
    · intro job mem
      simp only [adds', ← add_assoc, Multiset.mem_add, Multiset.mem_singleton] at mem made_ ⊢
      rw [List.length_append]
      obtain before | rfl := mem
      · exact Nat.lt_add_right _ (made_ job before)
      · simp
    · simp only [hand']
      exact accounts.taken
  | add job same =>
    subst same
    have adds' : Pool.total Thread.adding (p.threads.set i (.caller .signal)) + {job} =
        Pool.total Thread.adding p.threads := by simpa [Thread.adding] using adds
    have hand' : Pool.total Thread.inHand (p.threads.set i (.caller .signal)) =
        Pool.total Thread.inHand p.threads := by simpa [Thread.inHand] using hand
    have moved : ((p.shared.added ++ [job] : List Nat) : Multiset Nat) +
        Pool.total Thread.adding (p.threads.set i (.caller .signal)) =
          p.shared.added + Pool.total Thread.adding p.threads := by
      rw [← adds', ← Multiset.coe_add, Multiset.coe_singleton]
      abel
    have fresh : job ∉ stack := by
      intro mem
      have inAdded : job ∈ (p.shared.added : Multiset Nat) :=
        List.mem_reverse.mp (accounts.newestFirst.mem mem)
      rw [← adds'] at distinct_
      exact Multiset.disjoint_left.mp (Multiset.nodup_add.mp distinct_).2.2 inAdded (by simp)
    refine ⟨job :: stack, accounts.chained.add fresh, ?_, ?_, ?_, ?_, ?_⟩
    · exact moved.symm ▸ distinct_
    · exact moved.symm ▸ made_
    · simp only [Workqueue.addJob, ← Multiset.coe_add, accounts.added, ← Multiset.cons_coe,
        ← Multiset.singleton_add]
      abel
    · simp only [Workqueue.addJob, hand']
      exact accounts.taken
    · simp only [Workqueue.addJob, List.reverse_append, List.reverse_singleton, List.singleton_append]
      exact accounts.newestFirst.cons_cons job
  | take job head same =>
    subst same
    have adds' : Pool.total Thread.adding (p.threads.set i (.worker (.unlock (some job)))) =
        Pool.total Thread.adding p.threads := by simpa [Thread.adding] using adds
    have hand' : Pool.total Thread.inHand (p.threads.set i (.worker (.unlock (some job)))) =
        Pool.total Thread.inHand p.threads + {job} := by simpa [Thread.inHand] using hand
    obtain ⟨rest, rfl⟩ : ∃ rest, stack = job :: rest := by
      have chained := accounts.chained
      cases stack with
      | nil => exact absurd head (by rw [chained]; nofun)
      | cons first rest => exact ⟨rest, by rw [Option.some.inj (chained.1.symm.trans head)]⟩
    have removed := accounts.chained.remove accounts.stack_nodup
    simp only [Workqueue.takeJob, head] at removed ⊢
    refine ⟨rest, removed, ?_, ?_, ?_, ?_, ?_⟩
    · simpa only [adds'] using distinct_
    · simpa only [adds'] using made_
    · rw [accounts.added]
      simp only [← Multiset.cons_coe, ← Multiset.singleton_add, ← Multiset.coe_add]
      abel
    · simp only [hand', ← Multiset.coe_add, accounts.taken, Multiset.coe_singleton]
      abel
    · exact (List.sublist_cons_self job rest).trans accounts.newestFirst
  | done job user same =>
    subst same
    have adds' : Pool.total Thread.adding (p.threads.set i (.worker .lock)) =
        Pool.total Thread.adding p.threads := by simpa [Thread.adding] using adds
    have hand' : Pool.total Thread.inHand (p.threads.set i (.worker .lock)) + {job} =
        Pool.total Thread.inHand p.threads := by simpa [Thread.inHand] using hand
    refine ⟨stack, accounts.chained, ?_, ?_, accounts.added, ?_, accounts.newestFirst⟩
    · simpa only [adds'] using distinct_
    · simpa only [adds'] using made_
    · simp only [accounts.taken, ← hand', ← Multiset.coe_add, Multiset.coe_singleton]
      abel
  | clear same =>
    subst same
    have adds' : Pool.total Thread.adding (p.threads.set i (.caller .broadcast)) =
        Pool.total Thread.adding p.threads := by simpa [Thread.adding] using adds
    have hand' : Pool.total Thread.inHand (p.threads.set i (.caller .broadcast)) =
        Pool.total Thread.inHand p.threads := by simpa [Thread.inHand] using hand
    refine ⟨[], rfl, ?_, ?_, ?_, ?_, List.nil_sublist _⟩
    · simpa only [adds'] using distinct_
    · simpa only [adds'] using made_
    · simp only [accounts.added, accounts.waiting_eq, ← Multiset.coe_add, Multiset.coe_nil]
      abel
    · simpa only [hand'] using accounts.taken
  | other sameHand sameAdds same =>
    simp only [Workqueue.work, Prod.mk.injEq] at same
    obtain ⟨items, head, jobs, added, taken, dropped, finished⟩ := same
    rw [sameHand, add_left_inj] at hand
    rw [sameAdds, add_left_inj] at adds
    refine ⟨stack, ?_, ?_, ?_, ?_, ?_, ?_⟩
    · simpa only [items, head] using accounts.chained
    · simpa only [added, adds] using distinct_
    · simpa only [added, adds, jobs] using made_
    · simpa only [added, taken, dropped] using accounts.added
    · simpa only [taken, finished, hand] using accounts.taken
    · simpa only [added] using accounts.newestFirst

theorem step {p p' : Process D U} {e : Event C} (accounts : p.Accounts stack)
    (stepped : p.step? program e = some p') : ∃ stack', p'.Accounts stack' := by
  obtain ⟨i, o, t, t', q, rfl, found, moves, -, rfl⟩ | ⟨i, rfl, rfl⟩ := Process.step_cases stepped
  · exact accounts.thread found moves.works
  · exact ⟨stack, accounts.chained, accounts.distinct, accounts.made, accounts.added, accounts.taken,
      accounts.newestFirst⟩

end Process.Accounts

theorem Process.accounts_start (user : U) (numWorkers callers : Nat) :
    (Process.start user numWorkers callers : Process D U).Accounts [] := by
  have adding : Pool.total Thread.adding
      (Process.start user numWorkers callers : Process D U).threads = 0 := by
    simp [Pool.total, Process.start, Thread.adding]
  have inHand : Pool.total Thread.inHand
      (Process.start user numWorkers callers : Process D U).threads = 0 := by
    simp [Pool.total, Process.start, Thread.inHand]
  refine ⟨rfl, ?_, ?_, rfl, ?_, List.nil_sublist _⟩
  · rw [adding]
    simp [Process.start]
  · rw [adding]
    simp [Process.start]
  · rw [inHand]
    simp [Process.start]

/-- In every run of the pool every job that was added is at one place: on the list,
with one worker, finished, or dropped by a shutdown. No job is taken twice, and the
list has the newest job first. -/
theorem jobs_conserved (program : Program D U C) (user : U) (numWorkers callers : Nat)
    (events : List (Event C)) (p : Process D U)
    (run : Run (Steps (Process.step? program)) (.start user numWorkers callers) events p) :
    p.shared.added.Nodup ∧
      (p.shared.added : Multiset Nat) = p.shared.waiting + p.shared.finished +
        Pool.total Thread.inHand p.threads + p.shared.dropped ∧
      p.shared.waiting.Sublist p.shared.added.reverse := by
  obtain ⟨stack, accounts⟩ : ∃ stack, p.Accounts stack :=
    run.invariant (P := fun p => ∃ stack, p.Accounts stack)
      (fun ⟨_, accounts⟩ stepped => accounts.step stepped)
      ⟨[], Process.accounts_start user numWorkers callers⟩
  rw [accounts.waiting_eq]
  refine ⟨accounts.added_nodup, ?_, accounts.newestFirst⟩
  rw [accounts.added, accounts.taken, ← add_assoc]

def Program.sums : Program Nat Nat Nat where
  prepare n total := some (some n, total)
  jobFunction n _ total := some (true, total + n)

/-- Two jobs, of which the second is finished and the first is in hand. -/
theorem jobs_conserved_sample : ∃ p : Process Nat Nat, p.shared.user = 4 ∧
    (p.shared.added : Multiset Nat) = p.shared.waiting + p.shared.finished +
      Pool.total Thread.inHand p.threads + p.shared.dropped := by
  obtain ⟨p, run, ended⟩ := exists_run_of_any (Process.step? Program.sums) (.start 0 1 1)
    (List.replicate 5 (.thread 1 ⟨false, 0, 3⟩) ++ List.replicate 5 (.thread 1 ⟨false, 0, 4⟩) ++
      List.replicate 10 (.thread 0 ⟨false, 0, 0⟩))
    (fun p => p.shared.user = 4) (by decide +kernel)
  exact ⟨p, of_decide_eq_true ended, (jobs_conserved Program.sums 0 1 1 _ p run).2.1⟩

end Fdfs2qq.Common
