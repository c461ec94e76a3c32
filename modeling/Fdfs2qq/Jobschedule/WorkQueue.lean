import Fdfs2qq.Jobschedule.Steps

/-! Work distribution. The counter counts attempts; an attempt that is neither
pending nor a message taken was made on an empty queue. -/
namespace Fdfs2qq.Jobschedule
open Lib Box

/-- Attempts that were counted and have not popped yet. -/
def Thread.pending : Thread → Nat
  | .producer .pop => 1
  | _ => 0

/-- The messages are taken in order, and while some are left every attempt
takes one. -/
structure Distributes (limits : Limits) (volumns : List Bytes) (p : Process) : Prop where
  inOrder : p.shared.taken.map Prod.snd ++ p.shared.gVolumnsMq = volumns
  counted : p.shared.gVolumnsMq = [] ∨
    p.shared.incSubdirCounts = p.shared.taken.length + Pool.total Thread.pending p.threads
  left : .producer .left ∈ p.threads → limits.maxSubdirCounts ≤ p.shared.incSubdirCounts

/-- What one step of a thread does to the messages. -/
inductive Thread.Works (limits : Limits) (i : Nat) (p q : ProducerCli) : Thread → Thread → Prop where
  | attempt : q.gVolumnsMq = p.gVolumnsMq → q.taken = p.taken →
      q.incSubdirCounts = p.incSubdirCounts + 1 →
      Works limits i p q (.producer .increment) (.producer .pop)
  | miss : t'.pending = 0 → t' ≠ .producer .left → p.gVolumnsMq = [] → q = p →
      Works limits i p q (.producer .pop) t'
  | take (msg : Bytes) : t'.pending = 0 → t' ≠ .producer .left → p.gVolumnsMq = msg :: q.gVolumnsMq →
      q.taken = p.taken ++ [(i, msg)] → q.incSubdirCounts = p.incSubdirCounts →
      Works limits i p q (.producer .pop) t'
  | other : t.pending = 0 → t'.pending = 0 →
      (t' = .producer .left → limits.maxSubdirCounts ≤ p.incSubdirCounts) →
      q.work = p.work → Works limits i p q t t'

theorem Thread.pending_eq_zero {w : WaitProducer} (other : w ≠ .pop) :
    (Thread.producer w).pending = 0 := by
  cases w with
  | pop => contradiction
  | _ => rfl

/-- Nothing is logged by an attempt that is pending, nor by a worker that has left. -/
theorem Thread.pending_of_silent {t : Thread} (fails : t.logs limits o p = false) :
    t.pending = 0 ∧ t ≠ .producer .left := by
  cases t with
  | producer w =>
    cases w with
    | pop | left => cases fails
    | _ => exact ⟨rfl, nofun⟩
  | listener w => exact ⟨rfl, nofun⟩

theorem Thread.Moves.works {t t' : Thread} (moves : t.Moves limits i o p t' q) :
    t.Works limits i p q t' := by
  have landed (msg : Bytes) : (Thread.producer (.popped msg)).pending = 0 ∧
      Thread.producer (.popped msg) ≠ .producer .left :=
    ⟨pending_eq_zero (WaitProducer.popped_ne_pop msg),
      fun same => WaitProducer.popped_ne_left msg (Thread.producer.inj same)⟩
  cases moves with
  | producer _ moves =>
    cases moves with
    | increment => exact .attempt rfl rfl rfl
    | miss empty => exact .miss (landed _).1 (landed _).2 empty rfl
    | @take msg rest queue => exact .take msg (landed msg).1 (landed msg).2 queue rfl rfl
    | leave enough => exact .other rfl rfl (fun _ => enough) rfl
    | connect _ _ connected | unconnected _ _ connected =>
      exact .other rfl rfl nofun (ProducerCli.work_of_offline (ProducerCli.offline_connect connected))
    | sent sent | unsent sent =>
      exact .other rfl rfl nofun (ProducerCli.work_of_offline (ProducerCli.offline_send sent))
    | received received | unreceived received =>
      exact .other rfl rfl nofun (ProducerCli.work_of_offline (ProducerCli.offline_receive received))
    | disconnect => exact .other rfl rfl nofun (ProducerCli.work_of_offline ProducerCli.offline_disconnect)
    | _ => exact .other rfl rfl nofun rfl
  | listener _ moves =>
    cases moves with
    | connect _ _ connected | refused _ _ connected =>
      exact .other rfl rfl nofun (ProducerCli.work_of_offline (ProducerCli.offline_connect connected))
    | sent _ _ _ sent =>
      have same := ProducerCli.work_of_offline (ProducerCli.offline_send sent)
      exact .other rfl rfl nofun same
    | astray _ _ _ sent | unsent _ _ sent =>
      exact .other rfl rfl nofun (ProducerCli.work_of_offline (ProducerCli.offline_send sent))
    | disconnect => exact .other rfl rfl nofun (ProducerCli.work_of_offline ProducerCli.offline_disconnect)
    | _ => exact .other rfl rfl nofun rfl
  | crash fails =>
    obtain ⟨quiet, stays⟩ := Thread.pending_of_silent fails
    exact .other quiet quiet (fun left => absurd left stays) rfl

theorem Distributes.thread {p : Process} (distributes : Distributes limits volumns p)
    (found : p.threads[i]? = some t) (works : t.Works limits i p.shared q t') :
    Distributes limits volumns ⟨q, p.threads.set i t'⟩ := by
  have sum := Pool.total_set Thread.pending t' found
  have arrives : .producer .left ∈ p.threads.set i t' →
      t' = .producer .left ∨ .producer .left ∈ p.threads := fun mem =>
    (List.mem_or_eq_of_mem_set mem).symm.imp_left Eq.symm
  obtain ⟨inOrder, counted, left⟩ := distributes
  cases works with
  | attempt queue taken inc =>
    constructor
    · simpa only [queue, taken] using inOrder
    · apply counted.imp (queue ▸ ·)
      intro counted
      simp only [Thread.pending] at sum
      simp only [inc, taken]
      omega
    · intro mem
      obtain same | mem := arrives mem
      · cases same
      · exact (left mem).trans (inc ▸ Nat.le_succ _)
  | miss quiet stays empty same =>
    subst same
    constructor
    · exact inOrder
    · exact .inl empty
    · exact fun mem => left ((arrives mem).resolve_left stays)
  | take msg quiet stays queue taken inc =>
    constructor
    · simpa [queue, taken] using inOrder
    · refine .inr ?_
      have counted := counted.resolve_left (by simp [queue])
      have once : Thread.pending (.producer .pop) = 1 := rfl
      rw [once, quiet] at sum
      simp only [inc, taken, List.length_append, List.length_singleton]
      omega
    · exact fun mem => inc ▸ left ((arrives mem).resolve_left stays)
  | other quiet quiet' stays same =>
    obtain ⟨queue, taken, inc⟩ : q.gVolumnsMq = p.shared.gVolumnsMq ∧ q.taken = p.shared.taken ∧
        q.incSubdirCounts = p.shared.incSubdirCounts := by
      simpa only [ProducerCli.work, Prod.mk.injEq] using same
    constructor
    · simpa only [queue, taken] using inOrder
    · apply counted.imp (queue ▸ ·)
      intro counted
      simp only [quiet, quiet'] at sum
      simp only [inc, taken]
      omega
    · intro mem
      simp only [inc]
      exact (arrives mem).elim stays left

theorem Distributes.step {p : Process} (distributes : Distributes limits volumns p)
    (stepped : Process.step? limits p event = some q) : Distributes limits volumns q := by
  obtain ⟨i, o, t, t', s, rfl, found, moves, rfl⟩ | ⟨fd, bytes, s, rfl, answers, rfl⟩ :=
    Process.step_cases stepped
  · exact distributes.thread found moves.works
  · obtain ⟨answered, link, rfl⟩ := answers.frame
    exact ⟨distributes.inOrder, distributes.counted, distributes.left⟩

theorem distributes_start (limits : Limits) (volumns : List Bytes) (producers listeners : Nat) :
    Distributes limits volumns (.start volumns producers listeners) := by
  have zero : Pool.total Thread.pending (Process.start volumns producers listeners).threads = 0 := by
    simp [Pool.total, Process.start, Thread.pending]
  constructor
  · rfl
  · exact .inr (by rw [zero]; rfl)
  · intro mem
    simp [Process.start] at mem

/-- The volumes of a run of the pool: messages leave in the order pushed, each
is taken once, and workers that all left leave nothing behind. -/
theorem volumns_distributed (limits : Limits) (volumns : List Bytes) (producers listeners : Nat)
    (events : List Event) (p : Process) (pushed : volumns.length = limits.maxSubdirCounts)
    (run : Run (Steps (Process.step? limits)) (.start volumns producers listeners) events p) :
    p.shared.taken.map Prod.snd ++ p.shared.gVolumnsMq = volumns ∧
      (0 < producers → (∀ w, .producer w ∈ p.threads → w = .left) →
        p.shared.gVolumnsMq = [] ∧ p.shared.taken.map Prod.snd = volumns) := by
  have distributes : Distributes limits volumns p :=
    run.invariant (fun distributes stepped => distributes.step stepped)
      (distributes_start limits volumns producers listeners)
  refine ⟨distributes.inOrder, fun filled left => ?_⟩
  have attempts : limits.maxSubdirCounts ≤ p.shared.incSubdirCounts := by
    have kinds := Process.run_isProducer run
    have mem : true ∈ p.threads.map Thread.isProducer := by
      rw [kinds, List.mem_append, List.mem_replicate]
      exact .inl ⟨by omega, rfl⟩
    obtain ⟨t, mem, isProducer⟩ := List.mem_map.mp mem
    cases t with
    | producer w => exact distributes.left (left w mem ▸ mem)
    | listener w => cases isProducer
  have settled : Pool.total Thread.pending p.threads = 0 := by
    apply List.sum_eq_zero
    intro n mem
    obtain ⟨t, inside, rfl⟩ := List.mem_map.mp mem
    cases t with
    | producer w =>
      rw [left w inside]
      rfl
    | listener w => rfl
  have length := congrArg List.length distributes.inOrder
  rw [List.length_append, List.length_map] at length
  have empty : p.shared.gVolumnsMq = [] := by
    refine distributes.counted.elim id fun counted => List.eq_nil_of_length_eq_zero ?_
    omega
  refine ⟨empty, ?_⟩
  simpa only [empty, List.append_nil] using distributes.inOrder

/-- Two workers and one message: both attempt, one pops nothing. -/
theorem volumns_distributed_sample : ∃ p : Process,
    p.threads = [.producer .left, .producer .left] ∧ p.shared.incSubdirCounts = 2 ∧
      p.shared.gVolumnsMq = [] ∧ p.shared.taken.map Prod.snd = [ascii "x"] := by
  obtain ⟨p, run, ended⟩ := exists_run_of_any (Process.step? ⟨1, 1⟩) (.start [ascii "x"] 2 0)
    ([0, 1, 0, 1, 0, 1, 0, 1].map fun i => .thread i {})
    (fun p => p.threads = [.producer .left, .producer .left] ∧ p.shared.incSubdirCounts = 2)
    (by decide +kernel)
  obtain ⟨left, attempts⟩ := of_decide_eq_true ended
  refine ⟨p, left, attempts, ?_⟩
  refine (volumns_distributed ⟨1, 1⟩ [ascii "x"] 2 0 _ p rfl run).2 (by decide) fun w mem => ?_
  simpa [left] using mem

end Fdfs2qq.Jobschedule
