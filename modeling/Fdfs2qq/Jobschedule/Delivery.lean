import Mathlib.Algebra.Order.Group.Multiset
import Mathlib.Tactic.Abel
import Fdfs2qq.Jobschedule.Steps

/-! The way of a registered file to the consumer. What was pushed is in the
queue, with a listener, handed over, or lost; a step that loses an id loses it
for good, and one that ends the process loses all that is left to send. -/
namespace Fdfs2qq.Jobschedule
open Lib Box

def Thread.held : Thread → Multiset Bytes
  | .listener (.connect fileid) | .listener (.send fileid) => {fileid}
  | _ => 0

/-- The ids in the queue and with a listener. -/
def Process.waiting (p : Process) : Multiset Bytes :=
  p.shared.gItemProduceMq + Pool.total Thread.held p.threads

/-- The ids in the queue, with a listener that will still send them, or handed over. -/
def Process.accounted (p : Process) : Multiset Bytes :=
  (if p.shared.crashed then 0 else p.waiting) + p.shared.handed

/-- No id is lost, and none is handed over more often than it was pushed. -/
def Process.Delivers (p : Process) : Prop := (p.shared.pushed : Multiset Bytes) = p.accounted

/-- The step is no pop of an empty id, no connect or send of a listener that fails, and no
send to somebody else than the consumer. -/
def Thread.Keeps (o : Outcome) (p : ProducerCli) : Thread → Prop
  | .listener .pop => p.gItemProduceMq.head? ≠ some []
  | .listener (.connect _) => o.failure = none
  | .listener (.send _) => o.failure = none ∧ p.atConsumer
  | _ => True

def Process.Keeps (limits : Limits) (p : Process) (e : Event) : Prop :=
  Pool.Allows (fun _ o t p => if t.logs limits o p.shared then t.Keeps o p.shared else Process.waiting p = 0) p e

/-- From `p` to `q` these ids are lost where the thread held `held` and now
holds `held'`. -/
def ProducerCli.Loses (p q : ProducerCli) (held held' lost : Multiset Bytes) : Prop :=
  (q.pushed : Multiset Bytes) + (p.gItemProduceMq + held + p.handed) =
    p.pushed + (q.gItemProduceMq + held' + q.handed) + lost

namespace ProducerCli.Loses

variable {p q : ProducerCli} {held : Multiset Bytes}

theorem same (items : q.items = p.items) : p.Loses q held held 0 := by
  simp only [ProducerCli.items, Prod.mk.injEq] at items
  rw [Loses, items.1, items.2.1, items.2.2, add_zero]

theorem drop (items : q.items = p.items) : p.Loses q held 0 held := by
  simp only [ProducerCli.items, Prod.mk.injEq] at items
  rw [Loses, items.1, items.2.1, items.2.2]
  abel

theorem hand {fileid : Bytes} (items : q.items = p.items) :
    p.Loses { q with handed := q.handed ++ [fileid] } {fileid} 0 0 := by
  simp only [ProducerCli.items, Prod.mk.injEq] at items
  simp only [Loses, items.1, items.2.1, items.2.2, ← Multiset.coe_add]
  change (p.pushed : Multiset Bytes) + (p.gItemProduceMq + {fileid} + p.handed) =
    p.pushed + (p.gItemProduceMq + 0 + (p.handed + {fileid})) + 0
  abel

end ProducerCli.Loses

theorem WaitProducer.Moves.loses {w w' : WaitProducer} (moves : w.Moves limits i o p w' q) :
    p.Loses q 0 0 0 := by
  cases moves with
  | push =>
    simp only [ProducerCli.Loses, ← Multiset.coe_add]
    abel
  | connect _ _ connected | unconnected _ _ connected =>
    exact .same (ProducerCli.items_of_offline (ProducerCli.offline_connect connected))
  | sent sent | unsent sent => exact .same (ProducerCli.items_of_offline (ProducerCli.offline_send sent))
  | received received | unreceived received =>
    exact .same (ProducerCli.items_of_offline (ProducerCli.offline_receive received))
  | disconnect => exact .same (ProducerCli.items_of_offline ProducerCli.offline_disconnect)
  | _ => exact .same rfl

theorem ListenItemConsumerMq.Moves.loses {w w' : ListenItemConsumerMq} (moves : w.Moves i o p w' q) :
    ∃ lost, p.Loses q (Thread.listener w).held (Thread.listener w').held lost ∧
      (lost = 0 ↔ (Thread.listener w).Keeps o p) := by
  cases moves with
  | miss empty => exact ⟨0, .same rfl, by simp [Thread.Keeps, empty]⟩
  | blank queue =>
    refine ⟨{[]}, ?_, by simp [Thread.Keeps, queue]⟩
    simp only [ProducerCli.Loses, queue, ← Multiset.cons_coe, ← Multiset.singleton_add, Thread.held]
    abel
  | take queue filled =>
    refine ⟨0, ?_, by simpa [Thread.Keeps, queue] using filled⟩
    simp only [ProducerCli.Loses, queue, ← Multiset.cons_coe, ← Multiset.singleton_add, Thread.held]
    abel
  | connect ok _ connected =>
    exact ⟨0, .same (ProducerCli.items_of_offline (ProducerCli.offline_connect connected)),
      by simp [Thread.Keeps, ok]⟩
  | refused failed _ connected =>
    exact ⟨_, .drop (ProducerCli.items_of_offline (ProducerCli.offline_connect connected)),
      by simp [Thread.held, Thread.Keeps, failed]⟩
  | sent ok here _ sent =>
    exact ⟨0, .hand (ProducerCli.items_of_offline (ProducerCli.offline_send sent)),
      by simp [Thread.Keeps, ok, here]⟩
  | astray _ away _ sent =>
    exact ⟨_, .drop (ProducerCli.items_of_offline (ProducerCli.offline_send sent)),
      by simp [Thread.held, Thread.Keeps, away]⟩
  | unsent failed _ sent =>
    exact ⟨_, .drop (ProducerCli.items_of_offline (ProducerCli.offline_send sent)),
      by simp [Thread.held, Thread.Keeps, failed]⟩
  | disconnect =>
    exact ⟨0, .same (ProducerCli.items_of_offline ProducerCli.offline_disconnect), by simp [Thread.Keeps]⟩
  | _ => exact ⟨0, .same rfl, by simp [Thread.Keeps]⟩

def Process.Loses (p q : Process) (lost : Multiset Bytes) : Prop :=
  (q.shared.pushed : Multiset Bytes) + p.accounted = p.shared.pushed + q.accounted + lost

theorem Process.Loses.trans {p q r : Process} (first : p.Loses q lost) (second : q.Loses r lost') :
    p.Loses r (lost + lost') := by
  unfold Process.Loses at *
  apply add_right_cancel (b := (q.shared.pushed : Multiset Bytes) + q.accounted)
  calc (r.shared.pushed : Multiset Bytes) + p.accounted + (q.shared.pushed + q.accounted)
      = (r.shared.pushed + q.accounted) + (q.shared.pushed + p.accounted) := by abel
    _ = (q.shared.pushed + r.accounted + lost') + (p.shared.pushed + q.accounted + lost) := by
      rw [first, second]
    _ = p.shared.pushed + r.accounted + (lost + lost') + (q.shared.pushed + q.accounted) := by abel

theorem Process.accounted_of_running {p : Process} (running : p.shared.crashed = false) :
    p.accounted = p.waiting + p.shared.handed := by
  rw [accounted, running]
  rfl

theorem Process.Loses.of_thread {p : Process} (running : p.shared.crashed = false)
    (running' : s.crashed = false) (found : p.threads[i]? = some t)
    (loses : p.shared.Loses s t.held t'.held lost) : p.Loses ⟨s, p.threads.set i t'⟩ lost := by
  have sum := Pool.total_set Thread.held t' found
  unfold Process.Loses
  rw [accounted_of_running running, accounted_of_running (p := ⟨s, _⟩) running']
  apply add_right_cancel (b := t.held + t'.held)
  calc (s.pushed : Multiset Bytes) + (p.waiting + p.shared.handed) + (t.held + t'.held)
      = (s.pushed + (p.shared.gItemProduceMq + t.held + p.shared.handed)) +
          (Pool.total Thread.held p.threads + t'.held) := by
        rw [Process.waiting]
        abel
    _ = (p.shared.pushed + (s.gItemProduceMq + t'.held + s.handed) + lost) +
          (Pool.total Thread.held (p.threads.set i t') + t.held) := by
        rw [loses, sum]
    _ = p.shared.pushed + (Process.waiting ⟨s, p.threads.set i t'⟩ + s.handed) + lost +
          (t.held + t'.held) := by
        rw [Process.waiting]
        abel

theorem Process.Loses.of_crash {p : Process} (running : p.shared.crashed = false) (i : Nat) (t : Thread) :
    p.Loses ⟨{ p.shared with crashed := true }, p.threads.set i t⟩ p.waiting := by
  rw [Process.Loses, accounted_of_running running, Process.accounted]
  simp only [if_true]
  abel

theorem Process.step_loses {p : Process} (stepped : Process.step? limits p event = some q) :
    ∃ lost, p.Loses q lost ∧ (lost = 0 ↔ p.Keeps limits event) := by
  have running := (Process.step_running stepped).1
  obtain ⟨i, o, t, t', s, rfl, found, moves, rfl⟩ | ⟨fd, bytes, s, rfl, answers, rfl⟩ :=
    Process.step_cases stepped
  · simp only [Process.Keeps, Pool.Allows, found, Option.some.injEq, forall_eq']
    cases moves with
    | producer logs moves =>
      refine ⟨0, .of_thread running (moves.crashed.trans running) found moves.loses, ?_⟩
      rw [if_pos logs]
      exact iff_of_true rfl trivial
    | listener logs moves =>
      obtain ⟨lost, loses, keeps⟩ := moves.loses
      refine ⟨lost, .of_thread running (moves.crashed.trans running) found loses, ?_⟩
      rwa [if_pos logs]
    | crash fails =>
      refine ⟨p.waiting, .of_crash running i t, ?_⟩
      rw [if_neg (by simp [fails])]
  · obtain ⟨answered, link, rfl⟩ := answers.frame
    exact ⟨0, (add_zero _).symm, by simp [Process.Keeps, Pool.Allows]⟩

theorem Process.run_loses {p : Process} (run : Run (Steps (Process.step? limits)) p events q) :
    ∃ lost, p.Loses q lost ∧
      (lost = 0 ↔ Run (Within (Process.Keeps limits) (Steps (Process.step? limits))) p events q) := by
  induction run with
  | refl p => exact ⟨0, (add_zero _).symm, iff_of_true rfl (.refl p)⟩
  | next stepped later ih =>
    obtain ⟨lost, first, keeps⟩ := Process.step_loses stepped
    obtain ⟨lost', second, guarded⟩ := ih
    refine ⟨lost + lost', first.trans second, ?_⟩
    have zero : lost + lost' = 0 ↔ lost = 0 ∧ lost' = 0 := by
      simp only [← Multiset.card_eq_zero, Multiset.card_add, Nat.add_eq_zero_iff]
    rw [zero, keeps, guarded]
    constructor
    · rintro ⟨here, later⟩
      exact .next ⟨here, stepped⟩ later
    · rintro (_ | ⟨⟨here, stepped'⟩, later⟩)
      cases Option.some.inj (stepped.symm.trans stepped')
      exact ⟨here, later⟩

/-- One file is registered and popped by the only listener, which then connects
with this outcome and sends. -/
def registered (failure : Option Nat) : List Event :=
  let worker (o : Outcome) : Event := .thread 0 o
  let listener (o : Outcome) : Event := .thread 1 o
  [worker {}, worker {}, worker {}, worker {}, worker {}, worker { filelist := [ascii "x"] },
    worker {}, worker {}, .around (3, ascii "g/M00/00/00/x" ++ List.replicate 243 0 ++ ascii "200"),
    worker {}, worker {}, worker {}, listener {}, listener {}, listener {}, listener {},
    listener { fd := 4, failure := failure }, listener {}]

instance (p : Process) : Decidable p.Delivers := inferInstanceAs (Decidable (_ = _))

end Fdfs2qq.Jobschedule
