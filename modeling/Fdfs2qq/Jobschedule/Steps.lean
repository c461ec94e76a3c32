import Fdfs2qq.Jobschedule.ProducerCli

/-! What the steps of the threads leave alone. -/
namespace Fdfs2qq.Jobschedule
open Lib Box

namespace ProducerCli

variable {p q : ProducerCli} {server owner : Nat} {data : Bytes} {failure : Option Nat}
  {link : Option Link} {peer : Peer} {o : Outcome}

/-- The messages and what has become of them. -/
def work (p : ProducerCli) : List Bytes × List (Nat × Bytes) × Nat :=
  (p.gVolumnsMq, p.taken, p.incSubdirCounts)

/-- The ids for the consumer and what has become of them. -/
def items (p : ProducerCli) : List Bytes × List Bytes × List Bytes :=
  (p.gItemProduceMq, p.pushed, p.handed)

/-- All but the connections and what is sent on them. -/
def offline (p : ProducerCli) : ProducerCli :=
  { p with connections := [], descriptors := fun _ => none, sends := 0 }

theorem of_offline (read : ProducerCli → α) (same : q.offline = p.offline) :
    read q.offline = read p.offline :=
  congrArg read same

theorem work_of_offline (same : q.offline = p.offline) : q.work = p.work := of_offline work same

theorem items_of_offline (same : q.offline = p.offline) : q.items = p.items := of_offline items same

theorem crashed_of_offline (same : q.offline = p.offline) : q.crashed = p.crashed :=
  of_offline crashed same

@[simp] theorem offline_setLink : (p.setLink server link).offline = p.offline := by
  unfold setLink
  split <;> rfl

@[simp] theorem connections_setLink : (p.setLink server link).connections = p.connections := by
  unfold setLink
  split <;> rfl

@[simp] theorem offline_disconnect : (p.disconnect server).offline = p.offline := by
  unfold disconnect
  split
  · exact offline_setLink
  · rfl

theorem send_cases (sent : p.send server data failure = some q) :
    ∃ count, q = setLink { p with sends := p.sends + 1 } server ((p.link server).map fun link =>
      { link with inbox := link.inbox ++ (p.tagged data).take count }) ∧
      (failure = none → (p.link server).isSome ∧ count = data.length) := by
  unfold send at sent
  cases failure with
  | none =>
    simp only [Option.ite_none_right_eq_some, Option.some.injEq] at sent
    exact ⟨data.length, sent.2.symm, fun _ => ⟨sent.1, rfl⟩⟩
  | some count =>
    simp only [Option.ite_none_right_eq_some, Option.some.injEq] at sent
    exact ⟨count, sent.2.symm, nofun⟩

theorem receive_cases (received : p.receive server failure = some (header, q)) :
    ∃ count, q = p.setLink server ((p.link server).map fun link =>
      { link with outbox := (((p.link server).map Link.outbox).getD []).drop count }) := by
  unfold receive at received
  cases failure with
  | none =>
    simp only [Option.ite_none_right_eq_some, Option.some.injEq, Prod.mk.injEq] at received
    exact ⟨_, received.2.2.symm⟩
  | some count =>
    simp only [Option.ite_none_right_eq_some, Option.some.injEq, Prod.mk.injEq] at received
    exact ⟨_, received.2.2.symm⟩

theorem connect_cases (connected : p.connect server peer o = some q) :
    (o.failure = none ∧ (p.setLink server none).descriptors o.fd = none ∧
      q = ((p.setLink server none).setDescriptor o.fd (some (.fresh peer))).setSock server o.fd) ∨
    (o.failure ≠ none ∧ q = (p.setLink server none).setSock server (-1)) := by
  unfold connect at connected
  split at connected
  next ok =>
    simp only [Option.ite_none_right_eq_some, Option.some.injEq] at connected
    exact .inl ⟨ok, connected.1, connected.2.symm⟩
  next count failed =>
    exact .inr ⟨by simp [failed], (Option.some.inj connected).symm⟩

theorem offline_connect (connected : p.connect server peer o = some q) : q.offline = p.offline := by
  obtain ⟨-, -, rfl⟩ | ⟨-, rfl⟩ := connect_cases connected <;> exact offline_setLink

theorem offline_send (sent : p.send server data failure = some q) : q.offline = p.offline := by
  obtain ⟨count, rfl, -⟩ := send_cases sent
  exact offline_setLink

theorem offline_receive (received : p.receive server failure = some (header, q)) : q.offline = p.offline := by
  obtain ⟨count, rfl⟩ := receive_cases received
  exact offline_setLink

theorem header_of_received (received : p.receive server none = some (header, q)) :
    ∃ bytes, header = some bytes := by
  simp only [receive, Option.ite_none_right_eq_some, Option.some.injEq, Prod.mk.injEq] at received
  exact ⟨_, received.2.1.symm⟩

theorem no_header_of_failed (failed : p.receive server (some count) = some (header, q)) :
    header = none := by
  simp only [receive, Option.ite_none_right_eq_some, Option.some.injEq, Prod.mk.injEq] at failed
  exact failed.2.1.symm

end ProducerCli

/-- What is sent from behind a descriptor. -/
inductive Answers (fd : Nat) (bytes : Bytes) (p : ProducerCli) : ProducerCli → Prop where
  | tracker : p.descriptors fd = some link → link.peer = .tracker →
      firstLine link.inbox = some (line, rest) → bytes.length = responseHeaderSize → Answers fd bytes p
        (ProducerCli.setDescriptor { p with answers := p.answers ++ [(line, bytes)] } fd
          (some { link with inbox := rest, outbox := link.outbox ++ bytes }))
  | other : p.descriptors fd = some link → link.peer ≠ .tracker → Answers fd bytes p
      (p.setDescriptor fd (some { link with outbox := link.outbox ++ bytes }))

theorem answers_of_answer (answered : answer (fd, bytes) p = some q) : Answers fd bytes p q := by
  simp only [answer, Option.bind_eq_some_iff] at answered
  obtain ⟨link, found, answered⟩ := answered
  split at answered
  next tracker =>
    simp only [Option.ite_none_right_eq_some, Option.map_eq_some_iff] at answered
    obtain ⟨length, ⟨line, rest⟩, first, rfl⟩ := answered
    exact .tracker found tracker first length
  next other =>
    cases answered
    exact .other found other

theorem Answers.frame (answers : Answers fd bytes p q) :
    ∃ answered link, q = ProducerCli.setDescriptor { p with answers := answered } fd link := by
  cases answers with
  | tracker => exact ⟨_, _, rfl⟩
  | other => exact ⟨_, _, rfl⟩

inductive WaitProducer.Moves (limits : Limits) (i : Nat) (o : Outcome) (p : ProducerCli) :
    WaitProducer → WaitProducer → ProducerCli → Prop where
  | nothing : p.gVolumnsMq = [] → Moves limits i o p .test .exitTest p
  | work : p.gVolumnsMq ≠ [] → Moves limits i o p .test .increment p
  | increment : Moves limits i o p .increment .pop { p with incSubdirCounts := p.incSubdirCounts + 1 }
  | miss : p.gVolumnsMq = [] → Moves limits i o p .pop (popped []) p
  | take : p.gVolumnsMq = msg :: rest → Moves limits i o p .pop (popped msg)
      { p with gVolumnsMq := rest, taken := p.taken ++ [(i, msg)] }
  | allocate : Moves limits i o p (.allocate info) (.address info)
      { p.allocate i o.sock with pTrackerServer := some p.connections.length }
  | address : p.pTrackerServer = some server → Moves limits i o p (.address info) (.scan info) p
  | scan : Moves limits i o p (.scan info) (.files info (getGlobalIdByFilelist o.filelist info)) p
  | done : Moves limits i o p (.files info []) .disconnect p
  | reuse : p.pTrackerServer = some server → 0 < p.sock server →
      Moves limits i o p (.files info (globalid :: rest))
        (.send info rest server (registRequest info globalid)) p
  | connect : p.pTrackerServer = some server → o.failure = none → p.connect server .tracker o = some q →
      Moves limits i o p (.files info (globalid :: rest))
        (.send info rest server (registRequest info globalid)) q
  | unconnected : p.pTrackerServer = some server → o.failure ≠ none → p.connect server .tracker o = some q →
      Moves limits i o p (.files info (globalid :: rest)) (.files info rest) q
  | skip : Moves limits i o p (.files info (globalid :: rest)) (.files info rest) p
  | sent : p.send server tmp none = some q →
      Moves limits i o p (.send info rest server tmp) (.receive info rest server (p.tagged tmp)) q
  | unsent : p.send server tmp (some count) = some q →
      Moves limits i o p (.send info rest server tmp) (.files info rest) q
  | received : p.receive server none = some (some header, q) →
      Moves limits i o p (.receive info rest server line) (.status info rest line header) q
  | unreceived : p.receive server (some count) = some (none, q) →
      Moves limits i o p (.receive info rest server line) (.files info rest) q
  | registered : Moves limits i o p (.status info rest line header) (.push info rest fileid) p
  | refused : Moves limits i o p (.status info rest line header) (.files info rest) p
  | push : Moves limits i o p (.push info rest fileid) (.files info rest)
      { p with gItemProduceMq := p.gItemProduceMq ++ [fileid], pushed := p.pushed ++ [fileid] }
  | disconnect : p.pTrackerServer = some server →
      Moves limits i o p .disconnect .delete (p.disconnect server)
  | delete : p.pTrackerServer = some server → Moves limits i o p .delete .exitTest (p.delete server)
  | leave : limits.maxSubdirCounts ≤ p.incSubdirCounts → Moves limits i o p .exitTest .left p
  | again : p.incSubdirCounts < limits.maxSubdirCounts → Moves limits i o p .exitTest .test p

theorem WaitProducer.moves_of_step {w w' : WaitProducer}
    (stepped : w.step limits i o p = some (w', q)) : Moves limits i o p w w' q := by
  cases w with
  | test =>
    cases stepped
    split
    next empty => exact .nothing empty
    next filled => exact .work filled
  | increment | allocate | scan | push =>
    cases stepped
    constructor
  | pop =>
    simp only [step] at stepped
    split at stepped
    next empty =>
      cases stepped
      exact .miss empty
    next msg rest queue =>
      cases stepped
      exact .take queue
  | address =>
    obtain ⟨server, pointer, same⟩ := Option.map_eq_some_iff.mp stepped
    cases same
    exact .address pointer
  | files info globalidList =>
    cases globalidList with
    | nil =>
      cases stepped
      exact .done
    | cons globalid rest =>
      simp only [step] at stepped
      split at stepped
      · obtain ⟨server, pointer, same⟩ := Option.bind_eq_some_iff.mp stepped
        split at same
        next reuses =>
          cases same
          exact .reuse pointer (by simpa [ProducerCli.reuses, pointer] using reuses)
        next =>
          obtain ⟨q, connected, same⟩ := Option.map_eq_some_iff.mp same
          split at same
          next ok =>
            cases same
            exact .connect pointer ok connected
          next failed =>
            cases same
            exact .unconnected pointer failed connected
      · cases stepped
        exact .skip
  | send =>
    obtain ⟨q, sent, same⟩ := Option.map_eq_some_iff.mp stepped
    cases failure : o.failure with
    | none =>
      rw [failure] at sent same
      cases same
      exact .sent sent
    | some count =>
      rw [failure] at sent same
      cases same
      exact .unsent sent
  | receive =>
    obtain ⟨⟨header, q⟩, received, same⟩ := Option.map_eq_some_iff.mp stepped
    obtain failure | ⟨count, failure⟩ := o.failure.eq_none_or_eq_some
    · rw [failure] at received
      obtain ⟨header, rfl⟩ := ProducerCli.header_of_received received
      cases same
      exact .received received
    · rw [failure] at received
      obtain rfl := ProducerCli.no_header_of_failed received
      cases same
      exact .unreceived received
  | status =>
    simp only [step] at stepped
    split at stepped
    · cases stepped
      exact .registered
    · cases stepped
      exact .refused
  | disconnect =>
    obtain ⟨server, pointer, same⟩ := Option.map_eq_some_iff.mp stepped
    cases same
    exact .disconnect pointer
  | delete =>
    obtain ⟨server, pointer, same⟩ := Option.map_eq_some_iff.mp stepped
    cases same
    exact .delete pointer
  | exitTest =>
    cases stepped
    split
    next enough => exact .leave enough
    next more => exact .again (Nat.lt_of_not_le more)
  | left => cases stepped

theorem WaitProducer.Moves.crashed {w w' : WaitProducer} (moves : w.Moves limits i o p w' q) :
    q.crashed = p.crashed := by
  cases moves with
  | connect _ _ connected | unconnected _ _ connected =>
    exact ProducerCli.crashed_of_offline (ProducerCli.offline_connect connected)
  | sent sent | unsent sent => exact ProducerCli.crashed_of_offline (ProducerCli.offline_send sent)
  | received received | unreceived received =>
    exact ProducerCli.crashed_of_offline (ProducerCli.offline_receive received)
  | disconnect => exact ProducerCli.crashed_of_offline ProducerCli.offline_disconnect
  | _ => rfl

inductive ListenItemConsumerMq.Moves (i : Nat) (o : Outcome) (p : ProducerCli) :
    ListenItemConsumerMq → ListenItemConsumerMq → ProducerCli → Prop where
  | start : Moves i o p .start .address
      { p.allocate i o.sock with pConsumerServer := some p.connections.length }
  | address : p.pConsumerServer = some server → Moves i o p .address .test p
  | nothing : p.gItemProduceMq = [] → Moves i o p .test .test p
  | item : p.gItemProduceMq ≠ [] → Moves i o p .test .pop p
  | miss : p.gItemProduceMq = [] → Moves i o p .pop .test p
  | blank : p.gItemProduceMq = [] :: rest → Moves i o p .pop .test { p with gItemProduceMq := rest }
  | take : p.gItemProduceMq = fileid :: rest → fileid ≠ [] →
      Moves i o p .pop (.connect fileid) { p with gItemProduceMq := rest }
  | connect : o.failure = none → p.pConsumerServer = some server → p.connect server .consumer o = some q →
      Moves i o p (.connect fileid) (.send fileid) q
  | refused : o.failure ≠ none → p.pConsumerServer = some server → p.connect server .consumer o = some q →
      Moves i o p (.connect fileid) .delete q
  | sent : o.failure = none → p.atConsumer → p.pConsumerServer = some server →
      p.send server fileid none = some q →
      Moves i o p (.send fileid) .disconnect { q with handed := q.handed ++ [fileid] }
  | astray : o.failure = none → p.atConsumer = false → p.pConsumerServer = some server →
      p.send server fileid none = some q → Moves i o p (.send fileid) .disconnect q
  | unsent : o.failure ≠ none → p.pConsumerServer = some server →
      p.send server fileid (some count) = some q → Moves i o p (.send fileid) .disconnect q
  | disconnect : p.pConsumerServer = some server →
      Moves i o p .disconnect .test (p.disconnect server)
  | delete : p.pConsumerServer = some server → Moves i o p .delete .test (p.delete server)

theorem ListenItemConsumerMq.moves_of_step {w w' : ListenItemConsumerMq}
    (stepped : w.step i o p = some (w', q)) : Moves i o p w w' q := by
  cases w with
  | start =>
    cases stepped
    exact .start
  | address =>
    obtain ⟨server, pointer, same⟩ := Option.map_eq_some_iff.mp stepped
    cases same
    exact .address pointer
  | test =>
    cases stepped
    split
    next empty => exact .nothing empty
    next filled => exact .item filled
  | pop =>
    simp only [step] at stepped
    split at stepped
    next empty =>
      cases stepped
      exact .miss empty
    next fileid rest queue =>
      cases stepped
      split
      next same => exact .blank (same ▸ queue)
      next filled => exact .take queue filled
  | connect fileid =>
    obtain ⟨server, pointer, stepped⟩ := Option.bind_eq_some_iff.mp stepped
    obtain ⟨q, connected, same⟩ := Option.map_eq_some_iff.mp stepped
    split at same
    next ok =>
      cases same
      exact .connect ok pointer connected
    next failed =>
      cases same
      exact .refused failed pointer connected
  | send fileid =>
    obtain ⟨server, pointer, stepped⟩ := Option.bind_eq_some_iff.mp stepped
    obtain ⟨q, sent, same⟩ := Option.map_eq_some_iff.mp stepped
    cases failure : o.failure with
    | none =>
      rw [failure] at sent same
      cases same
      cases here : p.atConsumer with
      | true =>
        simp only [and_self, if_true]
        exact .sent failure here pointer sent
      | false =>
        simp only [Bool.false_eq_true, and_false, if_false]
        exact .astray failure here pointer sent
    | some count =>
      rw [failure] at sent same
      cases same
      exact .unsent (by simp [failure]) pointer sent
  | disconnect =>
    obtain ⟨server, pointer, same⟩ := Option.map_eq_some_iff.mp stepped
    cases same
    exact .disconnect pointer
  | delete =>
    obtain ⟨server, pointer, same⟩ := Option.map_eq_some_iff.mp stepped
    cases same
    exact .delete pointer

theorem ListenItemConsumerMq.Moves.crashed {w w' : ListenItemConsumerMq} (moves : w.Moves i o p w' q) :
    q.crashed = p.crashed := by
  cases moves with
  | connect _ _ connected | refused _ _ connected =>
    exact ProducerCli.crashed_of_offline (ProducerCli.offline_connect connected)
  | sent _ _ _ sent =>
    have same := ProducerCli.crashed_of_offline (ProducerCli.offline_send sent)
    exact same
  | astray _ _ _ sent | unsent _ _ sent =>
    exact ProducerCli.crashed_of_offline (ProducerCli.offline_send sent)
  | disconnect => exact ProducerCli.crashed_of_offline ProducerCli.offline_disconnect
  | _ => rfl

/-- What one step of a thread can be. -/
inductive Thread.Moves (limits : Limits) (i : Nat) (o : Outcome) (p : ProducerCli) :
    Thread → Thread → ProducerCli → Prop where
  | producer : (Thread.producer w).logs limits o p → WaitProducer.Moves limits i o p w w' q →
      Moves limits i o p (.producer w) (.producer w') q
  | listener : (Thread.listener w).logs limits o p → ListenItemConsumerMq.Moves i o p w w' q →
      Moves limits i o p (.listener w) (.listener w') q
  | crash : t.logs limits o p = false → Moves limits i o p t t { p with crashed := true }

theorem Thread.moves_of_step {t t' : Thread} (stepped : t.step limits i o p = some (t', q)) :
    t.Moves limits i o p t' q := by
  obtain ⟨there, moved, same⟩ := Option.map_eq_some_iff.mp stepped
  by_cases logs : t.logs limits o p
  · rw [if_pos logs] at same
    cases same
    cases t with
    | producer w =>
      obtain ⟨⟨w', q⟩, moved, same⟩ := Option.map_eq_some_iff.mp moved
      cases same
      exact .producer logs (WaitProducer.moves_of_step moved)
    | listener w =>
      obtain ⟨⟨w', q⟩, moved, same⟩ := Option.map_eq_some_iff.mp moved
      cases same
      exact .listener logs (ListenItemConsumerMq.moves_of_step moved)
  · rw [if_neg logs] at same
    cases same
    exact .crash (by simpa using logs)

theorem Process.step_running {p : Process} (stepped : Process.step? limits p event = some q) :
    p.shared.crashed = false ∧ Pool.step? (Thread.step limits) answer p event = some q := by
  simpa only [Process.step?, Option.ite_none_left_eq_some, Bool.not_eq_true] using stepped

/-- What one step of the process can be. -/
theorem Process.step_cases {p : Process} (stepped : Process.step? limits p event = some q) :
    (∃ i o t t' s, event = .thread i o ∧ p.threads[i]? = some t ∧ t.Moves limits i o p.shared t' s ∧
      q = ⟨s, p.threads.set i t'⟩) ∨
    ∃ fd bytes s, event = .around (fd, bytes) ∧ Answers fd bytes p.shared s ∧
      q = ⟨s, p.threads⟩ := by
  obtain ⟨i, o, t, t', s, rfl, found, moved, rfl⟩ | ⟨⟨fd, bytes⟩, s, rfl, answered, rfl⟩ :=
    Pool.step_cases (Process.step_running stepped).2
  · exact .inl ⟨i, o, t, t', s, rfl, found, Thread.moves_of_step moved, rfl⟩
  · exact .inr ⟨fd, bytes, s, rfl, answers_of_answer answered, rfl⟩

theorem WaitProducer.popped_ne_pop (msg : Bytes) : popped msg ≠ .pop := by
  simp only [popped]
  split <;> nofun

theorem WaitProducer.popped_ne_left (msg : Bytes) : popped msg ≠ .left := by
  simp only [popped]
  split <;> nofun

def Thread.isProducer : Thread → Bool
  | .producer _ => true
  | .listener _ => false

theorem Thread.Moves.isProducer {t t' : Thread} (moves : t.Moves limits i o p t' q) :
    t'.isProducer = t.isProducer := by
  cases moves with
  | producer | listener | crash => rfl

theorem Process.step_isProducer {p : Process} (stepped : Process.step? limits p event = some q) :
    q.threads.map Thread.isProducer = p.threads.map Thread.isProducer := by
  obtain ⟨i, o, t, t', s, rfl, found, moves, rfl⟩ | ⟨fd, bytes, s, rfl, answers, rfl⟩ :=
    Process.step_cases stepped
  · obtain ⟨inside, rfl⟩ := List.getElem?_eq_some_iff.mp found
    simp only [List.map_set, moves.isProducer]
    rw [← List.getElem_map (h := by simpa using inside) Thread.isProducer, List.set_getElem_self]
  · rfl

theorem Process.run_isProducer {p : Process}
    (run : Run (Steps (Process.step? limits)) (.start volumns producers listeners) events p) :
    p.threads.map Thread.isProducer = List.replicate producers true ++ List.replicate listeners false := by
  refine run.invariant (P := fun p : Process => p.threads.map Thread.isProducer = _)
    (fun kinds stepped => (Process.step_isProducer stepped).trans kinds) ?_
  simp [Process.start, Thread.isProducer]

end Fdfs2qq.Jobschedule
