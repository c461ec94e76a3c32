import Fdfs2qq.Jobschedule.Steps

/-! Whose connection a thread uses. A worker keeps its own while no other worker
allocates before it has deleted it, a listener while no other listener starts
and no connect fails. -/
namespace Fdfs2qq.Jobschedule
open Lib Box

/-- The object was allocated by this thread and not deleted. -/
def ProducerCli.Own (p : ProducerCli) (i server : Nat) : Prop :=
  ∃ c, p.connections[server]? = some c ∧ c.owner = i ∧ c.deleted = false

/-- The object that the next step uses is the thread's own. -/
def Thread.Proper (i : Nat) (t : Thread) (p : ProducerCli) : Prop :=
  match t with
  | .producer (.address _) | .producer (.files _ (_ :: _)) | .producer .disconnect
  | .producer .delete => ∃ server, p.pTrackerServer = some server ∧ p.Own i server
  | .producer (.send _ _ server _) | .producer (.receive _ _ server _) => p.Own i server
  | .listener .address | .listener (.connect _) | .listener (.send _) | .listener .disconnect
  | .listener .delete => ∃ server, p.pConsumerServer = some server ∧ p.Own i server
  | _ => True

def WaitProducer.isOpen : WaitProducer → Bool
  | .test | .increment | .pop | .allocate _ | .exitTest | .left => false
  | _ => true

def Thread.isOpen : Thread → Bool
  | .producer w => w.isOpen
  | .listener _ => false

def Thread.isStarted : Thread → Bool
  | .producer _ | .listener .start => false
  | .listener _ => true

/-- A worker allocates when no other has an object, a listener starts when no
other has started, and no connect of a listener fails. -/
def Thread.Alone (i : Nat) (o : Outcome) (t : Thread) (p : Process) : Prop :=
  match t with
  | .producer (.allocate _) => ∀ u ∈ p.threads.eraseIdx i, u.isOpen = false
  | .listener .start => ∀ u ∈ p.threads.eraseIdx i, u.isStarted = false
  | .listener (.connect _) => o.failure = none
  | _ => True

instance (i : Nat) (o : Outcome) (t : Thread) (p : Process) : Decidable (t.Alone i o p) := by
  unfold Thread.Alone
  split <;> infer_instance

def Process.Alone (p : Process) (e : Event) : Prop := Pool.Allows Thread.Alone p e

instance (p : Process) (e : Event) : Decidable (p.Alone e) :=
  inferInstanceAs (Decidable (Pool.Allows Thread.Alone p e))

/-- The invariant of a thread: the static pointer is at its own object, and so
is the pointer it has passed on. -/
def Thread.Holds (i : Nat) (t : Thread) (p : ProducerCli) : Prop :=
  match t with
  | .producer (.send _ _ server _) | .producer (.receive _ _ server _) =>
    p.pTrackerServer = some server ∧ p.Own i server
  | .producer w => w.isOpen → ∃ server, p.pTrackerServer = some server ∧ p.Own i server
  | .listener .start => True
  | .listener .delete => False
  | .listener _ => ∃ server, p.pConsumerServer = some server ∧ p.Own i server

theorem Thread.Holds.proper (holds : Thread.Holds i t p) : t.Proper i p := by
  cases t with
  | producer w =>
    cases w with
    | files info globalidList =>
      cases globalidList with
      | nil => trivial
      | cons => exact holds rfl
    | send | receive => exact holds.2
    | address | disconnect | delete => exact holds rfl
    | _ => trivial
  | listener w =>
    cases w with
    | delete => exact holds.elim
    | address | connect | send | disconnect => exact holds
    | _ => trivial

namespace ProducerCli

variable {p q : ProducerCli} {i j server other : Nat} {link : Option Link} {sock : Int} {o : Outcome}

theorem own_modify {change : ConnectionInfo → ConnectionInfo}
    (stays : server = other → ∀ c, (change c).owner = c.owner ∧ (change c).deleted = c.deleted)
    (own : p.Own i server) : (p.modify other change).Own i server := by
  obtain ⟨c, found, owner, deleted⟩ := own
  simp only [Own, modify, List.getElem?_modify, found, Option.map_eq_map, Option.map_some]
  refine ⟨_, rfl, ?_⟩
  split
  next same => simp only [stays same.symm c, owner, deleted, and_self]
  next => exact ⟨owner, deleted⟩

theorem own_setLink (own : p.Own i server) : (p.setLink other link).Own i server := by
  rwa [Own, connections_setLink]

theorem own_setSock (own : p.Own i server) : (p.setSock other sock).Own i server :=
  own_modify (fun _ _ => ⟨rfl, rfl⟩) own

theorem own_disconnect (own : p.Own i server) : (p.disconnect other).Own i server := by
  unfold disconnect
  split
  · exact own_setSock (own_setLink own)
  · exact own

theorem own_connect (connected : p.connect other peer o = some q) (own : p.Own i server) : q.Own i server := by
  obtain ⟨-, -, rfl⟩ | ⟨-, rfl⟩ := connect_cases connected
  · exact own_setSock (p := (p.setLink other none).setDescriptor o.fd (some (.fresh peer))) (own_setLink own)
  · exact own_setSock (own_setLink own)

theorem own_delete (own : p.Own i server) (apart : server ≠ other) : (p.delete other).Own i server :=
  own_modify (fun same => absurd same apart) own

theorem own_allocate (own : p.Own i server) : (p.allocate j sock).Own i server := by
  obtain ⟨c, found, rest⟩ := own
  exact ⟨c, List.getElem?_append_left (List.getElem?_eq_some_iff.mp found).1 ▸ found, rest⟩

theorem own_new : (p.allocate i sock).Own i p.connections.length :=
  ⟨_, List.getElem?_concat_length, rfl, rfl⟩

theorem Own.unique (own : p.Own i server) (own' : p.Own j server) : i = j := by
  obtain ⟨c, found, rfl, -⟩ := own
  obtain ⟨c', found', rfl, -⟩ := own'
  cases Option.some.inj (found.symm.trans found')
  rfl

/-- The pointers stay, and so do the objects a thread owns. -/
structure SameObjects (p q : ProducerCli) : Prop where
  pTrackerServer : q.pTrackerServer = p.pTrackerServer
  pConsumerServer : q.pConsumerServer = p.pConsumerServer
  own : ∀ i server, p.Own i server → q.Own i server

theorem SameObjects.of_offline (same : q.offline = p.offline)
    (own : ∀ i server, p.Own i server → q.Own i server) : p.SameObjects q :=
  ⟨ProducerCli.of_offline ProducerCli.pTrackerServer same,
    ProducerCli.of_offline ProducerCli.pConsumerServer same, own⟩

theorem SameObjects.of_connections (tracker : q.pTrackerServer = p.pTrackerServer)
    (consumer : q.pConsumerServer = p.pConsumerServer) (same : q.connections = p.connections) :
    p.SameObjects q :=
  ⟨tracker, consumer, fun _ _ ⟨c, found, rest⟩ => ⟨c, same ▸ found, rest⟩⟩

theorem SameObjects.connect (connected : p.connect server peer o = some q) : p.SameObjects q :=
  .of_offline (offline_connect connected) fun _ _ => own_connect connected

theorem SameObjects.disconnect : p.SameObjects (p.disconnect server) :=
  .of_offline offline_disconnect fun _ _ => own_disconnect

theorem SameObjects.send {data : Bytes} {failure : Option Nat}
    (sent : p.send server data failure = some q) : p.SameObjects q := by
  refine .of_offline (offline_send sent) fun _ _ own => ?_
  obtain ⟨count, rfl, -⟩ := send_cases sent
  exact own_setLink (p := { p with sends := p.sends + 1 }) own

theorem SameObjects.receive {failure : Option Nat}
    (received : p.receive server failure = some (header, q)) : p.SameObjects q := by
  refine .of_offline (offline_receive received) fun _ _ own => ?_
  obtain ⟨count, rfl⟩ := receive_cases received
  exact own_setLink own

theorem SameObjects.hand {ids : List Bytes} (same : p.SameObjects q) :
    p.SameObjects { q with handed := ids } :=
  ⟨same.pTrackerServer, same.pConsumerServer, same.own⟩

end ProducerCli

/-- What a step does to the objects. -/
inductive Thread.Uses (i : Nat) (o : Outcome) (p q : ProducerCli) : Thread → Prop where
  | same : p.SameObjects q → Uses i o p q t
  | newTracker : q = { p.allocate i o.sock with pTrackerServer := some p.connections.length } →
      Uses i o p q (.producer (.allocate info))
  | deleteTracker : p.pTrackerServer = some server → q = p.delete server → Uses i o p q (.producer .delete)
  | newConsumer : q = { p.allocate i o.sock with pConsumerServer := some p.connections.length } →
      Uses i o p q (.listener .start)
  | deleteConsumer : Uses i o p q (.listener .delete)

theorem Thread.Moves.uses {t t' : Thread} (moves : t.Moves limits i o p t' q) : t.Uses i o p q := by
  cases moves with
  | producer _ moves =>
    cases moves with
    | allocate => exact .newTracker rfl
    | delete pointer => exact .deleteTracker pointer rfl
    | connect _ _ connected | unconnected _ _ connected => exact .same (.connect connected)
    | disconnect => exact .same .disconnect
    | sent sent | unsent sent => exact .same (.send sent)
    | received received | unreceived received => exact .same (.receive received)
    | _ => exact .same (.of_connections rfl rfl rfl)
  | listener _ moves =>
    cases moves with
    | start => exact .newConsumer rfl
    | delete => exact .deleteConsumer
    | connect _ _ connected | refused _ _ connected => exact .same (.connect connected)
    | disconnect => exact .same .disconnect
    | sent _ _ _ sent =>
      exact .same (ProducerCli.SameObjects.send sent).hand
    | astray _ _ _ sent | unsent _ _ sent => exact .same (.send sent)
    | _ => exact .same (.of_connections rfl rfl rfl)
  | crash => exact .same (.of_connections rfl rfl rfl)

theorem Thread.Holds.producer {p q : ProducerCli} (holds : (Thread.producer w).Holds i p)
    (pointer : q.pTrackerServer = p.pTrackerServer) (own : ∀ server, p.Own i server → q.Own i server) :
    (Thread.producer w).Holds i q := by
  cases w with
  | send | receive => exact ⟨pointer ▸ holds.1, own _ holds.2⟩
  | _ => exact fun isOpen => (holds isOpen).imp fun _ ⟨here, owns⟩ => ⟨pointer ▸ here, own _ owns⟩

theorem Thread.Holds.listener {p q : ProducerCli} (holds : (Thread.listener w).Holds i p)
    (pointer : q.pConsumerServer = p.pConsumerServer) (own : ∀ server, p.Own i server → q.Own i server) :
    (Thread.listener w).Holds i q := by
  cases w with
  | start => trivial
  | delete => exact holds
  | _ => exact holds.imp fun _ ⟨here, owns⟩ => ⟨pointer ▸ here, own _ owns⟩

theorem Thread.Holds.same {p q : ProducerCli} (same : p.SameObjects q) (holds : Thread.Holds i t p) :
    t.Holds i q := by
  cases t with
  | producer w => exact holds.producer same.pTrackerServer (same.own i)
  | listener w => exact holds.listener same.pConsumerServer (same.own i)

theorem Thread.holds_of_closed {w : WaitProducer} (closed : w.isOpen = false) :
    (Thread.producer w).Holds i p := by
  cases w with
  | send | receive => cases closed
  | _ => exact fun isOpen => absurd isOpen (by rw [closed]; decide)

theorem WaitProducer.isOpen_popped (msg : Bytes) : (popped msg).isOpen = false := by
  simp only [popped]
  split <;> rfl

theorem WaitProducer.Moves.holds {w w' : WaitProducer} (moves : w.Moves limits i o p w' q)
    (holds : (Thread.producer w).Holds i p) : (Thread.producer w').Holds i q := by
  cases moves with
  | nothing | work | increment | delete | leave | again => exact nofun
  | miss | take => exact Thread.holds_of_closed (isOpen_popped _)
  | allocate => exact fun _ => ⟨_, rfl, ProducerCli.own_new⟩
  | reuse pointer =>
    obtain ⟨server, pointer', own⟩ := holds rfl
    cases Option.some.inj (pointer.symm.trans pointer')
    exact ⟨pointer, own⟩
  | connect pointer _ connected =>
    obtain ⟨server, pointer', own⟩ := holds rfl
    cases Option.some.inj (pointer.symm.trans pointer')
    have same := ProducerCli.SameObjects.connect connected
    exact ⟨same.pTrackerServer.trans pointer, same.own _ _ own⟩
  | unconnected _ _ connected => exact Thread.Holds.same (.connect connected) holds
  | sent sent => exact Thread.Holds.same (.send sent) holds
  | unsent sent => exact fun _ => ⟨_, Thread.Holds.same (.send sent) holds⟩
  | received received | unreceived received =>
    exact fun _ => ⟨_, Thread.Holds.same (.receive received) holds⟩
  | disconnect => exact Thread.Holds.same .disconnect holds
  | _ => exact holds

theorem ListenItemConsumerMq.Moves.holds {w w' : ListenItemConsumerMq} (moves : w.Moves i o p w' q)
    (holds : (Thread.listener w).Holds i p) (connected : ∀ fileid, w = .connect fileid → o.failure = none) :
    (Thread.listener w').Holds i q := by
  cases moves with
  | start => exact ⟨_, rfl, ProducerCli.own_new⟩
  | connect _ _ opened => exact Thread.Holds.same (t := .listener .address) (.connect opened) holds
  | disconnect => exact Thread.Holds.same (t := .listener .address) .disconnect holds
  | refused failed => exact absurd (connected _ rfl) failed
  | sent _ _ _ sent =>
    exact Thread.Holds.same (t := .listener .address) (ProducerCli.SameObjects.send sent).hand holds
  | astray _ _ _ sent | unsent _ _ sent => exact Thread.Holds.same (t := .listener .address) (.send sent) holds
  | delete => exact holds.elim
  | _ => exact holds

theorem Thread.Uses.others {t u : Thread} {p : Process} (uses : t.Uses i o p.shared q)
    (found : p.threads[i]? = some t) (holds : t.Holds i p.shared) (alone : t.Alone i o p)
    (apart : j ≠ i) (found' : p.threads[j]? = some u) (holds' : u.Holds j p.shared) : u.Holds j q := by
  cases uses with
  | same same => exact holds'.same same
  | newTracker same =>
    subst same
    cases u with
    | producer w =>
      exact Thread.holds_of_closed (alone _ (List.mem_eraseIdx_iff_getElem?.mpr ⟨j, apart, found'⟩))
    | listener w => exact holds'.listener rfl fun _ => ProducerCli.own_allocate
  | @deleteTracker server pointer same =>
    obtain ⟨server', pointer', own⟩ := holds rfl
    cases Option.some.inj (pointer.symm.trans pointer')
    have keeps (other) (owns : p.shared.Own j other) : q.Own j other := by
      rw [same]
      exact ProducerCli.own_delete owns fun same => apart ((same ▸ owns).unique own)
    subst same
    cases u with
    | producer w => exact holds'.producer rfl keeps
    | listener w => exact holds'.listener rfl keeps
  | newConsumer same =>
    subst same
    cases u with
    | producer w => exact holds'.producer rfl fun _ => ProducerCli.own_allocate
    | listener w =>
      have start := alone _ (List.mem_eraseIdx_iff_getElem?.mpr ⟨j, apart, found'⟩)
      cases w with
      | start => trivial
      | _ => cases start
  | deleteConsumer => exact holds.elim

def Process.Holds (p : Process) : Prop := Pool.Valid Thread.Holds p

theorem Process.Holds.step {p : Process} (holds : p.Holds)
    (stepped : Within Process.Alone (Steps (Process.step? limits)) p event q) : q.Holds := by
  obtain ⟨alone, stepped⟩ := stepped
  obtain ⟨i, o, t, t', s, rfl, found, moves, rfl⟩ | ⟨server, bytes, s, rfl, answers, rfl⟩ :=
    Process.step_cases stepped
  · have here := holds i t found
    refine Pool.Valid.thread holds ?_ fun j u apart found' holds' =>
      moves.uses.others found here (alone t found) apart found' holds'
    have allowed := alone t found
    cases moves with
    | producer _ moves => exact moves.holds here
    | listener _ moves => exact moves.holds here fun fileid same => by rw [same] at allowed; exact allowed
    | crash => exact here.same (.of_connections rfl rfl rfl)
  · obtain ⟨answered, link, rfl⟩ := answers.frame
    exact Pool.Valid.around holds fun j u _ holds' => holds'.same (.of_connections rfl rfl rfl)

theorem Process.holds_start (volumns : List Bytes) (producers listeners : Nat) :
    (Process.start volumns producers listeners).Holds := by
  intro i t found
  obtain here | here := List.mem_append.mp (List.mem_of_getElem? found)
  · obtain ⟨-, rfl⟩ := List.mem_replicate.mp here
    exact Thread.holds_of_closed rfl
  · obtain ⟨-, rfl⟩ := List.mem_replicate.mp here
    trivial

/-- In a run whose workers and listeners stay alone with their connections,
every thread is about to use only an object that it allocated and that is not
deleted. -/
theorem proper_of_run (limits : Limits) (volumns : List Bytes) (producers listeners : Nat)
    (events : List Event) (p : Process)
    (run : Run (Within Process.Alone (Steps (Process.step? limits)))
      (.start volumns producers listeners) events p) : Pool.Valid Thread.Proper p := by
  have holds : p.Holds := run.invariant (fun holds stepped => Process.Holds.step holds stepped)
    (Process.holds_start volumns producers listeners)
  exact fun i t found => (holds i t found).proper

/-- A single worker and a single listener. -/
theorem proper_of_run_sample : ∃ p : Process, p.threads = [.producer .disconnect, .listener .test] ∧
    Pool.Valid Thread.Proper p := by
  obtain ⟨p, run, ended⟩ := exists_run_within_of_any Process.Alone (Process.step? ⟨1, 1⟩)
    (.start [ascii "g\tM00\t/d\t00/00"] 1 1) ([0, 0, 0, 0, 1, 0, 1, 0, 0].map fun i => .thread i {})
    (fun p => p.threads = [.producer .disconnect, .listener .test]) (by decide +kernel)
  exact ⟨p, of_decide_eq_true ended, proper_of_run ⟨1, 1⟩ _ 1 1 _ p run⟩

/-- Two workers: the second allocates before the first has deleted, and the
first is about to disconnect the object of the second. -/
theorem not_proper_overlapping : ∃ events p, Run (Steps (Process.step? ⟨2, 1⟩))
    (.start [ascii "g\tM00\t/d\t00/00", ascii "g\tM00\t/d\t00/01"] 2 0) events p ∧
      ¬ Pool.Valid Thread.Proper p := by
  obtain ⟨p, run, ended⟩ := exists_run_of_any (Process.step? ⟨2, 1⟩)
    (.start [ascii "g\tM00\t/d\t00/00", ascii "g\tM00\t/d\t00/01"] 2 0)
    ([0, 0, 0, 0, 1, 1, 1, 1, 0, 0, 0].map fun i => .thread i {})
    (fun p => p.threads[0]? = some (.producer .disconnect) ∧ p.shared.pTrackerServer = some 1 ∧
      p.shared.connections = [⟨0, false, -1⟩, ⟨1, false, -1⟩]) (by decide +kernel)
  obtain ⟨disconnects, pointer, objects⟩ := of_decide_eq_true ended
  refine ⟨_, p, run, fun proper => ?_⟩
  obtain ⟨server, pointer', c, found, owner, -⟩ := proper 0 _ disconnects
  cases Option.some.inj (pointer.symm.trans pointer')
  rw [objects] at found
  cases Option.some.inj found
  contradiction

end Fdfs2qq.Jobschedule
