import Fdfs2qq.Jobschedule.Steps

/-! Requests and answers of one worker. A header that is read right after its
request was sent on a quiet connection is the answer to that request, while no listener
works on the descriptor of that connection. -/
namespace Fdfs2qq.Jobschedule
open Lib Box

/-- The header is what the tracker answered to the line of this request. -/
def Answered (p : ProducerCli) (tmp : Sent) (header : Bytes) : Prop :=
  ∃ line rest, firstLine tmp = some (line, rest) ∧ (line, header) ∈ p.answers

/-- Where `TransferByData` has returned a header, it is the answer to its request. -/
def Process.Paired (p : Process) : Prop :=
  ∀ (i : Nat) info rest tmp header, p.threads[i]? = some (.producer (.status info rest tmp header)) →
    Answered p.shared tmp header

/-- Whether the object of the listeners has the descriptor of the worker's connection to
the tracker. -/
def ProducerCli.shares (p : ProducerCli) : Bool :=
  p.pTrackerServer.any fun server => p.pConsumerServer.any fun other =>
    (p.link server).any (·.peer = .tracker) && p.descriptor other = p.descriptor server

/-- A new object has no positive socket, a request is sent when nothing is in flight on
its connection, and no listener closes or sends on that connection. -/
def Thread.Quiet (_i : Nat) (o : Outcome) (t : Thread) (p : Process) : Prop :=
  match t with
  | .producer (.allocate _) => o.sock ≤ 0
  | .producer (.send _ _ server _) =>
    ∀ link ∈ p.shared.link server, link.inbox = [] ∧ link.outbox = []
  | .listener (.connect _) | .listener (.send _) | .listener .disconnect => p.shared.shares = false
  | _ => True

instance (i : Nat) (o : Outcome) (t : Thread) (p : Process) : Decidable (t.Quiet i o p) :=
  match t with
  | .producer (.allocate _) => inferInstanceAs (Decidable (o.sock ≤ 0))
  | .producer (.send _ _ server _) =>
    inferInstanceAs (Decidable (∀ link ∈ p.shared.link server, link.inbox = [] ∧ link.outbox = []))
  | .listener (.connect _) | .listener (.send _) | .listener .disconnect =>
    inferInstanceAs (Decidable (p.shared.shares = false))
  | .producer .test | .producer .increment | .producer .pop | .producer (.address _)
  | .producer (.scan _) | .producer (.files ..) | .producer (.receive ..) | .producer (.status ..)
  | .producer (.push ..) | .producer .disconnect | .producer .delete | .producer .exitTest
  | .producer .left | .listener .start | .listener .address | .listener .test | .listener .pop
  | .listener .delete => .isTrue trivial

def Process.Quiet (p : Process) (e : Event) : Prop := Pool.Allows Thread.Quiet p e

instance (p : Process) (e : Event) : Decidable (p.Quiet e) :=
  inferInstanceAs (Decidable (Pool.Allows Thread.Quiet p e))

namespace ProducerCli

variable {p q : ProducerCli} {i j server other fd : Nat} {link : Option Link} {sock : Int} {o : Outcome}

def owner (p : ProducerCli) (server : Nat) : Option Nat :=
  p.connections[server]?.map ConnectionInfo.owner

@[simp] theorem owner_setLink : (p.setLink server link).owner other = p.owner other := by
  rw [owner, connections_setLink, owner]

@[simp] theorem owner_setSock : (p.setSock server sock).owner other = p.owner other := by
  simp only [owner, setSock, modify, List.getElem?_modify]
  split <;> simp [Function.comp_def]

@[simp] theorem owner_delete : (p.delete server).owner other = p.owner other := by
  simp only [owner, delete, modify, List.getElem?_modify]
  split <;> simp [Function.comp_def]

@[simp] theorem owner_disconnect : (p.disconnect server).owner other = p.owner other := by
  unfold disconnect
  split
  · rw [owner_setSock, owner_setLink]
  · rfl

theorem owner_connect (connected : p.connect server peer o = some q) : q.owner other = p.owner other := by
  obtain ⟨-, -, rfl⟩ | ⟨-, rfl⟩ := connect_cases connected
  · exact owner_setSock.trans owner_setLink
  · exact owner_setSock.trans owner_setLink

theorem owner_allocate (owned : p.owner server = some j) : (p.allocate i sock).owner server = some j := by
  obtain ⟨c, found, rfl⟩ := Option.map_eq_some_iff.mp owned
  rw [owner, allocate, List.getElem?_append_left (List.getElem?_eq_some_iff.mp found).1, found]
  rfl

theorem owner_new : (p.allocate i sock).owner p.connections.length = some i := by
  simp [owner, allocate]

@[simp] theorem sock_setLink : (p.setLink server link).sock other = p.sock other := by
  rw [ProducerCli.sock, connections_setLink, ProducerCli.sock]

theorem sock_setSock (owned : p.owner server = some j) : (p.setSock server sock).sock server = sock := by
  obtain ⟨c, found, -⟩ := Option.map_eq_some_iff.mp owned
  simp [ProducerCli.sock, setSock, modify, found]

theorem sock_setSock_ne (apart : server ≠ other) : (p.setSock server sock).sock other = p.sock other := by
  simp [ProducerCli.sock, setSock, modify, apart]

@[simp] theorem sock_delete : (p.delete server).sock other = p.sock other := by
  simp only [ProducerCli.sock, delete, modify, List.getElem?_modify]
  split <;> simp [Function.comp_def]

theorem sock_allocate (owned : p.owner server = some j) : (p.allocate i sock).sock server = p.sock server := by
  obtain ⟨c, found, -⟩ := Option.map_eq_some_iff.mp owned
  rw [ProducerCli.sock, allocate, List.getElem?_append_left (List.getElem?_eq_some_iff.mp found).1,
    ProducerCli.sock]

theorem sock_new : (p.allocate i sock).sock p.connections.length = sock := by
  simp [ProducerCli.sock, allocate]

theorem descriptors_setLink (here : p.descriptor server = some fd) : (p.setLink server link).descriptors fd = link := by
  rw [setLink, here]
  exact Function.update_self ..

theorem descriptors_setLink_ne (away : p.descriptor server ≠ some fd) :
    (p.setLink server link).descriptors fd = p.descriptors fd := by
  unfold setLink
  split
  next fd' here => exact Function.update_of_ne (fun same => away (here.trans (congrArg some same.symm))) ..
  next => rfl

theorem link_of_same (sock : q.sock server = p.sock server)
    (same : ∀ fd, p.descriptor server = some fd → q.descriptors fd = p.descriptors fd) :
    q.link server = p.link server := by
  have descriptor : q.descriptor server = p.descriptor server := congrArg Int.toNat? sock
  rw [ProducerCli.link, descriptor, ProducerCli.link]
  cases here : p.descriptor server with
  | none => rfl
  | some fd => exact same fd here

theorem link_setLink (linked : (p.link server).isSome) : (p.setLink server link).link server = link := by
  obtain ⟨old, linked⟩ := Option.isSome_iff_exists.mp linked
  obtain ⟨fd, here, -⟩ := Option.bind_eq_some_iff.mp linked
  have descriptor : (p.setLink server link).descriptor server = some fd := by
    rw [ProducerCli.descriptor, sock_setLink]
    exact here
  rw [ProducerCli.link, descriptor]
  exact descriptors_setLink here

@[simp] theorem link_delete : (p.delete server).link other = p.link other :=
  link_of_same sock_delete fun _ _ => rfl

theorem link_allocate (owned : p.owner server = some j) :
    (p.allocate i sock).link server = p.link server :=
  link_of_same (sock_allocate owned) fun _ _ => rfl

theorem link_connect (owned : p.owner server = some j) (connected : p.connect server peer o = some q)
    (ok : o.failure = none) : q.link server = some (.fresh peer) := by
  obtain ⟨-, -, rfl⟩ | ⟨failed, -⟩ := connect_cases connected
  · have sock : (((p.setLink server none).setDescriptor o.fd (some (.fresh peer))).setSock server o.fd).sock server =
        o.fd := sock_setSock (owner_setLink.trans owned)
    rw [ProducerCli.link, ProducerCli.descriptor, sock]
    exact Function.update_self ..
  · exact absurd ok failed

theorem sock_connect_failed (owned : p.owner server = some j) (connected : p.connect server peer o = some q)
    (failed : o.failure ≠ none) : q.sock server = -1 := by
  obtain ⟨ok, -⟩ | ⟨-, rfl⟩ := connect_cases connected
  · exact absurd ok failed
  · exact sock_setSock (owner_setLink.trans owned)

theorem sock_connect_ne (connected : p.connect server peer o = some q) (apart : server ≠ other) :
    q.sock other = p.sock other := by
  obtain ⟨-, -, rfl⟩ | ⟨-, rfl⟩ := connect_cases connected
  · exact (sock_setSock_ne apart).trans sock_setLink
  · exact (sock_setSock_ne apart).trans sock_setLink

theorem descriptors_connect_ne (connected : p.connect server peer o = some q)
    (away : p.descriptor server ≠ some fd) (used : (p.descriptors fd).isSome) :
    q.descriptors fd = p.descriptors fd := by
  obtain ⟨-, free, rfl⟩ | ⟨-, rfl⟩ := connect_cases connected
  · have kept : (p.setLink server none).descriptors fd = p.descriptors fd := descriptors_setLink_ne away
    refine (Function.update_of_ne (fun same => ?_) ..).trans kept
    rw [← same, kept] at free
    simp [free] at used
  · exact descriptors_setLink_ne away

theorem sock_disconnect_le (owned : p.owner server = some j) : (p.disconnect server).sock server ≤ 0 := by
  unfold disconnect
  split
  · rw [sock_setSock (owner_setLink.trans owned)]
    decide
  next negative => omega

theorem sock_disconnect_ne (apart : server ≠ other) : (p.disconnect server).sock other = p.sock other := by
  unfold disconnect
  split
  · rw [sock_setSock_ne apart, sock_setLink]
  · rfl

theorem descriptors_disconnect_ne (away : p.descriptor server ≠ some fd) :
    (p.disconnect server).descriptors fd = p.descriptors fd := by
  unfold disconnect
  split
  · exact descriptors_setLink_ne away
  · rfl

end ProducerCli

/-- The tracker is behind the descriptor in `sock`. -/
def ProducerCli.Tracks (p : ProducerCli) (server : Nat) : Prop :=
  (p.link server).map Link.peer = some .tracker

/-- The request waits at the tracker, or its answer comes first. -/
def ProducerCli.Waits (p : ProducerCli) (server : Nat) (tmp : Sent) : Prop :=
  ∃ link, p.link server = some link ∧ link.peer = .tracker ∧
    (link.inbox = tmp ∧ link.outbox = [] ∨
      ∃ header more, link.outbox = header ++ more ∧ header.length = responseHeaderSize ∧
        Answered p tmp header)

def Thread.Pairs (_i : Nat) (t : Thread) (p : ProducerCli) : Prop :=
  match t with
  | .producer (.send _ _ server _) => p.pTrackerServer = some server ∧ p.Tracks server
  | .producer (.receive _ _ server tmp) => p.pTrackerServer = some server ∧ p.Waits server tmp
  | .producer (.status _ _ tmp header) => Answered p tmp header
  | _ => True

/-- Worker `0` and the listeners keep to their own objects, and a connection that the
worker would use again is one to the tracker. -/
structure ProducerCli.Apart (p : ProducerCli) : Prop where
  tracker : ∀ server, p.pTrackerServer = some server → p.owner server = some 0
  reuse : ∀ server, p.pTrackerServer = some server → 0 < p.sock server → p.Tracks server
  consumer : ∀ server, p.pConsumerServer = some server → ∃ j, p.owner server = some j ∧ j ≠ 0

namespace ProducerCli

variable {p q : ProducerCli} {server other : Nat} {link : Option Link}

theorem Apart.ne (apart : p.Apart) (pointer : p.pTrackerServer = some server)
    (pointer' : p.pConsumerServer = some other) : other ≠ server := by
  rintro rfl
  obtain ⟨j, owned, notWorker⟩ := apart.consumer other pointer'
  exact notWorker (Option.some.inj (owned.symm.trans (apart.tracker other pointer)))

theorem Tracks.isSome (tracks : p.Tracks server) : (p.link server).isSome := by
  obtain ⟨link, linked, -⟩ := Option.map_eq_some_iff.mp tracks
  exact Option.isSome_of_mem linked

theorem Tracks.setLink (tracks : p.Tracks server)
    (same : link.map Link.peer = (p.link server).map Link.peer) : (p.setLink server link).Tracks server := by
  rw [Tracks, link_setLink tracks.isSome, same]
  exact tracks

theorem Waits.mono (waits : p.Waits server tmp) (linked : q.link server = p.link server)
    (answers : p.answers ⊆ q.answers) : q.Waits server tmp := by
  obtain ⟨link, found, peer, waiting | ⟨header, more, outbox, length, line, rest, first, answered⟩⟩ := waits
  · exact ⟨link, linked.trans found, peer, .inl waiting⟩
  · exact ⟨link, linked.trans found, peer, .inr ⟨header, more, outbox, length, line, rest, first, answers answered⟩⟩

theorem Waits.tracks (waits : p.Waits server tmp) : p.Tracks server := by
  obtain ⟨link, found, peer, -⟩ := waits
  rw [Tracks, found, Option.map_some, peer]

theorem descriptor_ne (quiet : p.shares = false) (pointer : p.pTrackerServer = some server)
    (pointer' : p.pConsumerServer = some other) (tracks : p.Tracks server) :
    p.descriptor other ≠ p.descriptor server := by
  intro same
  obtain ⟨link, linked, peer⟩ := Option.map_eq_some_iff.mp tracks
  simp [shares, pointer, pointer', linked, peer, same] at quiet

end ProducerCli

/-- What a listener changes, seen from the worker. -/
structure ProducerCli.Listens (i : Nat) (p q : ProducerCli) : Prop where
  pTrackerServer : q.pTrackerServer = p.pTrackerServer
  answers : q.answers = p.answers
  owner : ∀ server j, p.owner server = some j → q.owner server = some j
  pConsumerServer : ∀ server, q.pConsumerServer = some server →
    p.pConsumerServer = some server ∨ q.owner server = some i
  sock : ∀ server, p.pTrackerServer = some server → q.sock server = p.sock server
  link : ∀ server, p.pTrackerServer = some server → p.Tracks server → q.link server = p.link server

namespace ProducerCli.Listens

variable {p q : ProducerCli} {i server : Nat} {sock : Int} {o : Outcome} {failure : Option Nat}

theorem rest (tracker : q.pTrackerServer = p.pTrackerServer) (answers : q.answers = p.answers)
    (consumer : q.pConsumerServer = p.pConsumerServer) (objects : q.connections = p.connections)
    (descriptors : q.descriptors = p.descriptors) : p.Listens i q := by
  have socks (server) : q.sock server = p.sock server := by rw [ProducerCli.sock, objects, ProducerCli.sock]
  exact {
    pTrackerServer := tracker
    answers := answers
    owner := fun server j owned => by rw [ProducerCli.owner, objects]; exact owned
    pConsumerServer := fun server pointer => .inl (consumer ▸ pointer)
    sock := fun server _ => socks server
    link := fun server _ _ => link_of_same (socks server) fun fd _ => congrFun descriptors fd }

/-- What is done on the object of the listeners changes neither the worker's object nor
what is behind its descriptor. -/
theorem network (apart : p.Apart) (quiet : p.shares = false) (pointer : p.pConsumerServer = some server)
    (same : q.offline = p.offline) (owner : ∀ other, q.owner other = p.owner other)
    (sock : ∀ other, server ≠ other → q.sock other = p.sock other)
    (kept : ∀ fd, p.descriptor server ≠ some fd → (p.descriptors fd).isSome → q.descriptors fd = p.descriptors fd) :
    p.Listens i q where
  pTrackerServer := of_offline ProducerCli.pTrackerServer same
  answers := of_offline ProducerCli.answers same
  owner := fun other j owned => (owner other).trans owned
  pConsumerServer := fun _ pointer => .inl ((of_offline ProducerCli.pConsumerServer same).symm.trans pointer)
  sock := fun other pointer' => sock other (apart.ne pointer' pointer)
  link := fun other pointer' tracks => by
    refine link_of_same (sock other (apart.ne pointer' pointer)) fun fd here => kept fd ?_ ?_
    · exact here ▸ descriptor_ne quiet pointer' pointer tracks
    · have linked := tracks.isSome
      rwa [ProducerCli.link, here] at linked

theorem connect (apart : p.Apart) (quiet : p.shares = false) (pointer : p.pConsumerServer = some server)
    (connected : p.connect server peer o = some q) : p.Listens i q :=
  network apart quiet pointer (offline_connect connected) (fun _ => owner_connect connected)
    (fun _ => sock_connect_ne connected) fun _ => descriptors_connect_ne connected

theorem disconnect (apart : p.Apart) (quiet : p.shares = false) (pointer : p.pConsumerServer = some server) :
    p.Listens i (p.disconnect server) :=
  network apart quiet pointer offline_disconnect (fun _ => owner_disconnect)
    (fun _ => sock_disconnect_ne) fun _ away _ => descriptors_disconnect_ne away

theorem send (apart : p.Apart) (quiet : p.shares = false) (pointer : p.pConsumerServer = some server)
    (sent : p.send server data failure = some q) : p.Listens i q := by
  have same := offline_send sent
  obtain ⟨count, rfl, -⟩ := send_cases sent
  exact network apart quiet pointer same (fun _ => owner_setLink) (fun _ _ => sock_setLink) fun fd away _ =>
    descriptors_setLink_ne (p := { p with sends := p.sends + 1 }) away

theorem hand {ids : List Bytes} (listens : p.Listens i q) : p.Listens i { q with handed := ids } :=
  ⟨listens.1, listens.2, listens.3, listens.4, listens.5, listens.6⟩

theorem delete : p.Listens i (p.delete server) where
  pTrackerServer := rfl
  answers := rfl
  owner := fun _ _ owned => owner_delete.trans owned
  pConsumerServer := fun _ pointer => .inl pointer
  sock := fun _ _ => sock_delete
  link := fun _ _ _ => link_delete

theorem start (apart : p.Apart) :
    p.Listens i { p.allocate i sock with pConsumerServer := some p.connections.length } where
  pTrackerServer := rfl
  answers := rfl
  owner := fun _ _ owned => owner_allocate owned
  pConsumerServer := fun server pointer => by
    cases pointer
    exact .inr owner_new
  sock := fun server pointer => sock_allocate (apart.tracker server pointer)
  link := fun server pointer _ => link_allocate (apart.tracker server pointer)

end ProducerCli.Listens

theorem ListenItemConsumerMq.Moves.listens {w w' : ListenItemConsumerMq} {p : Process}
    (moves : w.Moves i o p.shared w' q) (apart : p.shared.Apart) (quiet : (Thread.listener w).Quiet i o p) :
    p.shared.Listens i q := by
  cases moves with
  | start => exact .start apart
  | connect _ pointer connected | refused _ pointer connected => exact .connect apart quiet pointer connected
  | disconnect pointer => exact .disconnect apart quiet pointer
  | sent _ _ pointer sent => exact (ProducerCli.Listens.send apart quiet pointer sent).hand
  | astray _ _ pointer sent | unsent _ pointer sent => exact .send apart quiet pointer sent
  | delete => exact .delete
  | _ => exact .rest rfl rfl rfl rfl rfl

theorem ProducerCli.Listens.apart {p q : ProducerCli} (listens : p.Listens i q) (listener : i ≠ 0)
    (apart : p.Apart) : q.Apart where
  tracker := fun server pointer =>
    listens.owner server 0 (apart.tracker server (listens.pTrackerServer ▸ pointer))
  reuse := fun server pointer positive => by
    rw [listens.pTrackerServer] at pointer
    rw [listens.sock server pointer] at positive
    have tracks := apart.reuse server pointer positive
    rwa [Tracks, listens.link server pointer tracks]
  consumer := fun server pointer => by
    obtain pointer | owned := listens.pConsumerServer server pointer
    · obtain ⟨j, owned, other⟩ := apart.consumer server pointer
      exact ⟨j, listens.owner server j owned, other⟩
    · exact ⟨i, owned, listener⟩

/-- A listener leaves the worker's request alone. -/
theorem ProducerCli.Listens.pairs {p q : ProducerCli} (listens : p.Listens i q)
    (pairs : Thread.Pairs j t p) : t.Pairs j q := by
  cases t with
  | listener w => trivial
  | producer w =>
    cases w with
    | send =>
      obtain ⟨pointer, tracks⟩ := pairs
      refine ⟨listens.pTrackerServer.trans pointer, ?_⟩
      rwa [Tracks, listens.link _ pointer tracks]
    | receive =>
      obtain ⟨pointer, waits⟩ := pairs
      exact ⟨listens.pTrackerServer.trans pointer,
        waits.mono (listens.link _ pointer waits.tracks) (by rw [listens.answers]; exact List.Subset.refl _)⟩
    | status => simpa only [Thread.Pairs, Answered, listens.answers] using pairs
    | _ => trivial

namespace ProducerCli

variable {p q : ProducerCli} {server : Nat} {link : Option Link} {sock : Int} {o : Outcome} {failure : Option Nat}

theorem receive_header (received : p.receive server none = some (some header, q)) :
    ∃ link, p.link server = some link ∧ responseHeaderSize ≤ link.outbox.length ∧
      header = link.outbox.take responseHeaderSize := by
  simp only [receive, Option.ite_none_right_eq_some, Option.some.injEq, Prod.mk.injEq] at received
  obtain ⟨enough, rfl, -⟩ := received
  cases linked : p.link server with
  | none => simp [linked, responseHeaderSize] at enough
  | some link => exact ⟨link, rfl, by simpa [linked] using enough, by simp⟩

/-- What the worker does on its own object leaves a connection to the tracker, or none. -/
theorem Apart.network (apart : p.Apart) (pointer : p.pTrackerServer = some server) (same : q.offline = p.offline)
    (owner : ∀ other, q.owner other = p.owner other) (reuse : 0 < q.sock server → q.Tracks server) : q.Apart := by
  have tracker := of_offline ProducerCli.pTrackerServer same
  have consumer := of_offline ProducerCli.pConsumerServer same
  refine ⟨fun other here => ?_, fun other here => ?_, fun other here => ?_⟩
  · exact (owner other).trans (apart.tracker other (tracker.symm.trans here))
  · cases Option.some.inj (pointer.symm.trans (tracker.symm.trans here))
    exact reuse
  · obtain ⟨j, owned, notWorker⟩ := apart.consumer other (consumer.symm.trans here)
    exact ⟨j, (owner other).trans owned, notWorker⟩

theorem Apart.rest (apart : p.Apart) (tracker : q.pTrackerServer = p.pTrackerServer)
    (consumer : q.pConsumerServer = p.pConsumerServer) (objects : q.connections = p.connections)
    (descriptors : q.descriptors = p.descriptors) : q.Apart := by
  have owner : q.owner = p.owner := by funext; rw [ProducerCli.owner, objects, ProducerCli.owner]
  have sock (server) : q.sock server = p.sock server := by rw [ProducerCli.sock, objects, ProducerCli.sock]
  have link (server) : q.link server = p.link server :=
    link_of_same (sock server) fun fd _ => congrFun descriptors fd
  constructor
  · rw [tracker, owner]
    exact apart.tracker
  · intro server pointer positive
    rw [Tracks, link server]
    exact apart.reuse server (tracker ▸ pointer) (sock server ▸ positive)
  · rw [consumer, owner]
    exact apart.consumer

theorem Apart.allocate (apart : p.Apart) (unset : sock ≤ 0) :
    Apart { p.allocate 0 sock with pTrackerServer := some p.connections.length } where
  tracker := fun server pointer => by
    cases pointer
    exact owner_new
  reuse := fun server pointer positive => by
    cases pointer
    have here : (p.allocate 0 sock).sock p.connections.length = sock := sock_new
    exact absurd (here ▸ positive) (Int.not_lt.mpr unset)
  consumer := fun server pointer => by
    obtain ⟨j, owned, other⟩ := apart.consumer server pointer
    exact ⟨j, owner_allocate owned, other⟩

theorem Apart.delete (apart : p.Apart) : (p.delete server).Apart where
  tracker := fun other pointer => owner_delete.trans (apart.tracker other pointer)
  reuse := fun other pointer positive => by
    rw [Tracks, link_delete]
    exact apart.reuse other pointer (sock_delete ▸ positive)
  consumer := fun other pointer => by simpa using apart.consumer other pointer

theorem Apart.disconnect (apart : p.Apart) (pointer : p.pTrackerServer = some server) :
    (p.disconnect server).Apart :=
  apart.network pointer offline_disconnect (fun _ => owner_disconnect) fun positive =>
    absurd positive (Int.not_lt.mpr (sock_disconnect_le (apart.tracker server pointer)))

theorem Apart.connect (apart : p.Apart) (pointer : p.pTrackerServer = some server)
    (connected : p.connect server .tracker o = some q) : q.Apart := by
  have owned := apart.tracker server pointer
  refine apart.network pointer (offline_connect connected) (fun _ => owner_connect connected) fun positive => ?_
  by_cases ok : o.failure = none
  · rw [Tracks, link_connect owned connected ok]
    rfl
  · rw [sock_connect_failed owned connected ok] at positive
    exact absurd positive (by decide)

theorem tracks_send (tracks : p.Tracks server) (sent : p.send server data failure = some q) : q.Tracks server := by
  obtain ⟨count, rfl, -⟩ := send_cases sent
  refine Tracks.setLink (p := { p with sends := p.sends + 1 }) tracks ?_
  rw [Option.map_map]
  rfl

theorem tracks_receive (tracks : p.Tracks server) (received : p.receive server failure = some (header, q)) :
    q.Tracks server := by
  obtain ⟨count, rfl⟩ := receive_cases received
  refine tracks.setLink ?_
  rw [Option.map_map]
  rfl

theorem Apart.send (apart : p.Apart) (pointer : p.pTrackerServer = some server) (tracks : p.Tracks server)
    (sent : p.send server data failure = some q) : q.Apart := by
  have same := offline_send sent
  refine apart.network pointer same (fun other => ?_) fun _ => tracks_send tracks sent
  obtain ⟨count, rfl, -⟩ := send_cases sent
  exact owner_setLink

theorem Apart.receive (apart : p.Apart) (pointer : p.pTrackerServer = some server) (tracks : p.Tracks server)
    (received : p.receive server failure = some (header, q)) : q.Apart := by
  have same := offline_receive received
  refine apart.network pointer same (fun other => ?_) fun _ => tracks_receive tracks received
  obtain ⟨count, rfl⟩ := receive_cases received
  exact owner_setLink

/-- A request that is sent on a quiet connection waits at the tracker. -/
theorem waits_of_sent (tracks : p.Tracks server)
    (quiet : ∀ link ∈ p.link server, link.inbox = [] ∧ link.outbox = [])
    (sent : p.send server tmp none = some q) : q.Waits server (p.tagged tmp) := by
  obtain ⟨link, found, peer⟩ := Option.map_eq_some_iff.mp tracks
  obtain ⟨inbox, outbox⟩ := quiet link found
  obtain ⟨count, rfl, whole⟩ := send_cases sent
  obtain ⟨-, rfl⟩ := whole rfl
  refine ⟨{ link with inbox := link.inbox ++ (p.tagged tmp).take tmp.length },
    (link_setLink (p := { p with sends := p.sends + 1 }) tracks.isSome).trans (by rw [found]; rfl), peer,
    .inl ⟨?_, outbox⟩⟩
  simp [inbox, tagged]

/-- A header that is read where the request waits is the answer to it. -/
theorem Waits.answered (waits : p.Waits server tmp)
    (received : p.receive server none = some (some header, q)) : Answered p tmp header := by
  obtain ⟨link, linked, enough, rfl⟩ := receive_header received
  obtain ⟨link', linked', -, ⟨-, empty⟩ | ⟨header, more, outbox, length, answered⟩⟩ := waits
  · cases Option.some.inj (linked.symm.trans linked')
    simp [empty, responseHeaderSize] at enough
  · cases Option.some.inj (linked.symm.trans linked')
    rwa [outbox, ← length, List.take_left]

end ProducerCli

theorem WaitProducer.Moves.pairs {w w' : WaitProducer} {p : Process}
    (moves : w.Moves limits 0 o p.shared w' q) (apart : p.shared.Apart)
    (pairs : (Thread.producer w).Pairs 0 p.shared) (quiet : (Thread.producer w).Quiet 0 o p) :
    q.Apart ∧ (Thread.producer w').Pairs 0 q := by
  have landed (msg : Bytes) (q) : (Thread.producer (.popped msg)).Pairs 0 q := by
    simp only [popped]
    split <;> trivial
  cases moves with
  | miss => exact ⟨apart, landed _ _⟩
  | take => exact ⟨apart.rest rfl rfl rfl rfl, landed _ _⟩
  | increment | push => exact ⟨apart.rest rfl rfl rfl rfl, trivial⟩
  | allocate => exact ⟨apart.allocate quiet, trivial⟩
  | reuse pointer positive => exact ⟨apart, pointer, apart.reuse _ pointer positive⟩
  | connect pointer ok connected =>
    have tracks := ProducerCli.link_connect (apart.tracker _ pointer) connected ok
    refine ⟨apart.connect pointer connected, ?_, by rw [ProducerCli.Tracks, tracks]; rfl⟩
    exact (ProducerCli.of_offline ProducerCli.pTrackerServer (ProducerCli.offline_connect connected)).trans pointer
  | unconnected pointer _ connected => exact ⟨apart.connect pointer connected, trivial⟩
  | sent sent =>
    obtain ⟨pointer, tracks⟩ := pairs
    refine ⟨apart.send pointer tracks sent, ?_, p.shared.waits_of_sent tracks quiet sent⟩
    exact (ProducerCli.of_offline ProducerCli.pTrackerServer (ProducerCli.offline_send sent)).trans pointer
  | unsent sent => exact ⟨apart.send pairs.1 pairs.2 sent, trivial⟩
  | received received =>
    refine ⟨apart.receive pairs.1 pairs.2.tracks received, ?_⟩
    have answered := pairs.2.answered received
    have same := ProducerCli.of_offline ProducerCli.answers (ProducerCli.offline_receive received)
    obtain ⟨line, rest, first, mem⟩ := answered
    exact ⟨line, rest, first, same ▸ mem⟩
  | unreceived received => exact ⟨apart.receive pairs.1 pairs.2.tracks received, trivial⟩
  | disconnect pointer => exact ⟨apart.disconnect pointer, trivial⟩
  | delete => exact ⟨apart.delete, trivial⟩
  | _ => exact ⟨apart, trivial⟩

/-- Whoever sends, the same one is behind each descriptor. -/
theorem Answers.peers {p q : ProducerCli} (answers : Answers fd bytes p q) (server : Nat) :
    (q.link server).map Link.peer = (p.link server).map Link.peer := by
  have update (fd') : (q.descriptors fd').map Link.peer = (p.descriptors fd').map Link.peer := by
    by_cases at_peer : fd' = fd
    · subst at_peer
      cases answers with
      | tracker linked | other linked =>
        rw [linked]
        exact (congrArg (Option.map Link.peer) (Function.update_self fd' _ p.descriptors)).trans rfl
    · obtain ⟨answered, link, rfl⟩ := answers.frame
      exact congrArg (Option.map Link.peer) (Function.update_of_ne at_peer ..)
  have same : q.descriptor server = p.descriptor server := by
    obtain ⟨answered, link, rfl⟩ := answers.frame
    rfl
  rw [ProducerCli.link, ProducerCli.link, same]
  cases p.descriptor server with
  | none => rfl
  | some fd' => exact update fd'

theorem Answers.apart {p q : ProducerCli} (answers : Answers fd bytes p q) (apart : p.Apart) : q.Apart := by
  have peers := answers.peers
  obtain ⟨answered, link, rfl⟩ := answers.frame
  exact ⟨apart.tracker, fun server pointer positive => (peers server).trans (apart.reuse server pointer positive),
    apart.consumer⟩

theorem Answers.waits {p q : ProducerCli} (answers : Answers fd bytes p q) (waits : p.Waits server tmp) :
    q.Waits server tmp := by
  obtain ⟨link', linked, peer, waiting⟩ := id waits
  obtain ⟨fd', here, found⟩ := Option.bind_eq_some_iff.mp linked
  by_cases at_peer : fd' = fd
  · subst at_peer
    have behind (answered : List (Sent × Bytes)) (after : Link) : (ProducerCli.setDescriptor
        { p with answers := answered } fd' (some after)).link server = some after := by
      change (p.descriptor server).bind (Function.update p.descriptors fd' (some after)) = some after
      rw [here]
      exact Function.update_self ..
    cases answers with
    | @tracker link line rest found' tracker first length =>
      cases Option.some.inj (found.symm.trans found')
      refine ⟨_, behind _ _, peer, .inr ?_⟩
      obtain ⟨rfl, empty⟩ | ⟨header, more, outbox, length', line', rest', first', answered⟩ := waiting
      · exact ⟨bytes, [], by simp [empty], length, line, rest, first,
          List.mem_append_right _ (List.mem_singleton.mpr rfl)⟩
      · exact ⟨header, more ++ bytes, by simp [outbox], length', line', rest', first',
          List.mem_append_left _ answered⟩
    | other found' foreign =>
      cases Option.some.inj (found.symm.trans found')
      exact absurd peer foreign
  · have grows : p.answers ⊆ q.answers := by
      cases answers with
      | tracker => exact List.subset_append_left _ _
      | other => exact List.Subset.refl _
    refine waits.mono ?_ grows
    obtain ⟨answered, link, rfl⟩ := answers.frame
    refine ProducerCli.link_of_same rfl fun fd'' here' => Function.update_of_ne ?_ ..
    cases Option.some.inj (here.symm.trans here')
    exact at_peer

theorem Answers.pairs {p q : ProducerCli} (answers : Answers fd bytes p q)
    (pairs : Thread.Pairs j t p) : t.Pairs j q := by
  have grows : p.answers ⊆ q.answers := by
    cases answers with
    | tracker => exact List.subset_append_left _ _
    | other => exact List.Subset.refl _
  have stays : q.pTrackerServer = p.pTrackerServer := by
    obtain ⟨answered, link, rfl⟩ := answers.frame
    rfl
  cases t with
  | listener w => trivial
  | producer w =>
    cases w with
    | send => exact ⟨stays.trans pairs.1, (answers.peers _).trans pairs.2⟩
    | receive => exact ⟨stays.trans pairs.1, answers.waits pairs.2⟩
    | status =>
      obtain ⟨line, rest, first, answered⟩ := pairs
      exact ⟨line, rest, first, grows answered⟩
    | _ => trivial

structure Process.Single (p : Process) : Prop where
  kinds : ∃ listeners, p.threads.map Thread.isProducer = true :: List.replicate listeners false
  apart : p.shared.Apart
  pairs : Pool.Valid Thread.Pairs p

theorem Process.Single.isProducer {p : Process} (single : p.Single) (found : p.threads[i]? = some t) :
    t.isProducer = decide (i = 0) := by
  obtain ⟨listeners, kinds⟩ := single.kinds
  have here : (p.threads.map Thread.isProducer)[i]? = some t.isProducer := by
    rw [List.getElem?_map, found]
    rfl
  rw [kinds] at here
  cases i with
  | zero => exact (Option.some.inj here).symm
  | succ i =>
    rw [List.getElem?_cons_succ, List.getElem?_replicate] at here
    split at here
    · exact (Option.some.inj here).symm
    · cases here

theorem Process.Single.step {p : Process} (single : p.Single)
    (stepped : Within Process.Quiet (Steps (Process.step? limits)) p event q) : q.Single := by
  obtain ⟨quiet, stepped⟩ := stepped
  have kinds : ∃ listeners, q.threads.map Thread.isProducer = true :: List.replicate listeners false := by
    rw [Process.step_isProducer stepped]
    exact single.kinds
  obtain ⟨i, o, t, t', s, rfl, found, moves, rfl⟩ | ⟨fd, bytes, s, rfl, answers, rfl⟩ :=
    Process.step_cases stepped
  · have kind := single.isProducer found
    have here := single.pairs i t found
    cases moves with
    | producer _ moves =>
      have first : i = 0 := of_decide_eq_true kind.symm
      subst first
      obtain ⟨apart, pairs⟩ := moves.pairs single.apart here (quiet _ found)
      refine ⟨kinds, apart, Pool.Valid.thread single.pairs pairs fun j u other found' _ => ?_⟩
      -- the other threads are listeners
      have kind' := single.isProducer found'
      cases u with
      | producer w => exact absurd (of_decide_eq_true kind'.symm) other
      | listener w => trivial
    | listener _ moves =>
      have other : i ≠ 0 := of_decide_eq_false kind.symm
      have listens := moves.listens single.apart (quiet _ found)
      exact ⟨kinds, listens.apart other single.apart,
        Pool.Valid.thread single.pairs trivial fun j u _ _ pairs => listens.pairs pairs⟩
    | crash =>
      have listens : p.shared.Listens i { p.shared with crashed := true } := .rest rfl rfl rfl rfl rfl
      exact ⟨kinds, single.apart.rest rfl rfl rfl rfl,
        Pool.Valid.thread single.pairs (listens.pairs here) fun j u _ _ pairs => listens.pairs pairs⟩
  · exact ⟨kinds, answers.apart single.apart,
      Pool.Valid.around single.pairs fun j u _ pairs => answers.pairs pairs⟩

theorem Process.single_start (volumns : List Bytes) (listeners : Nat) :
    (Process.start volumns 1 listeners).Single := by
  refine ⟨⟨listeners, ?_⟩, ⟨nofun, nofun, nofun⟩, fun i t found => ?_⟩
  · simp [Process.start, Thread.isProducer]
  · obtain here | here := List.mem_append.mp (List.mem_of_getElem? found)
    all_goals
      obtain ⟨-, rfl⟩ := List.mem_replicate.mp here
      trivial

/-- The first steps of a worker in a folder with two files, to its first receive. -/
def twoFiles : List Event :=
  let worker (o : Outcome) : Event := .thread 0 o
  [worker {}, worker {}, worker {}, worker {}, worker {},
    worker { filelist := [ascii "x", ascii "y"] }, worker {}, worker {}]

def Process.hasHeader (p : Process) : Bool :=
  match p.threads.head? with
  | some (.producer (.status _ _ _ _)) => true
  | _ => false

def Process.mispaired (p : Process) : Bool :=
  match p.threads.head? with
  | some (.producer (.status _ _ tmp header)) =>
    (firstLine tmp).all fun (line, _) => (line, header) ∉ p.shared.answers
  | _ => false

end Fdfs2qq.Jobschedule
