import Fdfs2qq.Lib.Machine
import Fdfs2qq.Jobschedule.ProducerCli

/-! `sockopt.c`: the loops that send and receive a number of bytes, on a connection that
takes and hands out as many of them at a time as it likes. The functions with `_nb` in
their names call first and poll where the call would block, the others poll first. -/
namespace Fdfs2qq.Transfer
open Lib

def eintr : Int := 4

/-- `EAGAIN`, which is also `EWOULDBLOCK`. -/
def eagain : Int := 11

def enotconn : Int := 107

def etimedout : Int := 110

/-- `errno != 0 ? errno : EINTR` -/
def errorCode (errno : Int) : Int := if errno ≠ 0 then errno else eintr

inductive Place where
  /-- `while (left_bytes > 0)` -/
  | head
  /-- `send` or `recv` -/
  | call
  | poll
  | returned (result : Int)
deriving DecidableEq

/-- `tcpsenddata`: the bytes from `p` on. -/
structure Sending where
  place : Place := .head
  left : Bytes
deriving DecidableEq

/-- `tcprecvdata`: the bytes before `p`, and `left_bytes`. -/
structure Receiving where
  place : Place := .head
  data : Bytes := []
  leftBytes : Nat
deriving DecidableEq

inductive Answer where
  | bytes (n : Nat)
  | failed (errno : Int)
  | polled (res : Int) (hangup : Bool) (errno : Int)
deriving DecidableEq

def enter (nb : Bool) : Place := if nb then .call else .poll

def afterFailure (nb : Bool) (errno : Int) : Place :=
  if nb ∧ errno = eagain then .poll else .returned (errorCode errno)

def afterPoll (nb : Bool) (res : Int) (hangup : Bool) (errno : Int) : Place :=
  if hangup then .returned enotconn
  else if res < 0 then .returned (errorCode errno)
  else if res = 0 then .returned etimedout
  else if nb then .head else .call

/-- `tcpsenddata_nb(sock, data, size, timeout)`, or `tcpsenddata`. -/
def Sending.step (nb : Bool) (s : Sending) (answer : Answer) (channel : Bytes) : Option (Sending × Bytes) :=
  match s.place, answer with
  | .head, _ => some ({ s with place := if s.left = [] then .returned 0 else enter nb }, channel)
  | .call, .bytes n =>
    if n ≤ s.left.length then some (⟨.head, s.left.drop n⟩, channel ++ s.left.take n) else none
  | .call, .failed errno => some ({ s with place := afterFailure nb errno }, channel)
  | .poll, .polled res hangup errno => some ({ s with place := afterPoll nb res hangup errno }, channel)
  | _, _ => none

/-- `tcprecvdata_nb_ex(sock, data, size, timeout, &count)`, or `tcprecvdata_ex`. -/
def Receiving.step (nb : Bool) (r : Receiving) (answer : Answer) (channel : Bytes) : Option (Receiving × Bytes) :=
  match r.place, answer with
  | .head, _ => some ({ r with place := if r.leftBytes = 0 then .returned 0 else enter nb }, channel)
  | .call, .bytes n =>
    if n ≤ r.leftBytes ∧ n ≤ channel.length then
      if n = 0 then some ({ r with place := .returned enotconn }, channel)
      else some (⟨.head, r.data ++ channel.take n, r.leftBytes - n⟩, channel.drop n)
    else none
  | .call, .failed errno => some ({ r with place := afterFailure nb errno }, channel)
  | .poll, .polled res hangup errno => some ({ r with place := afterPoll nb res hangup errno }, channel)
  | _, _ => none

/-- The two ends of a connection, and the bytes that are on their way. -/
structure Connection where
  sending : Sending
  channel : Bytes
  receiving : Receiving
deriving DecidableEq

inductive Turn where
  | sender (answer : Answer)
  | receiver (answer : Answer)

namespace Connection

def start (channel data : Bytes) (size : Nat) : Connection where
  sending := { left := data }
  channel := channel
  receiving := { leftBytes := size }

def step? (nb nb' : Bool) (c : Connection) : Turn → Option Connection
  | .sender answer => (c.sending.step nb answer c.channel).map fun (sending, channel) =>
    { c with sending := sending, channel := channel }
  | .receiver answer => (c.receiving.step nb' answer c.channel).map fun (receiving, channel) =>
    { c with receiving := receiving, channel := channel }

end Connection

/-- Whether there is more to do, as far as the place tells. -/
def Place.Tells (place : Place) (more : Prop) : Prop :=
  match place with
  | .head => True
  | .call | .poll => more
  | .returned result => result = 0 ↔ ¬ more

theorem errorCode_ne_zero (errno : Int) : errorCode errno ≠ 0 := by
  unfold errorCode
  split
  next filled => exact filled
  next => decide

theorem tells_returned {more : Prop} {result : Int} (failed : result ≠ 0) (here : more) :
    (Place.returned result).Tells more := iff_of_false failed (not_not.mpr here)

theorem tells_afterFailure {more : Prop} (here : more) (nb : Bool) (errno : Int) :
    (afterFailure nb errno).Tells more := by
  unfold afterFailure
  split
  next => exact here
  next => exact tells_returned (errorCode_ne_zero errno) here

theorem tells_afterPoll {more : Prop} (here : more) (nb : Bool) (res : Int) (hangup : Bool) (errno : Int) :
    (afterPoll nb res hangup errno).Tells more := by
  unfold afterPoll
  split
  next => exact tells_returned (by decide) here
  split
  next => exact tells_returned (errorCode_ne_zero errno) here
  split
  next => exact tells_returned (by decide) here
  split
  next => trivial
  next => exact here

theorem tells_enter {more : Prop} (here : more) (nb : Bool) : (enter nb).Tells more := by
  cases nb <;> exact here

theorem Sending.step_spec {nb : Bool} {s s' : Sending} {answer : Answer} {channel channel' : Bytes}
    (stepped : s.step nb answer channel = some (s', channel')) (tells : s.place.Tells (s.left ≠ [])) :
    channel' ++ s'.left = channel ++ s.left ∧ s'.place.Tells (s'.left ≠ []) := by
  obtain ⟨place, left⟩ := s
  cases place with
  | head =>
    cases stepped
    refine ⟨rfl, ?_⟩
    by_cases done : left = []
    · simp [done, Place.Tells]
    · simp only [done, if_false]
      exact tells_enter done nb
  | call =>
    cases answer with
    | bytes n =>
      obtain ⟨inside, same⟩ := Option.ite_none_right_eq_some.mp stepped
      cases same
      exact ⟨by simp, trivial⟩
    | failed errno =>
      cases stepped
      exact ⟨rfl, tells_afterFailure tells nb errno⟩
    | polled => cases stepped
  | poll =>
    cases answer with
    | polled res hangup errno =>
      cases stepped
      exact ⟨rfl, tells_afterPoll tells nb res hangup errno⟩
    | _ => cases stepped
  | returned result => cases stepped

theorem Receiving.step_spec {nb : Bool} {r r' : Receiving} {answer : Answer} {channel channel' : Bytes}
    (stepped : r.step nb answer channel = some (r', channel')) (tells : r.place.Tells (r.leftBytes ≠ 0)) :
    r'.data ++ channel' = r.data ++ channel ∧ r'.data.length + r'.leftBytes = r.data.length + r.leftBytes ∧
      r'.place.Tells (r'.leftBytes ≠ 0) := by
  obtain ⟨place, data, leftBytes⟩ := r
  cases place with
  | head =>
    cases stepped
    refine ⟨rfl, rfl, ?_⟩
    by_cases done : leftBytes = 0
    · simp [done, Place.Tells]
    · simp only [done, if_false]
      exact tells_enter done nb
  | call =>
    cases answer with
    | bytes n =>
      obtain ⟨⟨inside, inside'⟩, stepped⟩ := Option.ite_none_right_eq_some.mp stepped
      split at stepped
      next =>
        cases stepped
        exact ⟨rfl, rfl, tells_returned (by decide) tells⟩
      next =>
        cases stepped
        have fits : n ≤ leftBytes := inside
        refine ⟨by simp, ?_, trivial⟩
        simp only [List.length_append, List.length_take, Nat.min_eq_left inside']
        omega
    | failed errno =>
      cases stepped
      exact ⟨rfl, rfl, tells_afterFailure tells nb errno⟩
    | polled => cases stepped
  | poll =>
    cases answer with
    | polled res hangup errno =>
      cases stepped
      exact ⟨rfl, rfl, tells_afterPoll tells nb res hangup errno⟩
    | _ => cases stepped
  | returned result => cases stepped

namespace Connection

variable {nb nb' : Bool} {c c' : Connection} {sent : Bytes} {size : Nat}

/-- No byte is lost, sent twice or moved. -/
structure Exact (sent : Bytes) (size : Nat) (c : Connection) : Prop where
  whole : c.receiving.data ++ c.channel ++ c.sending.left = sent
  counted : c.receiving.data.length + c.receiving.leftBytes = size
  sender : c.sending.place.Tells (c.sending.left ≠ [])
  receiver : c.receiving.place.Tells (c.receiving.leftBytes ≠ 0)

theorem Exact.step {turn : Turn} (exact_ : Exact sent size c) (stepped : c.step? nb nb' turn = some c') :
    Exact sent size c' := by
  cases turn with
  | sender answer =>
    obtain ⟨⟨sending, channel⟩, moved, rfl⟩ := Option.map_eq_some_iff.mp stepped
    obtain ⟨whole, tells⟩ := Sending.step_spec moved exact_.sender
    refine ⟨?_, exact_.counted, tells, exact_.receiver⟩
    rw [List.append_assoc, whole, ← List.append_assoc, exact_.whole]
  | receiver answer =>
    obtain ⟨⟨receiving, channel⟩, moved, rfl⟩ := Option.map_eq_some_iff.mp stepped
    obtain ⟨whole, counted, tells⟩ := Receiving.step_spec moved exact_.receiver
    exact ⟨by rw [whole, exact_.whole], counted.trans exact_.counted, exact_.sender, tells⟩

theorem exact_start (channel data : Bytes) (size : Nat) : Exact (channel ++ data) size (start channel data size) :=
  ⟨rfl, Nat.zero_add size, trivial, trivial⟩

/-- However the bytes are cut and whatever fails, what was received is the front of what
was sent. The sender returns 0 exactly if all its bytes were taken, the receiver exactly
if it got as many bytes as it asked for. -/
theorem transfer_exact (nb nb' : Bool) (channel data : Bytes) (size : Nat) (turns : List Turn) (c : Connection)
    (run : Run (Steps (step? nb nb')) (start channel data size) turns c) :
    c.receiving.data ++ c.channel ++ c.sending.left = channel ++ data ∧
      c.receiving.data.length + c.receiving.leftBytes = size ∧
      (∀ result, c.sending.place = .returned result → (result = 0 ↔ c.sending.left = [])) ∧
      ∀ result, c.receiving.place = .returned result → (result = 0 ↔ c.receiving.data.length = size) := by
  have exact_ : Exact (channel ++ data) size c :=
    run.invariant (fun exact_ stepped => exact_.step stepped) (exact_start channel data size)
  have counted := exact_.counted
  refine ⟨exact_.whole, counted, fun result place => ?_, fun result place => ?_⟩
  · have tells := exact_.sender
    rw [place] at tells
    exact tells.trans not_not
  · have tells := exact_.receiver
    rw [place] at tells
    exact (tells.trans not_not).trans ⟨fun empty => by omega, fun all => by omega⟩

/-- Three bytes in two pieces, with a call that would block between them. -/
theorem transfer_exact_sample : ∃ c : Connection, c.receiving.place = .returned 0 ∧ c.receiving.data = [1, 2, 3] := by
  obtain ⟨c, run, ended⟩ := exists_run_of_any (step? true true) (start [] [1, 2, 3] 3)
    [.sender (.bytes 0), .sender (.bytes 1), .receiver (.bytes 0), .receiver (.bytes 1), .receiver (.bytes 0),
      .receiver (.failed eagain), .sender (.bytes 0), .sender (.bytes 2), .receiver (.polled 1 false 0),
      .receiver (.bytes 0), .receiver (.bytes 2), .receiver (.bytes 0)]
    (fun c => c.receiving.place = .returned 0 ∧ c.channel = [] ∧ c.sending.left = []) (by decide +kernel)
  obtain ⟨returned, taken, sent⟩ := of_decide_eq_true ended
  obtain ⟨whole, -, -, -⟩ := transfer_exact true true [] [1, 2, 3] 3 _ c run
  rw [taken, sent, List.append_nil, List.append_nil] at whole
  exact ⟨c, returned, whole⟩

theorem run_send (nb' : Bool) {data : Bytes} {count : Nat} (fits : count ≤ data.length) (size : Nat) :
    ∃ turns, Run (Steps (step? true nb')) (start [] data size) turns
      ⟨⟨.head, data.drop count⟩, data.take count, { leftBytes := size }⟩ := by
  by_cases empty : data = []
  · subst empty
    refine ⟨[], ?_⟩
    rw [List.drop_nil, List.take_nil]
    exact .refl _
  · refine ⟨[.sender (.bytes 0), .sender (.bytes count)], run_of_foldlM ?_⟩
    simp [start, step?, Sending.step, empty, enter, fits]

theorem run_sent (nb' : Bool) (data channel : Bytes) (size : Nat) :
    ∃ turns, Run (Steps (step? true nb')) ⟨⟨.head, data⟩, channel, { leftBytes := size }⟩ turns
      ⟨⟨.returned (if data = [] then 0 else 5), data⟩, channel, { leftBytes := size }⟩ := by
  by_cases empty : data = []
  · refine ⟨[.sender (.bytes 0)], run_of_foldlM ?_⟩
    simp [step?, Sending.step, empty]
  · refine ⟨[.sender (.bytes 0), .sender (.failed 5)], run_of_foldlM ?_⟩
    simp [step?, Sending.step, empty, enter, afterFailure, errorCode, eagain]

theorem run_receive (nb : Bool) {channel : Bytes} {count : Nat} (fits : count ≤ channel.length)
    (fits' : count ≤ size) : ∃ turns, Run (Steps (step? nb true)) (start channel [] size) turns
      ⟨{ left := [] }, channel.drop count, ⟨.head, channel.take count, size - count⟩⟩ := by
  by_cases zero : count = 0
  · subst zero
    refine ⟨[], ?_⟩
    rw [List.drop_zero, List.take_zero, Nat.sub_zero]
    exact .refl _
  · have more : size ≠ 0 := by omega
    refine ⟨[.receiver (.bytes 0), .receiver (.bytes count)], run_of_foldlM ?_⟩
    simp [start, step?, Receiving.step, more, zero, enter, fits, fits']

theorem run_received (nb : Bool) (channel data : Bytes) (leftBytes : Nat) :
    ∃ turns, Run (Steps (step? nb true)) ⟨{ left := [] }, channel, ⟨.head, data, leftBytes⟩⟩ turns
      ⟨{ left := [] }, channel, ⟨.returned (if leftBytes = 0 then 0 else 5), data, leftBytes⟩⟩ := by
  by_cases all : leftBytes = 0
  · refine ⟨[.receiver (.bytes 0)], run_of_foldlM ?_⟩
    simp [step?, Receiving.step, all]
  · refine ⟨[.receiver (.bytes 0), .receiver (.failed 5)], run_of_foldlM ?_⟩
    simp [step?, Receiving.step, all, enter, afterFailure, errorCode, eagain]

end Connection

open Connection Jobschedule

theorem send_eq {p : ProducerCli} {server : Nat} {link : Link} (connected : p.link server = some link)
    (data : Bytes) (failure : Option Nat) :
    p.send server data failure =
      if ∀ count ∈ failure, count < data.length then
        some (ProducerCli.setLink { p with sends := p.sends + 1 } server
          (some { link with inbox := link.inbox ++ p.tagged (data.take (failure.getD data.length)) }))
      else none := by
  have cut (count : Nat) : (p.tagged data).take count = p.tagged (data.take count) := (List.map_take ..).symm
  cases failure with
  | none => simp [ProducerCli.send, connected, cut]
  | some count => simp [ProducerCli.send, connected, cut]

/-- The send of the producer takes just the steps that `tcpsenddata_nb` can take on the
connection, while the peer receives as it likes. -/
theorem send_refines (nb : Bool) (size : Nat) (p q : ProducerCli) (server : Nat) (link : Link) (data : Bytes)
    (failure : Option Nat) (connected : p.link server = some link) :
    p.send server data failure = some q ↔ ∃ turns c result,
      Run (Steps (step? true nb)) (start [] data size) turns c ∧ c.sending.place = .returned result ∧
        failure = (if result = 0 then none else some (c.receiving.data ++ c.channel).length) ∧
        q = ProducerCli.setLink { p with sends := p.sends + 1 } server
          (some { link with inbox := link.inbox ++ p.tagged (c.receiving.data ++ c.channel) }) := by
  rw [send_eq connected, Option.ite_none_right_eq_some, Option.some.injEq]
  constructor
  · rintro ⟨fewer, same⟩
    have fits : failure.getD data.length ≤ data.length := by
      cases failure with
      | none => exact le_rfl
      | some count => exact (fewer count rfl).le
    obtain ⟨turns, run⟩ := run_send nb fits size
    obtain ⟨turns', run'⟩ := run_sent nb (data.drop (failure.getD data.length))
      (data.take (failure.getD data.length)) size
    refine ⟨_, _, _, run.append run', rfl, ?_, ?_⟩
    · cases failure with
      | none => simp
      | some count =>
        have less := fewer count rfl
        have more : data.drop count ≠ [] := by simpa using less
        simp [more, less.le]
    · exact same.symm
  · rintro ⟨turns, c, result, run, returned, rfl, rfl⟩
    have exact_ : Exact data size c :=
      run.invariant (fun exact_ stepped => exact_.step stepped) (exact_start [] data size)
    have whole := exact_.whole
    have tells := exact_.sender
    rw [returned] at tells
    generalize c.receiving.data ++ c.channel = accepted at whole
    by_cases done : result = 0
    · have all : c.sending.left = [] := not_not.mp (tells.mp done)
      rw [all, List.append_nil] at whole
      simp [done, whole]
    · have more : c.sending.left ≠ [] := not_not.mp (tells.not.mp done)
      have less : accepted.length < data.length := by
        rw [← whole, List.length_append]
        exact Nat.lt_add_of_pos_right (List.length_pos_iff.mpr more)
      simp only [done, if_false, Option.mem_def, Option.some.injEq, forall_eq', less, Option.getD_some, true_and]
      rw [← whole, List.take_left]

/-- A connection that breaks after the first of two bytes. -/
theorem send_refines_sample : ∃ turns c result, Run (Steps (step? true true)) (start [] [7, 8] 0) turns c ∧
    c.sending.place = .returned result ∧ result ≠ 0 := by
  let p := ProducerCli.setDescriptor { connections := [⟨0, false, 3⟩] } 3 (some (.fresh .tracker))
  obtain ⟨turns, c, result, run, returned, failed, -⟩ :=
    (send_refines true 0 p (ProducerCli.setLink { p with sends := 1 } 0 (some ⟨[(0, 7)], [], .tracker⟩)) 0
      (.fresh .tracker) [7, 8] (some 1) rfl).mp rfl
  refine ⟨turns, c, result, run, returned, fun done => ?_⟩
  rw [if_pos done] at failed
  cases failed

theorem receive_eq {p : ProducerCli} {server : Nat} {link : Link} (connected : p.link server = some link)
    (failure : Option Nat) :
    p.receive server failure =
      if failure.getD responseHeaderSize ≤ link.outbox.length ∧ ∀ count ∈ failure, count < responseHeaderSize then
        some (if failure = none then some (link.outbox.take responseHeaderSize) else none,
          p.setLink server (some { link with outbox := link.outbox.drop (failure.getD responseHeaderSize) }))
      else none := by
  cases failure with
  | none => simp [ProducerCli.receive, connected]
  | some count => simp [ProducerCli.receive, connected, and_comm]

/-- The receive of the producer takes just the steps that `tcprecvdata_nb` can take, for
any way in which the bytes came. -/
theorem receive_refines (nb : Bool) (p q : ProducerCli) (server : Nat) (link : Link) (failure : Option Nat)
    (header : Option Bytes) (connected : p.link server = some link) :
    p.receive server failure = some (header, q) ↔ ∃ channel data turns c result,
      Run (Steps (step? nb true)) (start channel data responseHeaderSize) turns c ∧
        c.receiving.place = .returned result ∧ link.outbox = c.receiving.data ++ c.channel ∧
        failure = (if result = 0 then none else some c.receiving.data.length) ∧
        header = (if result = 0 then some c.receiving.data else none) ∧
        q = p.setLink server (some { link with outbox := c.channel }) := by
  rw [receive_eq connected, Option.ite_none_right_eq_some, Option.some.injEq, Prod.mk.injEq]
  constructor
  · rintro ⟨⟨inside, fewer⟩, same, same'⟩
    have fits : failure.getD responseHeaderSize ≤ responseHeaderSize := by
      cases failure with
      | none => exact le_rfl
      | some count => exact (fewer count rfl).le
    obtain ⟨turns, run⟩ := run_receive nb inside fits
    obtain ⟨turns', run'⟩ := run_received nb (link.outbox.drop (failure.getD responseHeaderSize))
      (link.outbox.take (failure.getD responseHeaderSize)) (responseHeaderSize - failure.getD responseHeaderSize)
    refine ⟨_, _, _, _, _, run.append run', rfl, (List.take_append_drop ..).symm, ?_, ?_, same'.symm⟩
    · cases failure with
      | none => simp
      | some count =>
        have more : responseHeaderSize - count ≠ 0 := Nat.sub_ne_zero_of_lt (fewer count rfl)
        have length : (link.outbox.take count).length = count := List.length_take_of_le inside
        simp [more, length]
    · cases failure with
      | none => simpa using same.symm
      | some count =>
        have more : responseHeaderSize - count ≠ 0 := Nat.sub_ne_zero_of_lt (fewer count rfl)
        simpa [more] using same.symm
  · rintro ⟨channel, data, turns, c, result, run, returned, arrived, rfl, rfl, rfl⟩
    have exact_ : Exact (channel ++ data) responseHeaderSize c :=
      run.invariant (fun exact_ stepped => exact_.step stepped) (exact_start channel data responseHeaderSize)
    have counted := exact_.counted
    have tells := exact_.receiver
    rw [returned] at tells
    by_cases done : result = 0
    · have all : c.receiving.leftBytes = 0 := not_not.mp (tells.mp done)
      have length : c.receiving.data.length = responseHeaderSize := by omega
      simp [done, arrived, ← length]
    · have more : c.receiving.leftBytes ≠ 0 := not_not.mp (tells.not.mp done)
      have less : c.receiving.data.length < responseHeaderSize := by omega
      simp [done, arrived, less]

/-- One byte and then an error. -/
theorem receive_refines_sample : ∃ channel data turns c result,
    Run (Steps (step? true true)) (start channel data responseHeaderSize) turns c ∧
      c.receiving.place = .returned result ∧ result ≠ 0 := by
  let p := ProducerCli.setDescriptor { connections := [⟨0, false, 3⟩] } 3 (some ⟨[], [7], .tracker⟩)
  obtain ⟨channel, data, turns, c, result, run, returned, -, failed, -⟩ :=
    (receive_refines true p (p.setLink 0 (some ⟨[], [], .tracker⟩)) 0 ⟨[], [7], .tracker⟩ (some 1) none rfl).mp rfl
  refine ⟨channel, data, turns, c, result, run, returned, fun done => ?_⟩
  rw [if_pos done] at failed
  cases failed

end Fdfs2qq.Transfer
