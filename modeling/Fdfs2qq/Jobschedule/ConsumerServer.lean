import Fdfs2qq.Lib.Ledger
import Fdfs2qq.Common.WorkqueueJobs

/-! `ConsumerCli`: the clients of the server, from the accept callback through the
work queue to the job that serves and ends them. Which callbacks the event loop of a
client makes, and when it returns, is left open. -/
namespace Fdfs2qq.Jobschedule
open Lib Common

/-- A descriptor of the process, or an object of libevent or of the heap. -/
inductive Resource where
  | descriptor (fd : Nat)
  | object (address : Nat)
deriving DecidableEq

structure Client where
  fd : Int := 0
  evbase : Option Nat := none
  bufEv : Option Nat := none
  outputBuffer : Option Nat := none

/-- `job_t`, and the object it lies in. -/
structure Job where
  memory : Nat
  userData : Nat

/-- What the server holds, how many objects were ever made, and what lies in the
clients, by address. Addresses are not used again. -/
structure Server where
  held : Ledger Resource := {}
  made : Nat := 0
  clients : Nat → Client := fun _ => {}

namespace Server

def new (s : Server) (succeeds : Bool) : Option Nat × Server :=
  if succeeds then (some s.made, { s with held := s.held.acquire (.object s.made), made := s.made + 1 })
  else (none, s)

/-- An access of what the pointer points to. -/
def use (s : Server) : Option Nat → Server
  | some address => { s with held := s.held.use (.object address) }
  | none => { s with held := { s.held with misused := true } }

def free (s : Server) (address : Nat) : Server := { s with held := s.held.release (.object address) }

def close (s : Server) (fd : Int) : Server := { s with held := s.held.release (.descriptor fd.toNat) }

def store (s : Server) (client : Nat) (write : Client → Client) : Server :=
  { s.use (some client) with clients := Function.update s.clients client (write (s.clients client)) }

/-- `client->field = ..._new(...)` -/
def attach (s : Server) (client : Nat) (succeeds : Bool) (write : Option Nat → Client → Client) :
    Option Nat × Server :=
  let (field, s) := s.new succeeds
  (field, s.store client (write field))

def closeClient (s : Server) (client : Nat) : Server :=
  let s := s.use (some client)
  let fd := (s.clients client).fd
  if fd ≥ 0 then (s.close fd).store client ({ · with fd := -1 }) else s

/-- `if (field != NULL) { ..._free(field); field = NULL; }` -/
def dispose (s : Server) (client : Nat) (field : Client → Option Nat) (clear : Client → Client) : Server :=
  match field (s.clients client) with
  | some address => (s.free address).store client clear
  | none => s

def closeAndFreeClient (s : Server) (client : Nat) : Server :=
  let s := s.closeClient client
  let s := s.dispose client Client.bufEv ({ · with bufEv := none })
  let s := s.dispose client Client.evbase ({ · with evbase := none })
  let s := s.dispose client Client.outputBuffer ({ · with outputBuffer := none })
  s.free client

structure Accepted where
  clientFd : Int
  setnonblock : Bool := true
  client : Bool := true
  outputBuffer : Bool := true
  evbase : Bool := true
  bufEv : Bool := true
  job : Bool := true

/-- `_On_accept` after `accept`, up to the call of `workqueue_add_job`. -/
def setUp (o : Accepted) (s : Server) : Option Job × Server :=
  if ¬ o.setnonblock then (none, s.close o.clientFd)
  else
    match s.new o.client with
    | (none, s) => (none, s.close o.clientFd)
    | (some client, s) =>
      let s := s.store client fun _ => { fd := o.clientFd }
      match s.attach client o.outputBuffer fun field c => { c with outputBuffer := field } with
      | (none, s) => (none, s.closeAndFreeClient client)
      | (some _, s) =>
        match s.attach client o.evbase fun field c => { c with evbase := field } with
        | (none, s) => (none, s.closeAndFreeClient client)
        | (some _, s) =>
          match s.attach client o.bufEv fun field c => { c with bufEv := field } with
          | (none, s) => (none, s.closeAndFreeClient client)
          | (some _, s) =>
            match s.new o.job with
            | (none, s) => (none, s.closeAndFreeClient client)
            | (some job, s) => (some ⟨job, client⟩, s)

/-- `_On_accept`. The kernel hands out no descriptor that is open. -/
def onAccept (o : Accepted) (s : Server) : Option (Option Job × Server) :=
  if o.clientFd < 0 then some (none, s)
  else if .descriptor o.clientFd.toNat ∈ s.held.live then none
  else some (setUp o { s with held := s.held.acquire (.descriptor o.clientFd.toNat) })

inductive Callback where
  /-- `_Buffered_on_read`, and whether `bufferevent_write_buffer` succeeds -/
  | read (written : Bool)
  /-- `_Buffered_on_error` -/
  | error
  /-- It returns. -/
  | finish

/-- The loop works on the event base and on the buffered event in it. -/
def dispatch (s : Server) (client : Nat) : Server :=
  (s.use (s.clients client).evbase).use (s.clients client).bufEv

/-- `_Buffered_on_read`, without the message -/
def bufferedOnRead (s : Server) (client : Nat) (written : Bool) : Server :=
  let s := (s.use (some client)).use (s.clients client).outputBuffer
  if written then s else s.closeClient client

/-- `_Server_job_function`, one callback a step. -/
def serverJobFunction (job : Job) (event : Callback) (s : Server) : Bool × Server :=
  let client := job.userData
  let s := s.dispatch client
  match event with
  | .read written => (false, s.bufferedOnRead client written)
  | .error => (false, s.closeClient client)
  | .finish => (true, (s.closeAndFreeClient client).free job.memory)

/-- What is left open in a step of the server. -/
structure Outcome where
  accepted : Accepted := { clientFd := -1 }
  event : Callback := .finish

def program : Program Job Server Outcome where
  prepare o s := s.onAccept o.accepted
  jobFunction job o s := some (s.serverJobFunction job o.event)

end Server

end Fdfs2qq.Jobschedule
