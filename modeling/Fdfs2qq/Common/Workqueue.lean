import Mathlib.Logic.Function.Basic
import Fdfs2qq.Lib.Pool

/-! `workqueue.cc`: a pool of workers that take jobs off a list under one mutex and
one condition variable, and the callers that add jobs or shut the pool down. One
step is one access of shared data. Workers that were freed keep their bytes. -/
namespace Fdfs2qq.Common
open Lib

/-- The fields `prev` and `next` of a list item. -/
structure Links where
  prev : Option Nat := none
  next : Option Nat := none
deriving DecidableEq

abbrev Items := Nat → Links

/-- `LL_ADD(item, list)`: the head that is pushed down keeps its `prev`. -/
def llAdd (items : Items) (list : Option Nat) (item : Nat) : Items × Option Nat :=
  (Function.update items item ⟨none, list⟩, some item)

def llRemove (items : Items) (list : Option Nat) (item : Nat) : Items × Option Nat :=
  let items := match (items item).prev with
    | some prev => Function.update items prev { items prev with next := (items item).next }
    | none => items
  let items := match (items item).next with
    | some next => Function.update items next { items next with prev := (items item).prev }
    | none => items
  (Function.update items item {}, if list = some item then (items item).next else list)

/-- The items from the head on, at most `fuel` of them. -/
def follow (items : Items) : Nat → Option Nat → List Nat
  | 0, _ | _, none => []
  | fuel + 1, some item => item :: follow items fuel (items item).next

/-- Where a worker stands in `worker_function`. -/
inductive Worker where
  /-- `pthread_mutex_lock` at the head of the loop -/
  | lock
  /-- `while (waiting_jobs == NULL)` -/
  | jobs
  /-- `if (terminate) break` in the inner loop -/
  | terminate
  /-- `pthread_cond_wait` gives the mutex back. -/
  | wait
  /-- In `pthread_cond_wait`, until it is woken and has the mutex again. -/
  | asleep
  /-- `if (terminate) break` after the inner loop -/
  | terminate'
  /-- `job = waiting_jobs` and `LL_REMOVE` -/
  | take
  | unlock (job : Option Nat)
  /-- `job->job_function(job)` -/
  | run (job : Nat)
  /-- After `free(worker)`. The mutex is not given back. -/
  | exited
deriving DecidableEq

/-- Where a caller stands: in what comes before `workqueue_add_job`, in
`workqueue_add_job`, or in `workqueue_shutdown`. -/
inductive Caller where
  | idle
  | addLock (job : Nat)
  | add (job : Nat)
  | signal
  | addUnlock
  /-- The loop that sets `terminate`, before it looks at this worker. -/
  | walk (worker : Option Nat)
  /-- `worker = worker->next` -/
  | next (worker : Nat)
  | shutdownLock
  | clearWorkers
  | clearJobs
  | broadcast
  | shutdownUnlock
deriving DecidableEq

inductive Thread where
  | worker (place : Worker)
  | caller (place : Caller)
deriving DecidableEq

/-- `workqueue_t` and the objects around it. `jobs` are the `job_t` made so far with
their `user_data`, and `user` is the state they work on. The last fields are what
has happened: jobs added, taken, dropped by a shutdown and finished, and whether a
freed worker was touched. -/
structure Workqueue (D U : Type*) where
  mutex : Option Nat := none
  sleeping : List Nat := []
  workers : Option Nat
  workerItems : Items
  terminate : Nat → Bool := fun _ => false
  freed : List Nat := []
  waitingJobs : Option Nat := none
  jobItems : Items := fun _ => {}
  jobs : List D := []
  user : U
  added : List Nat := []
  taken : List Nat := []
  dropped : List Nat := []
  finished : List Nat := []
  touched : Bool := false

/-- The client code: what a caller does before it has a job, and one step of a
job's function, which tells whether it returned. -/
structure Program (D U C : Type*) where
  prepare : C → U → Option (Option D × U)
  jobFunction : D → C → U → Option (Bool × U)

/-- What the code does not decide: which call an idle caller makes, which sleeper is
signalled, and the client code's own choices. -/
structure Choice (C : Type*) where
  shutdown : Bool := false
  wake : Nat := 0
  own : C

variable {D U C : Type*}

namespace Workqueue

variable (q : Workqueue D U)

/-- The jobs on the list, the newest first. -/
def waiting : List Nat := follow q.jobItems q.jobs.length q.waitingJobs

/-- `pthread_mutex_lock` by this thread, blocked while another has the mutex. -/
def acquire (i : Nat) : Option (Workqueue D U) :=
  if q.mutex = none then some { q with mutex := some i } else none

def release : Workqueue D U := { q with mutex := none }

def addJob (job : Nat) : Workqueue D U :=
  let (items, head) := llAdd q.jobItems q.waitingJobs job
  { q with jobItems := items, waitingJobs := head, added := q.added ++ [job] }

def takeJob : Option Nat × Workqueue D U :=
  match q.waitingJobs with
  | none => (none, q)
  | some job =>
    let (items, head) := llRemove q.jobItems q.waitingJobs job
    (some job, { q with jobItems := items, waitingJobs := head, taken := q.taken ++ [job] })

end Workqueue

def Worker.step (program : Program D U C) (i : Nat) (o : Choice C) (q : Workqueue D U) :
    Worker → Option (Worker × Workqueue D U)
  | .lock => (q.acquire i).map (.jobs, ·)
  | .jobs => some (if q.waitingJobs = none then .terminate else .terminate', q)
  | .terminate => some (if q.terminate i then .terminate' else .wait, q)
  | .wait => some (.asleep, { q.release with sleeping := q.sleeping ++ [i] })
  | .asleep => if i ∈ q.sleeping then none else (q.acquire i).map (.jobs, ·)
  | .terminate' =>
    -- the break leaves the mutex locked
    if q.terminate i then some (.exited, { q with freed := q.freed ++ [i] }) else some (.take, q)
  | .take =>
    let (job, q) := q.takeJob
    some (.unlock job, q)
  | .unlock none => some (.lock, q.release)
  | .unlock (some job) => some (.run job, q.release)
  | .run job =>
    q.jobs[job]?.bind fun data => (program.jobFunction data o.own q.user).map fun (returned, user) =>
      if returned then (.lock, { q with user := user, finished := q.finished ++ [job] })
      else (.run job, { q with user := user })
  | .exited => none

def Caller.step (program : Program D U C) (i : Nat) (o : Choice C) (q : Workqueue D U) :
    Caller → Option (Caller × Workqueue D U)
  | .idle =>
    if o.shutdown then some (.walk q.workers, q)
    else (program.prepare o.own q.user).map fun
      | (none, user) => (.idle, { q with user := user })
      | (some data, user) =>
        (.addLock q.jobs.length, { q with user := user, jobs := q.jobs ++ [data] })
  | .addLock job => (q.acquire i).map (.add job, ·)
  | .add job => some (.signal, q.addJob job)
  | .signal => some (.addUnlock, { q with sleeping := q.sleeping.eraseIdx (o.wake % q.sleeping.length) })
  | .addUnlock => some (.idle, q.release)
  | .walk none => some (.shutdownLock, q)
  | .walk (some worker) =>
    some (.next worker, { q with
      terminate := Function.update q.terminate worker true
      touched := q.touched || worker ∈ q.freed })
  | .next worker =>
    some (.walk (q.workerItems worker).next, { q with touched := q.touched || worker ∈ q.freed })
  | .shutdownLock => (q.acquire i).map (.clearWorkers, ·)
  | .clearWorkers => some (.clearJobs, { q with workers := none })
  | .clearJobs => some (.broadcast, { q with waitingJobs := none, dropped := q.dropped ++ q.waiting })
  | .broadcast => some (.shutdownUnlock, { q with sleeping := [] })
  | .shutdownUnlock => some (.idle, q.release)

def Thread.step (program : Program D U C) (i : Nat) (o : Choice C) (t : Thread) (q : Workqueue D U) :
    Option (Thread × Workqueue D U) :=
  match t with
  | .worker w => (w.step program i o q).map fun (w, q) => (.worker w, q)
  | .caller c => (c.step program i o q).map fun (c, q) => (.caller c, q)

def spurious (i : Nat) (q : Workqueue D U) : Option (Workqueue D U) :=
  some { q with sleeping := q.sleeping.erase i }

abbrev Process (D U : Type*) := Pool (Workqueue D U) Thread

abbrev Event (C : Type*) := Pool.Label (Choice C) Nat

def Process.step? (program : Program D U C) (p : Process D U) (e : Event C) : Option (Process D U) :=
  Pool.step? (Thread.step program) spurious p e

/-- The list of workers after the loop of `workqueue_init`. -/
def workerList (numWorkers : Nat) : Items × Option Nat :=
  (List.range numWorkers).foldl (fun (items, list) worker => llAdd items list worker) (fun _ => {}, none)

/-- After `workqueue_init(workqueue, numWorkers)`, with callers that are idle. The
first threads are the workers. -/
def Process.start (user : U) (numWorkers callers : Nat) : Process D U where
  shared :=
    { workers := (workerList (max 1 numWorkers)).2, workerItems := (workerList (max 1 numWorkers)).1,
      user := user }
  threads := List.replicate (max 1 numWorkers) (.worker .lock) ++ List.replicate callers (.caller .idle)

end Fdfs2qq.Common
