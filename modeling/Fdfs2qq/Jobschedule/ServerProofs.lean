import Mathlib.Data.Multiset.Bind
import Fdfs2qq.Jobschedule.ConsumerServer

/-! What the server holds along every run: the resources of the clients whose job is
not finished, each once, and nothing else. -/
namespace Fdfs2qq.Jobschedule
open Lib Common

def Client.equipped (c : Client) : Prop := c.bufEv ≠ none ∧ c.evbase ≠ none ∧ c.outputBuffer ≠ none

def owned : Option Nat → Multiset Resource
  | some address => {.object address}
  | none => 0

def Client.owns (c : Client) : Multiset Resource :=
  (if c.fd ≥ 0 then {.descriptor c.fd.toNat} else 0) + owned c.bufEv + owned c.evbase + owned c.outputBuffer

namespace Server

variable {s : Server} {m : Multiset Resource} {client : Nat}

/-- These things are held, nothing was misused, and the next object is a new one. -/
structure Has (s : Server) (m : Multiset Resource) : Prop where
  held : s.held.Holds m
  made : ∀ address, .object address ∈ m → address < s.made

theorem Has.use {address : Nat} (has : s.Has (.object address ::ₘ m)) : s.use (some address) = s := by
  rw [Server.use, Ledger.use, if_pos has.held.mem]

theorem Has.free {address : Nat} (has : s.Has (.object address ::ₘ m)) : (s.free address).Has m :=
  ⟨has.held.release, fun address mem => has.made address (Multiset.mem_cons_of_mem mem)⟩

theorem Has.close {fd : Int} (has : s.Has (.descriptor fd.toNat ::ₘ m)) : (s.close fd).Has m :=
  ⟨has.held.release, fun address mem => has.made address (Multiset.mem_cons_of_mem mem)⟩

theorem Has.new (has : s.Has m) : (s.new true).2.Has (.object s.made ::ₘ m) := by
  have fresh : .object s.made ∉ m := fun mem => lt_irrefl _ (has.made _ mem)
  refine ⟨has.held.acquire fresh, fun address mem => ?_⟩
  obtain same | mem := Multiset.mem_cons.mp mem
  · cases same
    exact Nat.lt_succ_self _
  · exact Nat.lt_succ_of_lt (has.made address mem)

/-- What a job owns: its memory, that of its client, and what the fields own. -/
def owns (s : Server) (job : Job) : Multiset Resource :=
  .object job.memory ::ₘ .object job.userData ::ₘ (s.clients job.userData).owns

/-- The client has these fields, its memory and what they own are held, and so is the rest. -/
structure Serves (s : Server) (client : Nat) (c : Client) (rest : Multiset Resource) : Prop where
  fields : s.clients client = c
  has : s.Has (.object client ::ₘ (c.owns + rest))

def Writes (client : Nat) (s s' : Server) : Prop := ∀ other ≠ client, s'.clients other = s.clients other

theorem Writes.trans {s' s'' : Server} (first : Writes client s s') (later : Writes client s' s'') :
    Writes client s s'' := fun other apart => (later other apart).trans (first other apart)

variable {c : Client} {rest extra : Multiset Resource}

theorem store_spec (fields : s.clients client = c) (write : Client → Client)
    (has : s.Has (.object client ::ₘ ((write c).owns + rest))) :
    (s.store client write).Serves client (write c) rest ∧ Writes client s (s.store client write) := by
  rw [store, has.use]
  refine ⟨⟨?_, has.held, has.made⟩, fun other apart => Function.update_of_ne apart ..⟩
  rw [← fields]
  exact Function.update_self ..

theorem closeClient_spec (serves : s.Serves client c rest) :
    (s.closeClient client).Serves client { c with fd := min c.fd (-1) } rest ∧
      Writes client s (s.closeClient client) := by
  rw [closeClient, serves.has.use, serves.fields]
  split
  next connected =>
    have now : min c.fd (-1) = -1 := by omega
    have before : c.owns = .descriptor c.fd.toNat ::ₘ Client.owns { c with fd := -1 } := by
      simp [Client.owns, connected, add_assoc]
    have has := serves.has
    rw [before, Multiset.cons_add, Multiset.cons_swap] at has
    rw [now]
    exact store_spec (s := s.close c.fd) serves.fields ({ · with fd := -1 }) has.close
  next closed =>
    have now : min c.fd (-1) = c.fd := by omega
    rw [now]
    exact ⟨serves, fun _ _ => rfl⟩

theorem dispose_spec (field : Client → Option Nat) (clear : Client → Client)
    (serves : s.Serves client c rest) (before : c.owns = owned (field c) + (clear c).owns)
    (idle : field c = none → clear c = c) :
    (s.dispose client field clear).Serves client (clear c) rest ∧
      Writes client s (s.dispose client field clear) := by
  rw [dispose, serves.fields]
  cases found : field c with
  | none =>
    rw [idle found]
    exact ⟨serves, fun _ _ => rfl⟩
  | some address =>
    have has := serves.has
    rw [before, found, owned, Multiset.singleton_add, Multiset.cons_add, Multiset.cons_swap] at has
    exact store_spec (s := s.free address) serves.fields clear has.free

theorem closeAndFreeClient_spec (serves : s.Serves client c rest) :
    (s.closeAndFreeClient client).Has rest ∧ Writes client s (s.closeAndFreeClient client) := by
  obtain ⟨serves, closed⟩ := closeClient_spec serves
  obtain ⟨serves, bufEv⟩ := dispose_spec Client.bufEv ({ · with bufEv := none }) serves
    (by simp only [Client.owns, owned]; abel) fun idle => by rw [← idle]
  obtain ⟨serves, evbase⟩ := dispose_spec Client.evbase ({ · with evbase := none }) serves
    (by simp only [Client.owns, owned]; abel) fun idle => by rw [← idle]
  obtain ⟨serves, outputBuffer⟩ := dispose_spec Client.outputBuffer ({ · with outputBuffer := none }) serves
    (by simp only [Client.owns, owned]; abel) fun idle => by rw [← idle]
  have has := serves.has.free
  have nothing : ¬ min c.fd (-1) ≥ 0 := by omega
  simp only [Client.owns, owned, nothing, if_false, zero_add] at has
  exact ⟨has, ((closed.trans bufEv).trans evbase).trans outputBuffer⟩

theorem new_spec (has : s.Has m) {succeeds : Bool} {object : Option Nat} {s' : Server}
    (made : s.new succeeds = (object, s')) :
    s'.Has (owned object + m) ∧ s'.clients = s.clients ∧ ∀ address ∈ object, address = s.made := by
  cases succeeds with
  | false =>
    cases made
    rw [owned, zero_add]
    exact ⟨has, rfl, nofun⟩
  | true =>
    cases made
    exact ⟨has.new, rfl, fun _ same => (Option.some.inj same).symm⟩

theorem attach_spec (serves : s.Serves client c rest) {succeeds : Bool} {field : Option Nat} {s' : Server}
    {write : Option Nat → Client → Client} (attached : s.attach client succeeds write = (field, s'))
    (more : (write field c).owns = c.owns + owned field) :
    s'.Serves client (write field c) rest ∧ Writes client s s' := by
  cases made : s.new succeeds with
  | mk object s₁ =>
    obtain ⟨has, clients, -⟩ := new_spec serves.has made
    simp only [attach, made, Prod.mk.injEq] at attached
    obtain ⟨rfl, rfl⟩ := attached
    rw [Multiset.add_cons, ← add_assoc, add_comm (owned object), ← more] at has
    obtain ⟨serves', others⟩ := store_spec (by rw [clients]; exact serves.fields) (write object) has
    exact ⟨serves', fun other apart => by rw [others other apart, clients]⟩

/-- What is so after an accept: nothing new is held, or a job with its client. -/
structure Accepts (s : Server) (m : Multiset Resource) (job : Option Job) (s' : Server) : Prop where
  writes : ∀ other < s.made, s'.clients other = s.clients other
  refused : job = none → s'.Has m
  served : ∀ j ∈ job, s.made ≤ j.userData ∧ s'.Has (s'.owns j + m) ∧
    (s'.clients j.userData).fd ≥ 0 ∧ (s'.clients j.userData).equipped

theorem setUp_spec {o : Accepted} (connected : o.clientFd ≥ 0)
    (has : s.Has (.descriptor o.clientFd.toNat ::ₘ m)) :
    s.Accepts m (s.setUp o).1 (s.setUp o).2 := by
  unfold setUp
  split
  next => exact ⟨fun _ _ => rfl, fun _ => has.close, nofun⟩
  split
  next s₁ made =>
    obtain ⟨has, clients, -⟩ := new_spec has made
    rw [owned, zero_add] at has
    exact ⟨fun other _ => by rw [← clients]; rfl, fun _ => has.close, nofun⟩
  next client s₁ made =>
    obtain ⟨has, clients, fresh⟩ := new_spec has made
    obtain rfl := fresh client rfl
    have first : Client.owns { fd := o.clientFd } = {.descriptor o.clientFd.toNat} := by
      simp [Client.owns, connected, owned]
    obtain ⟨serves, others⟩ := store_spec rfl (fun _ => { fd := o.clientFd }) (by rw [first]; exact has)
    have writes : Writes s.made s (s₁.store s.made fun _ => { fd := o.clientFd }) :=
      fun other apart => by rw [others other apart, clients]
    have refuses {c : Client} {s₂ : Server} (serves : s₂.Serves s.made c m) (writes : Writes s.made s s₂) :
        s.Accepts m none (s₂.closeAndFreeClient s.made) := by
      obtain ⟨has, others⟩ := closeAndFreeClient_spec serves
      exact ⟨fun other less => writes.trans others other less.ne, fun _ => has, nofun⟩
    simp only
    split
    next s₂ attached =>
      obtain ⟨serves, others⟩ := attach_spec serves attached (by simp [Client.owns, owned])
      exact refuses serves (writes.trans others)
    next outputBuffer s₂ attached =>
      obtain ⟨serves, others⟩ := attach_spec serves attached (by simp [Client.owns, owned])
      have writes := writes.trans others
      split
      next s₃ attached =>
        obtain ⟨serves, others⟩ := attach_spec serves attached (by simp [Client.owns, owned])
        exact refuses serves (writes.trans others)
      next evbase s₃ attached =>
        obtain ⟨serves, others⟩ := attach_spec serves attached (by simp [Client.owns, owned]; abel)
        have writes := writes.trans others
        split
        next s₄ attached =>
          obtain ⟨serves, others⟩ := attach_spec serves attached (by simp [Client.owns, owned])
          exact refuses serves (writes.trans others)
        next bufEv s₄ attached =>
          obtain ⟨serves, others⟩ := attach_spec serves attached (by simp [Client.owns, owned]; abel)
          have writes := writes.trans others
          split
          next s₅ made =>
            obtain ⟨has, clients, -⟩ := new_spec serves.has made
            rw [owned, zero_add] at has
            exact refuses ⟨by rw [clients, serves.fields], has⟩ fun other apart => by
              rw [clients, writes other apart]
          next job s₅ made =>
            obtain ⟨has, clients, -⟩ := new_spec serves.has made
            refine ⟨fun other less => by rw [clients, writes other less.ne], nofun, fun j same => ?_⟩
            obtain rfl := Option.some.inj same
            have fields := serves.fields
            rw [← clients] at fields
            refine ⟨le_rfl, ?_, ?_, ?_⟩
            · rw [owns, fields, Multiset.cons_add, Multiset.cons_add]
              rwa [owned, Multiset.singleton_add] at has
            · rw [fields]
              exact connected
            · rw [fields]
              exact ⟨nofun, nofun, nofun⟩

theorem onAccept_spec {o : Accepted} {job : Option Job} {s' : Server} (has : s.Has m)
    (accepted : s.onAccept o = some (job, s')) : s.Accepts m job s' := by
  unfold onAccept at accepted
  split at accepted
  next =>
    cases accepted
    exact ⟨fun _ _ => rfl, fun _ => has, nofun⟩
  split at accepted
  next => cases accepted
  next connected fresh =>
    have accepts := setUp_spec (s := { s with held := s.held.acquire (.descriptor o.clientFd.toNat) })
      (m := m) (by omega) ⟨has.held.acquire ?_, fun address mem => ?_⟩
    · rw [Option.some.inj accepted] at accepts
      exact ⟨accepts.writes, accepts.refused, accepts.served⟩
    · rwa [← has.held.live]
    · exact has.made address ((Multiset.mem_cons.mp mem).resolve_left nofun)

theorem Has.use_of_mem {address : Nat} (has : s.Has m) (mem : .object address ∈ m) :
    s.use (some address) = s := by
  obtain ⟨rest, rfl⟩ := Multiset.exists_cons_of_mem mem
  exact has.use

theorem Serves.use (serves : s.Serves client c rest) {field : Option Nat} (filled : field ≠ none)
    (inside : owned field ≤ c.owns) : s.use field = s := by
  obtain ⟨address, rfl⟩ := Option.ne_none_iff_exists'.mp filled
  refine serves.has.use_of_mem (Multiset.mem_cons_of_mem (Multiset.mem_add.mpr (.inl ?_)))
  exact Multiset.singleton_le.mp inside

theorem Serves.dispatch (serves : s.Serves client c rest) (equipped : c.equipped) :
    s.dispatch client = s := by
  obtain ⟨bufEv, evbase, -⟩ := equipped
  rw [Server.dispatch, serves.fields, serves.use evbase, serves.use bufEv]
  · exact ((Multiset.le_add_left ..).trans (Multiset.le_add_right ..)).trans (Multiset.le_add_right ..)
  · exact (Multiset.le_add_left ..).trans (Multiset.le_add_right ..)

theorem bufferedOnRead_spec (serves : s.Serves client c rest) (equipped : c.equipped) (written : Bool) :
    ∃ c', Client.equipped c' ∧ (s.bufferedOnRead client written).Serves client c' rest ∧
      Writes client s (s.bufferedOnRead client written) := by
  have output : s.use c.outputBuffer = s := serves.use equipped.2.2 (Multiset.le_add_left ..)
  rw [bufferedOnRead, serves.has.use, serves.fields, output]
  cases written with
  | true => exact ⟨c, equipped, serves, fun _ _ => rfl⟩
  | false => exact ⟨{ c with fd := min c.fd (-1) }, equipped, closeClient_spec serves⟩

theorem serverJobFunction_spec {job : Job} {event : Callback} {returned : Bool} {s' : Server}
    (serves : s.Serves job.userData c (.object job.memory ::ₘ rest)) (equipped : c.equipped)
    (called : s.serverJobFunction job event = (returned, s')) :
    Writes job.userData s s' ∧ (returned = true → s'.Has rest) ∧
      (returned = false → ∃ c', Client.equipped c' ∧
        s'.Serves job.userData c' (.object job.memory ::ₘ rest)) := by
  simp only [serverJobFunction, serves.dispatch equipped] at called
  cases event with
  | read written =>
    cases called
    obtain ⟨c', equipped', serves', others⟩ := bufferedOnRead_spec serves equipped written
    exact ⟨others, nofun, fun _ => ⟨c', equipped', serves'⟩⟩
  | error =>
    cases called
    obtain ⟨serves', others⟩ := closeClient_spec serves
    exact ⟨others, nofun, fun _ => ⟨{ c with fd := min c.fd (-1) }, equipped, serves'⟩⟩
  | finish =>
    cases called
    obtain ⟨has, others⟩ := closeAndFreeClient_spec serves
    exact ⟨others, fun _ => has.free, nofun⟩

/-- The clients of the jobs not finished, and only they, hold what is held. Those whose
job was not begun still have their descriptor. -/
structure Tidy (s : Server) (idle running : Multiset Job) : Prop where
  has : s.Has ((idle + running).bind s.owns)
  equipped : ∀ job ∈ idle + running, (s.clients job.userData).equipped
  connected : ∀ job ∈ idle, (s.clients job.userData).fd ≥ 0

variable {s' : Server} {job : Job} {jobs idle running running' : Multiset Job}

theorem bind_owns_congr (same : ∀ job ∈ jobs, s'.clients job.userData = s.clients job.userData) :
    jobs.bind s'.owns = jobs.bind s.owns :=
  Multiset.bind_congr fun job mem => by rw [owns, owns, same job mem]

theorem Has.userData_lt (has : s.Has (jobs.bind s.owns)) (mem : job ∈ jobs) : job.userData < s.made :=
  has.made _ (Multiset.mem_bind.mpr ⟨job, mem, by simp [owns]⟩)

theorem Has.userData_ne (has : s.Has ((job ::ₘ jobs).bind s.owns)) {other : Job} (mem : other ∈ jobs) :
    other.userData ≠ job.userData := by
  intro same
  have distinct := has.held.distinct
  rw [Multiset.cons_bind] at distinct
  have mine : .object job.userData ∈ s.owns job := by simp [owns]
  have theirs : .object job.userData ∈ jobs.bind s.owns :=
    Multiset.mem_bind.mpr ⟨other, mem, by simp [owns, same]⟩
  exact Multiset.disjoint_left.mp (Multiset.nodup_add.mp distinct).2.2 mine theirs

theorem Has.serves (has : s.Has ((job ::ₘ jobs).bind s.owns)) :
    s.Serves job.userData (s.clients job.userData) (.object job.memory ::ₘ jobs.bind s.owns) := by
  refine ⟨rfl, ?_⟩
  rwa [Multiset.cons_bind, owns, Multiset.cons_add, Multiset.cons_add, Multiset.cons_swap,
    ← Multiset.add_cons] at has

/-- What a running job owns stands apart from what the others own. -/
theorem Tidy.has_cons (tidy : s.Tidy idle (job ::ₘ running)) :
    s.Has ((job ::ₘ (idle + running)).bind s.owns) := by
  rw [← Multiset.add_cons]
  exact tidy.has

theorem Tidy.userData_ne (tidy : s.Tidy idle (job ::ₘ running)) {other : Job} (mem : other ∈ idle + running) :
    other.userData ≠ job.userData := tidy.has_cons.userData_ne mem

theorem Tidy.of_same (tidy : s.Tidy idle running') (fewer : running ≤ running')
    (same : ∀ job ∈ idle + running, s'.clients job.userData = s.clients job.userData)
    (has : s'.Has ((idle + running).bind s.owns)) : s'.Tidy idle running := by
  refine ⟨?_, fun job mem => ?_, fun job mem => ?_⟩
  · rwa [bind_owns_congr same]
  · rw [same job mem]
    exact tidy.equipped job (Multiset.mem_of_le (Multiset.add_le_add_left fewer) mem)
  · rw [same job (Multiset.mem_add.mpr (.inl mem))]
    exact tidy.connected job mem

theorem program_keeps : program.Keeps Tidy where
  prepare {o s s' idle running} tidy accepted := by
    obtain ⟨writes, has, -⟩ := onAccept_spec tidy.has accepted
    exact tidy.of_same le_rfl (fun job mem => writes _ (tidy.has.userData_lt mem)) (has rfl)
  create {o s s' job idle running} tidy accepted := by
    obtain ⟨writes, -, served⟩ := onAccept_spec tidy.has accepted
    obtain ⟨-, has, connected, equipped⟩ := served job rfl
    have same : ∀ job ∈ idle + running, s'.clients job.userData = s.clients job.userData :=
      fun job mem => writes _ (tidy.has.userData_lt mem)
    refine ⟨?_, fun other mem => ?_, fun other mem => ?_⟩
    · rw [Multiset.cons_add, Multiset.cons_bind, bind_owns_congr same]
      exact has
    · rw [Multiset.cons_add] at mem
      obtain rfl | mem := Multiset.mem_cons.mp mem
      · exact equipped
      · rw [same other mem]
        exact tidy.equipped other mem
    · obtain rfl | mem := Multiset.mem_cons.mp mem
      · exact connected
      · rw [same other (Multiset.mem_add.mpr (.inl mem))]
        exact tidy.connected other mem
  start {s job idle running} tidy := by
    have moved : idle + job ::ₘ running = job ::ₘ idle + running := by
      rw [Multiset.add_cons, Multiset.cons_add]
    refine ⟨?_, ?_, fun other mem => tidy.connected other (Multiset.mem_cons_of_mem mem)⟩
    · rw [moved]
      exact tidy.has
    · rw [moved]
      exact tidy.equipped
  work {o s s' job idle running} tidy called := by
    have serves := tidy.has_cons.serves
    obtain ⟨others, -, goesOn⟩ := serverJobFunction_spec serves
      (tidy.equipped job (by simp)) (Option.some.inj called)
    obtain ⟨c, equipped, serves⟩ := goesOn rfl
    have same : ∀ other ∈ idle + running, s'.clients other.userData = s.clients other.userData :=
      fun other mem => others _ (tidy.userData_ne mem)
    refine ⟨?_, fun other mem => ?_, fun other mem => ?_⟩
    · have has := serves.has
      rw [Multiset.add_cons, Multiset.cons_bind, bind_owns_congr same, owns, serves.fields]
      rw [Multiset.add_cons, Multiset.cons_swap] at has
      rwa [Multiset.cons_add, Multiset.cons_add]
    · rw [Multiset.add_cons] at mem
      obtain rfl | mem := Multiset.mem_cons.mp mem
      · rw [serves.fields]
        exact equipped
      · rw [same other mem]
        exact tidy.equipped other (by rw [Multiset.add_cons]; exact Multiset.mem_cons_of_mem mem)
    · rw [same other (Multiset.mem_add.mpr (.inl mem))]
      exact tidy.connected other mem
  done {o s s' job idle running} tidy called := by
    have serves := tidy.has_cons.serves
    obtain ⟨others, has, -⟩ := serverJobFunction_spec serves
      (tidy.equipped job (by simp)) (Option.some.inj called)
    exact tidy.of_same (Multiset.le_cons_self running job) (fun other mem => others _ (tidy.userData_ne mem))
      (has rfl)

/-- In every run of the server, with any number of workers, accepts and shutdowns and any
callbacks, no descriptor and no object is given back twice, and no object is used after
that; the objects are the clients' own, and a descriptor is only opened and closed here.
What is held is what the clients own whose job is not finished, and while a job is not
begun, or was dropped by a shutdown, its descriptor stays open. -/
theorem clients_released (numWorkers callers : Nat) (events : List (Event Outcome)) (p : Process Job Server)
    (run : Run (Steps (Process.step? program)) (.start {} numWorkers callers) events p) :
    p.shared.user.held.misused = false ∧ p.shared.user.held.live.Nodup ∧
      (p.shared.user.held.live : Multiset Resource) =
        (p.shared.data p.idle + p.shared.data p.running).bind p.shared.user.owns ∧
      ∀ job ∈ p.shared.data p.idle, (p.shared.user.clients job.userData).fd ≥ 0 := by
  have tidy : Tidy p.shared.user (p.shared.data p.idle) (p.shared.data p.running) :=
    program_keeps.run ⟨⟨⟨rfl, rfl, Multiset.nodup_zero⟩, nofun⟩, nofun, nofun⟩ run
  have live := tidy.has.held.live
  refine ⟨tidy.has.held.sound, ?_, live, tidy.connected⟩
  rw [← Multiset.coe_nodup, live]
  exact tidy.has.held.distinct

/-- A client that ends with an error, and a second one that gets the same descriptor. -/
theorem clients_released_sample : ∃ p : Process Job Server, p.shared.finished = [0] ∧
    p.shared.user.held.misused = false ∧ .descriptor 5 ∈ p.shared.user.held.live := by
  obtain ⟨p, run, ended⟩ := exists_run_of_any (Process.step? program) (.start {} 1 1)
    (List.replicate 5 (.thread 1 ⟨false, 0, { accepted := { clientFd := 5 } }⟩) ++
      List.replicate 6 (.thread 0 ⟨false, 0, { event := .error }⟩) ++
      [.thread 0 ⟨false, 0, { event := .finish }⟩,
        .thread 1 ⟨false, 0, { accepted := { clientFd := 5 } }⟩])
    (fun p => p.shared.finished = [0] ∧ .descriptor 5 ∈ p.shared.user.held.live) (by decide +kernel)
  obtain ⟨finished, reused⟩ := of_decide_eq_true ended
  exact ⟨p, finished, (clients_released 1 1 _ p run).1, reused⟩

end Server

end Fdfs2qq.Jobschedule
