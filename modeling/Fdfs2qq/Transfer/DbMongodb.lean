import Fdfs2qq.Text
import Fdfs2qq.Lib.Pool

/-! `db_mongodb::Upsert` on a collection that many clients share: a count and,
where it finds nothing, an insert. Both are atomic at the server and succeed. -/
namespace Fdfs2qq.Transfer
open Lib

/-- A document: `_index_key` and, where the value is not empty, `v`. -/
structure Document where
  indexKey : Bytes
  v : Option Bytes
deriving DecidableEq

/-- The collection, and what the calls returned, each with its id. -/
structure DbMongodb where
  collection : List Document := []
  returned : List (Bytes × Int) := []
deriving DecidableEq

/-- Where a client stands: between two calls, or before the insert. -/
inductive Upsert where
  | count
  | insert (uniqId value : Bytes)
deriving DecidableEq

/-- `isExistByPrimarykey(local_collection, uniq_id)`: the count, limited to one,
is not zero. -/
def DbMongodb.isExistByPrimarykey (db : DbMongodb) (uniqId : Bytes) : Bool :=
  db.collection.any fun document => document.indexKey = uniqId

def document (uniqId value : Bytes) : Document where
  indexKey := uniqId
  v := if value = [] then none else some value

/-- One step of a client; a new call has this id and value. -/
def Upsert.step (_i : Nat) (call : Bytes × Bytes) (place : Upsert) (db : DbMongodb) :
    Option (Upsert × DbMongodb) :=
  match place with
  | .count =>
    if db.isExistByPrimarykey call.1
    then some (.count, { db with returned := db.returned ++ [(call.1, -1)] })
    else some (.insert call.1 call.2, db)
  | .insert uniqId value =>
    some (.count, { db with
      collection := db.collection ++ [document uniqId value]
      returned := db.returned ++ [(uniqId, 1)] })

abbrev Clients := Pool DbMongodb Upsert

abbrev Event := Pool.Label (Bytes × Bytes) Empty

def Clients.step? (p : Clients) (e : Event) : Option Clients :=
  Pool.step? Upsert.step Empty.elim p e

def Clients.start (collection : List Document) (clients : Nat) : Clients where
  shared := { collection := collection }
  threads := List.replicate clients .count

/-- No two documents have one id, at most one call for an id has found it new,
and all others answered that it exists. -/
structure DbMongodb.Dedups (db : DbMongodb) : Prop where
  documents : (db.collection.map Document.indexKey).Nodup
  new : ∀ uniqId, db.returned.count (uniqId, 1) ≤ 1
  others : ∀ r ∈ db.returned, r.2 = 1 ∨ r.2 = -1

def Upsert.inserts (uniqId : Bytes) : Upsert → Bool
  | .count => false
  | .insert id _ => id = uniqId

/-- No client counts for an id that another client is about to insert. -/
def Upsert.Alone (i : Nat) (call : Bytes × Bytes) (place : Upsert) (p : Clients) : Prop :=
  place = .count → ∀ other ∈ p.threads.eraseIdx i, other.inserts call.1 = false

def Clients.Alone (p : Clients) (e : Event) : Prop := Pool.Allows Upsert.Alone p e

instance (p : Clients) (e : Event) : Decidable (p.Alone e) :=
  have : ∀ i call place p, Decidable (Upsert.Alone i call place p) := fun _ _ _ _ =>
    inferInstanceAs (Decidable (_ → _))
  inferInstanceAs (Decidable (Pool.Allows Upsert.Alone p e))

/-- What holds between the steps of clients that keep alone. -/
structure Clients.Fits (p : Clients) : Prop where
  dedups : p.shared.Dedups
  fresh : ∀ (i : Nat) t uniqId, p.threads[i]? = some t → t.inserts uniqId →
    p.shared.isExistByPrimarykey uniqId = false
  apart : ∀ (i j : Nat) t u uniqId, i ≠ j → p.threads[i]? = some t → p.threads[j]? = some u →
    t.inserts uniqId → u.inserts uniqId = false
  known : ∀ uniqId, (uniqId, 1) ∈ p.shared.returned → p.shared.isExistByPrimarykey uniqId

theorem nodup_append {collection : List Document} {id value : Bytes}
    (distinct : (collection.map Document.indexKey).Nodup)
    (absent : (collection.any fun document => decide (document.indexKey = id)) = false) :
    ((collection ++ [document id value]).map Document.indexKey).Nodup := by
  rw [List.map_append]
  apply List.nodup_append.mpr
  refine ⟨distinct, by simp, fun key mem last mem' same => ?_⟩
  obtain ⟨d, inside, rfl⟩ := List.mem_map.mp mem
  cases List.mem_singleton.mp mem'
  rw [List.any_eq_false] at absent
  exact absent d inside (decide_eq_true same)

theorem isExist_append (db : DbMongodb) (returned) (id value uniqId : Bytes) :
    ({ collection := db.collection ++ [document id value], returned := returned } :
      DbMongodb).isExistByPrimarykey uniqId = (db.isExistByPrimarykey uniqId || decide (id = uniqId)) := by
  simp [DbMongodb.isExistByPrimarykey, document]

/-- A call that finds its id answers that it exists. -/
theorem Clients.Fits.found {p : Clients} (fits : p.Fits) (here : p.threads[i]? = some .count) (uniqId : Bytes) :
    Fits ⟨{ p.shared with returned := p.shared.returned ++ [(uniqId, -1)] }, p.threads.set i .count⟩ := by
  have threads : p.threads.set i .count = p.threads := by
    obtain ⟨inside, same⟩ := List.getElem?_eq_some_iff.mp here
    rw [← same, List.set_getElem_self]
  rw [threads]
  obtain ⟨⟨documents, new, others⟩, fresh, apart, known⟩ := fits
  refine ⟨⟨documents, fun id => ?_, fun r mem => ?_⟩, fresh, apart, fun id mem => known id ?_⟩
  · simpa [List.count_append, List.count_singleton] using new id
  · obtain mem | mem := List.mem_append.mp mem
    · exact others r mem
    · cases List.mem_singleton.mp mem
      exact .inr rfl
  · simpa using mem

theorem Clients.Fits.missed {p : Clients} (fits : p.Fits)
    (absent : p.shared.isExistByPrimarykey uniqId = false)
    (alone : ∀ other ∈ p.threads.eraseIdx i, other.inserts uniqId = false) :
    Fits ⟨p.shared, p.threads.set i (.insert uniqId value)⟩ := by
  obtain ⟨dedups, fresh, apart, known⟩ := fits
  have away {j : Nat} {u} (other : j ≠ i) (found : p.threads[j]? = some u) : u.inserts uniqId = false :=
    alone u (List.mem_eraseIdx_iff_getElem?.mpr ⟨j, other, found⟩)
  have split_set {j : Nat} {u} (found : (p.threads.set i (.insert uniqId value))[j]? = some u) :
      j = i ∧ u = .insert uniqId value ∨ j ≠ i ∧ p.threads[j]? = some u := by
    rw [List.getElem?_set] at found
    split at found
    next same =>
      split at found
      · exact .inl ⟨same.symm, (Option.some.inj found).symm⟩
      · cases found
    next other => exact .inr ⟨Ne.symm other, found⟩
  refine ⟨dedups, fun j u id found inserts => ?_, fun j k t u id other found found' inserts => ?_, known⟩
  · obtain ⟨-, rfl⟩ | ⟨-, before⟩ := split_set found
    · cases of_decide_eq_true inserts
      exact absent
    · exact fresh j u id before inserts
  · obtain ⟨rfl, rfl⟩ | ⟨off, before⟩ := split_set found
    all_goals obtain ⟨rfl, rfl⟩ | ⟨off', before'⟩ := split_set found'
    · contradiction
    · cases of_decide_eq_true inserts
      exact away off' before'
    · by_contra same
      simp only [Upsert.inserts, Bool.not_eq_false, decide_eq_true_eq] at same
      subst same
      rw [away off before] at inserts
      cases inserts
    · exact apart j k t u id other before before' inserts

theorem Clients.Fits.inserted {p : Clients} (fits : p.Fits)
    (here : p.threads[i]? = some (.insert uniqId value)) :
    Fits ⟨⟨p.shared.collection ++ [document uniqId value], p.shared.returned ++ [(uniqId, 1)]⟩,
      p.threads.set i .count⟩ := by
  obtain ⟨⟨documents, new, others⟩, fresh, apart, known⟩ := fits
  have absent := fresh i _ uniqId here (decide_eq_true rfl)
  have unanswered : p.shared.returned.count (uniqId, 1) = 0 := by
    rw [List.count_eq_zero]
    intro mem
    rw [known uniqId mem] at absent
    cases absent
  -- an id that is still to be inserted is another client's
  have split_set {j : Nat} {u id} (found : (p.threads.set i .count)[j]? = some u) (inserts : u.inserts id) :
      j ≠ i ∧ p.threads[j]? = some u := by
    rw [List.getElem?_set] at found
    split at found
    next same =>
      split at found
      · cases found
        cases inserts
      · cases found
    next other => exact ⟨Ne.symm other, found⟩
  refine ⟨⟨?_, fun id => ?_, fun r mem => ?_⟩, fun j u id found inserts => ?_,
    fun j k t u id other found found' inserts => ?_, fun id mem => ?_⟩
  · exact nodup_append documents absent
  · have count := new id
    rw [List.count_append, List.count_singleton]
    split
    next same =>
      have same : id = uniqId := (Prod.mk.inj (beq_iff_eq.mp same)).1.symm
      subst same
      omega
    next => exact count
  · obtain mem | mem := List.mem_append.mp mem
    · exact others r mem
    · cases List.mem_singleton.mp mem
      exact .inl rfl
  · obtain ⟨other, before⟩ := split_set found inserts
    rw [isExist_append, fresh j u id before inserts, Bool.false_or, decide_eq_false_iff_not]
    intro same
    have clash := apart i j _ u uniqId (Ne.symm other) here before (decide_eq_true rfl)
    rw [same, inserts] at clash
    cases clash
  · obtain ⟨off, before⟩ := split_set found inserts
    by_contra inserts'
    obtain ⟨off', before'⟩ := split_set found' (Bool.of_not_eq_false inserts')
    exact inserts' (apart j k t u id other before before' inserts)
  · rw [isExist_append, Bool.or_eq_true, decide_eq_true_eq]
    obtain mem | mem := List.mem_append.mp mem
    · exact .inl (known id mem)
    · exact .inr (Prod.mk.inj (List.mem_singleton.mp mem)).1.symm

theorem Clients.Fits.step {p : Clients} (fits : p.Fits)
    (stepped : Within Clients.Alone (Steps Clients.step?) p event q) : q.Fits := by
  obtain ⟨alone, stepped⟩ := stepped
  obtain ⟨i, call, t, t', s, rfl, found, moved, rfl⟩ | ⟨event, -⟩ := Pool.step_cases stepped
  · cases t with
    | count =>
      simp only [Upsert.step] at moved
      split at moved
      next =>
        cases moved
        exact fits.found found call.1
      next absent =>
        cases moved
        exact fits.missed (by simpa using absent) (alone _ found rfl)
    | insert uniqId value =>
      cases moved
      exact fits.inserted found
  · exact event.elim

theorem Clients.fits_start (distinct : (collection.map Document.indexKey).Nodup) (clients : Nat) :
    (Clients.start collection clients).Fits := by
  have idle {i : Nat} {t uniqId} (found : (Clients.start collection clients).threads[i]? = some t) :
      t.inserts uniqId = false := by
    obtain ⟨-, rfl⟩ := List.mem_replicate.mp (List.mem_of_getElem? found)
    rfl
  refine ⟨⟨distinct, fun _ => Nat.zero_le 1, nofun⟩, fun i t id found inserts => ?_,
    fun i j t u id _ found _ inserts => ?_, nofun⟩
  all_goals
    rw [idle found] at inserts
    cases inserts

/-- In a run where no client counts for an id that another is about to insert,
each id has at most one document and is found new by at most one call. -/
theorem dedups_of_run (collection : List Document) (clients : Nat) (events : List Event) (p : Clients)
    (distinct : (collection.map Document.indexKey).Nodup)
    (run : Run (Within Clients.Alone (Steps Clients.step?)) (.start collection clients) events p) :
    p.shared.Dedups := by
  have fits : p.Fits := run.invariant (fun fits stepped => Clients.Fits.step fits stepped)
    (Clients.fits_start distinct clients)
  exact fits.dedups

/-- Two clients, one after the other. -/
theorem dedups_of_run_sample : ∃ p : Clients,
    p.shared.returned = [(ascii "k", 1), (ascii "k", -1)] ∧ p.shared.Dedups := by
  obtain ⟨p, run, ended⟩ := exists_run_within_of_any Clients.Alone Clients.step? (.start [] 2)
    ([0, 0, 1].map fun i => .thread i (ascii "k", ascii "1"))
    (fun p => p.shared.returned = [(ascii "k", 1), (ascii "k", -1)]) (by decide +kernel)
  exact ⟨p, of_decide_eq_true ended, dedups_of_run [] 2 _ p List.nodup_nil run⟩

/-- Two clients count before either inserts. -/
theorem not_dedups_interleaved : ∃ events p, Run (Steps Clients.step?) (.start [] 2) events p ∧
    ¬ p.shared.Dedups := by
  obtain ⟨p, run, ended⟩ := exists_run_of_any Clients.step? (.start [] 2)
    ([0, 1, 0, 1].map fun i => .thread i (ascii "k", ascii "1"))
    (fun p => ¬ (p.shared.collection.map Document.indexKey).Nodup) (by decide +kernel)
  exact ⟨_, p, run, fun dedups => of_decide_eq_true ended dedups.documents⟩

end Fdfs2qq.Transfer
