import Mathlib.Data.List.Induction
import Fdfs2qq.Transfer.DbMongodb

/-! `db_mongodb::Upsert` of one client whose requests may fail. The error codes
pass through the existence check, `Upsert` and `MongoDelegate`. -/
namespace Fdfs2qq.Transfer

/-- A call, with what the driver reports: the error of the count, which is
`-(countError + 1)`, and whether the insert succeeds. -/
structure Call where
  uniqId : Bytes
  value : Bytes
  countError : Option Nat := none
  inserts : Bool := true
deriving DecidableEq

def stored (collection : List Document) (uniqId : Bytes) : Bool :=
  collection.any fun document => document.indexKey = uniqId

namespace Call

variable (call : Call) (collection : List Document)

/-- `mongoc_collection_count` with `limit_c` documents at most. -/
def count : Int :=
  match call.countError with
  | some error => -(error + 1)
  | none => if stored collection call.uniqId then 1 else 0

def isExistByPrimarykey : Bool :=
  let count := call.count collection
  let flg : Int := if count < 0 then -1 else if count = 0 then -2 else 1
  flg > 0

/-- `Upsert(uniq_id, value)`: `ret_flg`, and the collection. -/
def upsert : Int × List Document :=
  if call.isExistByPrimarykey collection then (-1, collection)
  else if call.inserts then (1, collection ++ [document call.uniqId call.value])
  -- the 0 that is set here is overwritten behind the if
  else (1, collection)

def insertAndUpdateBptfromData : Bool × List Document :=
  let (retFlg, after) := call.upsert collection
  (retFlg > 0, after)

end Call

/-- Where no request fails, the two steps of a client between which no other comes. -/
theorem Call.upsert_eq_steps (call : Call) (db : DbMongodb) (counts : call.countError = none)
    (inserts : call.inserts = true) {after : DbMongodb} (ends : after =
      { collection := (call.upsert db.collection).2
        returned := db.returned ++ [(call.uniqId, (call.upsert db.collection).1)] }) (i : Nat) :
    Upsert.step i (call.uniqId, call.value) .count db = some (.count, after) ∨
      Upsert.step i (call.uniqId, call.value) .count db = some (.insert call.uniqId call.value, db) ∧
        ∀ next, Upsert.step i next (.insert call.uniqId call.value) db = some (.count, after) := by
  subst ends
  have answer : call.isExistByPrimarykey db.collection = db.isExistByPrimarykey call.uniqId := by
    cases exist : db.isExistByPrimarykey call.uniqId with
    | true | false =>
      have known : stored db.collection call.uniqId = _ := exist
      simp [Call.isExistByPrimarykey, Call.count, counts, known]
  cases exist : db.isExistByPrimarykey call.uniqId with
  | true => exact .inl (by simp [Upsert.step, Call.upsert, answer, exist])
  | false =>
    refine .inr ⟨by simp [Upsert.step, exist], fun next => ?_⟩
    simp [Upsert.step, Call.upsert, answer, exist, inserts]

/-- A call that has returned: whether its id was stored before and after it, what
`Upsert` returned and what the delegate returned. -/
structure Reply where
  call : Call
  known : Bool
  retFlg : Int
  delegate : Bool
  kept : Bool
deriving DecidableEq

structure Session where
  collection : List Document
  replies : List Reply := []
deriving DecidableEq

def Call.reply (call : Call) (collection : List Document) : Reply where
  call := call
  known := stored collection call.uniqId
  retFlg := (call.upsert collection).1
  delegate := (call.insertAndUpdateBptfromData collection).1
  kept := stored (call.upsert collection).2 call.uniqId

def Session.step (s : Session) (call : Call) : Session where
  collection := (call.upsert s.collection).2
  replies := s.replies ++ [call.reply s.collection]

def Session.run (collection : List Document) (calls : List Call) : Session :=
  calls.foldl Session.step { collection := collection }

/-- The codes that the header promises. -/
structure Reply.Right (r : Reply) : Prop where
  success : r.retFlg = 1 → r.call.inserts
  exist : r.retFlg = -1 → r.known
  error : r.call.countError.isSome ∨ r.known = false ∧ r.call.inserts = false → r.retFlg = 0
  acknowledged : r.delegate → r.kept

/-- Every call has answered right, and no id is in the collection twice that was not before. -/
structure Session.Acknowledges (start : List Document) (s : Session) : Prop where
  right : ∀ r ∈ s.replies, r.Right
  single : (start.map Document.indexKey).Nodup → (s.collection.map Document.indexKey).Nodup

/-- No request of the call fails: the count, and the insert where there is one. -/
def Call.Served (call : Call) (collection : List Document) : Prop :=
  call.countError = none ∧ (stored collection call.uniqId ∨ call.inserts)

instance (call : Call) (collection : List Document) : Decidable (call.Served collection) :=
  inferInstanceAs (Decidable (_ ∧ _))

section

variable {call : Call} {collection : List Document}

theorem isExist_of_count (counted : call.countError = none) :
    call.isExistByPrimarykey collection = stored collection call.uniqId := by
  unfold Call.isExistByPrimarykey Call.count
  rw [counted]
  cases stored collection call.uniqId <;> rfl

theorem stored_append (collection : List Document) (id value uniqId : Bytes) :
    stored (collection ++ [document id value]) uniqId = (stored collection uniqId || decide (id = uniqId)) := by
  simp [stored, document]

/-- A call never takes documents out. -/
theorem upsert_grows (call : Call) (collection : List Document) : collection <+: (call.upsert collection).2 := by
  unfold Call.upsert
  split
  · exact List.prefix_rfl
  · split
    · exact List.prefix_append _ _
    · exact List.prefix_rfl

/-- A call answers right exactly if none of its requests fails. -/
theorem right_iff (call : Call) (collection : List Document) :
    (call.reply collection).Right ↔ call.Served collection := by
  constructor
  · rintro ⟨-, -, error, -⟩
    -- the code 0 is never returned
    have never : (call.upsert collection).1 ≠ 0 := by
      unfold Call.upsert
      split
      next => exact Int.negSucc_ne_zero 0
      next => split <;> exact Int.one_ne_zero
    have served : ¬ (call.countError.isSome ∨ stored collection call.uniqId = false ∧ call.inserts = false) :=
      fun failed => never (error failed)
    rw [not_or, not_and_or, Option.not_isSome_iff_eq_none, Bool.not_eq_false, Bool.not_eq_false] at served
    exact served
  · rintro ⟨counted, served⟩
    have exist : call.isExistByPrimarykey collection = stored collection call.uniqId :=
      isExist_of_count counted
    cases known : stored collection call.uniqId with
    | true =>
      have answer : call.upsert collection = (-1, collection) := by rw [Call.upsert, exist, known]; rfl
      constructor
      · intro one
        rw [Call.reply, answer] at one
        cases one
      · exact fun _ => known
      · rintro (failed | ⟨unknown, -⟩)
        · rw [Call.reply, counted] at failed
          cases failed
        · rw [Call.reply, known] at unknown
          cases unknown
      · intro acknowledged
        rw [Call.reply, Call.insertAndUpdateBptfromData, answer] at acknowledged
        cases acknowledged
    | false =>
      have inserts : call.inserts := by simpa [known] using served
      have answer : call.upsert collection = (1, collection ++ [document call.uniqId call.value]) := by
        rw [Call.upsert, exist, known, inserts]
        rfl
      constructor
      · exact fun _ => inserts
      · intro minus
        rw [Call.reply, answer] at minus
        cases minus
      · rintro (failed | ⟨-, refused⟩)
        · rw [Call.reply, counted] at failed
          cases failed
        · rw [Call.reply, inserts] at refused
          cases refused
      · intro _
        rw [Call.reply, answer, stored_append, decide_eq_true rfl, Bool.or_true]

/-- A call none of whose requests fails adds no second document for an id. -/
theorem single_of_served (served : call.Served collection)
    (distinct : (collection.map Document.indexKey).Nodup) :
    ((call.upsert collection).2.map Document.indexKey).Nodup := by
  unfold Call.upsert
  rw [isExist_of_count served.1]
  split
  next => exact distinct
  next unknown =>
    split
    next => exact nodup_append distinct (Bool.eq_false_iff.mpr unknown)
    next => exact distinct

end

/-- One more call is acknowledged right exactly if none of its requests fails. -/
theorem Session.step_acknowledges_iff (start : List Document) (s : Session) (call : Call) :
    (s.step call).Acknowledges start ↔ s.Acknowledges start ∧ call.Served s.collection := by
  constructor
  · rintro ⟨right, single⟩
    refine ⟨⟨fun r mem => right r (List.mem_append_left _ mem), fun distinct => ?_⟩, ?_⟩
    · exact (single distinct).sublist ((upsert_grows call s.collection).sublist.map _)
    · exact (right_iff call s.collection).mp (right _ (List.mem_append_right _ (List.mem_singleton_self _)))
  · rintro ⟨⟨right, single⟩, served⟩
    refine ⟨fun r mem => ?_, fun distinct => single_of_served served (single distinct)⟩
    obtain mem | mem := List.mem_append.mp mem
    · exact right r mem
    · rw [List.mem_singleton.mp mem]
      exact (right_iff call s.collection).mpr served

theorem Session.run_append (start : List Document) (calls : List Call) (call : Call) :
    run start (calls ++ [call]) = (run start calls).step call := by
  rw [run, List.foldl_append]
  rfl

/-- What is acknowledged is stored in exactly those runs in which no request fails. -/
theorem acknowledges_iff (start : List Document) (calls : List Call) :
    (Session.run start calls).Acknowledges start ↔ ∀ before call rest, calls = before ++ call :: rest →
      call.Served (Session.run start before).collection := by
  induction calls using List.reverseRecOn with
  | nil => exact ⟨fun _ before call rest same => by simp at same, fun _ => ⟨nofun, id⟩⟩
  | append_singleton calls last ih =>
    rw [Session.run_append, Session.step_acknowledges_iff, ih]
    constructor
    · rintro ⟨earlier, served⟩ before call rest same
      obtain rfl | ⟨other, final, rfl⟩ := rest.eq_nil_or_concat
      · obtain ⟨rfl, final⟩ := List.append_inj' same rfl
        cases final
        exact served
      · rw [List.concat_eq_append, ← List.cons_append, ← List.append_assoc] at same
        exact earlier before call other (List.append_inj' same rfl).1
    · intro all
      refine ⟨fun before call rest same => all before call (rest ++ [last]) ?_, all calls last [] rfl⟩
      rw [same, List.append_assoc, List.cons_append]

/-- A refused insert is answered with 1, and the delegate acknowledges an id that is not stored. -/
theorem not_acknowledges_refused : ∃ s, Session.run [] [{ uniqId := ascii "k", value := ascii "1", inserts := false }] = s ∧
    s.replies.map Reply.retFlg = [1] ∧ s.replies.map Reply.delegate = [true] ∧ s.collection = [] ∧
      ¬ s.Acknowledges [] := by
  refine ⟨_, rfl, by decide, by decide, by decide, fun acknowledges => ?_⟩
  have right := acknowledges.right _ List.mem_cons_self
  exact absurd (right.acknowledged (by decide)) (by decide)

end Fdfs2qq.Transfer
