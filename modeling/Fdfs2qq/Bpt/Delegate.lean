import Fdfs2qq.Bpt.CallProofs
import Fdfs2qq.Logger

/-! `BptDelegate`: a tree filled from the lines of a file. Of the log messages what
stands before the end of the key is used: it is printed as a format. -/
namespace Fdfs2qq.Bpt
open Lib

/-- `bpt::key_t _key(tmp.c_str())`; a longer string overruns the array. -/
def keyOf (s : List UInt8) : Except Fault Key :=
  match Key.ofBytes (cStr s) with
  | some key => .ok key
  | none => .error .bounds

def loggerInfo (msg : List UInt8) : Except Fault Unit :=
  if Logger.info msg then .ok () else .error .format

namespace BPlusTree

def searchBptByKey (t : BPlusTree) (key : Key) : Except Fault (Bool × Option Value) := do
  let (f, value) ← t.search key
  if f ≠ 0 then
    loggerInfo (ascii "find..." ++ key.bytes)
    return (false, value)
  else
    loggerInfo (ascii "find..." ++ key.bytes)
    return (true, value)

def insertAndUpdateBptfromData (t : BPlusTree) (key : Key) (value : Value) :
    Except Fault BPlusTree := do
  let (found, _) ← t.searchBptByKey key
  if found then
    let (_, t) ← t.update key value
    loggerInfo (ascii "update..." ++ key.bytes)
    return t
  else
    let (_, t) ← t.insert key value
    loggerInfo (ascii "insert into..." ++ key.bytes)
    return t

def insertLines (t : BPlusTree) (defaultValue : Value) : List (List UInt8) → Except Fault BPlusTree
  | [] => .ok t
  | tmp :: rest => do
    let key ← keyOf tmp
    let t ← t.insertAndUpdateBptfromData key defaultValue
    t.insertLines defaultValue rest

/-- `content` is what the file at `filepath` holds. -/
def initBptFromFilesource (t : BPlusTree) (content : List UInt8) (defaultValue : Value) :
    Except Fault (Int × BPlusTree) := do
  let t ← t.insertLines defaultValue (getlines newline content)
  return (1, t)

def mapping (t : BPlusTree) : Key → Option Value := dictionary Record.key Record.value t.records

end BPlusTree

theorem keyOf_line {line : List UInt8} (nulFree : ∀ b ∈ line, b ≠ 0) (fits : line.length ≤ 63) :
    keyOf line = .ok ⟨line, nulFree, fits⟩ := by
  have whole : cStr line = line := cStr_of_notMem fun mem => nulFree 0 mem rfl
  rw [keyOf, whole, Key.ofBytes, dif_pos ⟨nulFree, fits⟩]

/-- What stands before the key has no `%`, so the key decides. -/
theorem loggerInfo_key (before : List UInt8) (plain : 37 ∉ before ∧ 0 ∉ before) (key : Key) :
    loggerInfo (before ++ key.bytes) = if isFormat key.bytes then .ok () else .error .format := by
  have whole : cStr (before ++ key.bytes) = before ++ key.bytes := cStr_of_notMem fun mem =>
    (List.mem_append.mp mem).elim plain.2 fun mem => key.nulFree 0 mem rfl
  rw [loggerInfo, Logger.info, whole, isFormat_append plain.1]

theorem searchBptByKey_eq (t : BPlusTree) {key : Key} (format : isFormat key.bytes) : t.searchBptByKey key =
    (t.search key).map fun (f, value) => (decide (f = 0), value) := by
  have logged := loggerInfo_key (ascii "find...") (by decide) key
  rw [if_pos format] at logged
  cases searched : t.search key with
  | error => simp only [BPlusTree.searchBptByKey, searched, bind, Except.bind, Except.map]
  | ok answer =>
    obtain ⟨f, value⟩ := answer
    by_cases zero : f = 0 <;>
      simp [BPlusTree.searchBptByKey, searched, logged, zero, bind, Except.bind, Except.map, pure, Except.pure]

theorem isFormat_of_inserted {t t' : BPlusTree} {key : Key}
    (inserted : t.insertAndUpdateBptfromData key value = .ok t') : isFormat key.bytes := by
  by_contra format
  have logged := loggerInfo_key (ascii "find...") (by decide) key
  rw [if_neg format] at logged
  cases searched : t.search key with
  | error => simp [BPlusTree.insertAndUpdateBptfromData, BPlusTree.searchBptByKey, searched, bind, Except.bind] at inserted
  | ok answer =>
    simp [BPlusTree.insertAndUpdateBptfromData, BPlusTree.searchBptByKey, searched, logged, bind, Except.bind]
      at inserted

namespace Represents

variable {t : BPlusTree} {m : Key → Option Value}

theorem mapping (represents : Represents t m) : t.mapping = m := by
  obtain ⟨-, leaves, bounds, levels, shape, rfl⟩ := represents
  rw [BPlusTree.mapping, shape.records_eq]

theorem of_wellFormed (wf : t.WellFormed) : Represents t t.mapping := by
  obtain ⟨leaves, bounds, levels, shape⟩ := wf.shaped
  exact ⟨wf.laid, leaves, bounds, levels, shape, by rw [BPlusTree.mapping, shape.records_eq]⟩

/-- One line sets its key, whether it was stored before or not. -/
theorem insertAndUpdate (represents : Represents t m) (key : Key) (value : Value) (format : isFormat key.bytes) :
    ∃ t', t.insertAndUpdateBptfromData key value = .ok t' ∧
      Represents t' (Function.update m key (some value)) := by
  obtain ⟨⟨f, found⟩, searched, same, -⟩ := represents.search key
  have looked := searchBptByKey_eq t format
  have updated := loggerInfo_key (ascii "update...") (by decide) key
  have logged := loggerInfo_key (ascii "insert into...") (by decide) key
  rw [if_pos format] at updated logged
  rw [searched] at looked
  by_cases stored : (m key).isSome
  · obtain ⟨code, t', run, -, after⟩ := represents.update key value
    rw [mapAfter, if_pos stored] at after
    refine ⟨t', ?_, after⟩
    simp [BPlusTree.insertAndUpdateBptfromData, looked, Except.map, bind, Except.bind, same.mpr stored, run, updated,
      pure, Except.pure]
  · obtain ⟨code, t', run, -, after⟩ := represents.insert key value
    rw [mapAfter, if_neg stored] at after
    have differs : f ≠ 0 := fun zero => stored (same.mp zero)
    refine ⟨t', ?_, after⟩
    simp [BPlusTree.insertAndUpdateBptfromData, looked, Except.map, bind, Except.bind, differs, run, logged,
      pure, Except.pure]

theorem insertLines (represents : Represents t m) (value : Value) {lines : List (List UInt8)}
    (fine : ∀ line ∈ lines, (∀ b ∈ line, b ≠ 0) ∧ line.length ≤ 63) (formats : ∀ line ∈ lines, isFormat line) :
    ∃ t', t.insertLines value lines = .ok t' ∧
      Represents t' fun key => if key.bytes ∈ lines then some value else m key := by
  induction lines generalizing t m with
  | nil => exact ⟨t, rfl, by simpa using represents⟩
  | cons line rest ih =>
    obtain ⟨nulFree, fits⟩ := fine line (by simp)
    obtain ⟨t', run, represents'⟩ := represents.insertAndUpdate ⟨line, nulFree, fits⟩ value (formats line (by simp))
    obtain ⟨t'', run', represents''⟩ := ih represents' (fun l mem => fine l (by simp [mem]))
      fun l mem => formats l (by simp [mem])
    refine ⟨t'', ?_, ?_⟩
    · simp only [BPlusTree.insertLines, keyOf_line nulFree fits, bind, Except.bind, run, run']
    · convert represents'' using 1
      funext key
      by_cases later : key.bytes ∈ rest
      · simp [later]
      · by_cases here : key.bytes = line
        · have same : key = ⟨line, nulFree, fits⟩ := Key.ext here
          simp [same]
        · have other : key ≠ ⟨line, nulFree, fits⟩ := fun same => here (by rw [same])
          simp [later, here, other]

end Represents

theorem isFormat_of_insertLines {t t' : BPlusTree} {value : Value} {lines : List (List UInt8)}
    (fine : ∀ line ∈ lines, (∀ b ∈ line, b ≠ 0) ∧ line.length ≤ 63)
    (inserted : t.insertLines value lines = .ok t') : ∀ line ∈ lines, isFormat line := by
  induction lines generalizing t with
  | nil => nofun
  | cons line rest ih =>
    obtain ⟨⟨nulFree, fits⟩, fine⟩ := List.forall_mem_cons.mp fine
    simp only [BPlusTree.insertLines, keyOf_line nulFree fits, bind, Except.bind] at inserted
    cases first : t.insertAndUpdateBptfromData ⟨line, nulFree, fits⟩ value with
    | error => simp [first] at inserted
    | ok next =>
      rw [first] at inserted
      exact List.forall_mem_cons.mpr ⟨isFormat_of_inserted first, ih fine inserted⟩

namespace BPlusTree

/-- Every line becomes a key with the default value, no other key changes, and
the order of the lines does not matter. -/
structure Fills (t : BPlusTree) (content : List UInt8) (defaultValue : Value) (t' : BPlusTree) : Prop where
  run : t.initBptFromFilesource content defaultValue = .ok (1, t')
  wellFormed : t'.WellFormed
  lines : ∀ key : Key, key.bytes ∈ getlines newline content → t'.mapping key = some defaultValue
  others : ∀ key : Key, key.bytes ∉ getlines newline content → t'.mapping key = t.mapping key
  order : ∀ content', (getlines newline content').Perm (getlines newline content) →
    ∃ t'', t.initBptFromFilesource content' defaultValue = .ok (1, t'') ∧ t''.mapping = t'.mapping

end BPlusTree
end Fdfs2qq.Bpt
