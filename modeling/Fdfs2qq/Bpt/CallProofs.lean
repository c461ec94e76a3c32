import Fdfs2qq.Bpt.Calls
import Fdfs2qq.Bpt.LeafChain

/-! Clean calls keep a tree well formed and answer like the map of its records. -/
namespace Fdfs2qq.Bpt
open Lib

/-- The tree has rows whose records are this map, and its blocks lie end to end. -/
def Represents (t : BPlusTree) (m : Key → Option Value) : Prop :=
  t.EndToEnd ∧ ∃ leaves bounds levels, Shape t leaves bounds levels ∧
    m = dictionary Record.key Record.value (contents leaves)

theorem Represents.wellFormed (represents : Represents t m) : t.WellFormed := by
  obtain ⟨laid, leaves, bounds, levels, shape, -⟩ := represents
  exact shape.wellFormed laid

theorem represents_empty : Represents BPlusTree.initFromEmpty fun _ => none := by
  have wf : BPlusTree.initFromEmpty.WellFormed := by decide
  obtain ⟨leaves, bounds, levels, shape⟩ := wf.shaped
  refine ⟨wf.laid, leaves, bounds, levels, shape, ?_⟩
  rw [← shape.records_eq, show BPlusTree.initFromEmpty.records = [] from by decide]
  rfl

namespace Represents

variable {t : BPlusTree} {m : Key → Option Value}

theorem insert (represents : Represents t m) (key : Key) (value : Value) :
    ∃ code t', t.insert key value = .ok (code, t') ∧
      MapAnswers m (.insert key value) (code, none) ∧
      Represents t' (mapAfter m (.insert key value)) := by
  obtain ⟨laid, leaves, bounds, levels, shape, rfl⟩ := represents
  rcases shape.insert_spec key value with ⟨P, r, S, split, rfl, gap, run⟩ |
    ⟨P, S, t', leaves', bounds', levels', split, gap, run, shape', split'⟩
  · have here : dictionary Record.key Record.value (contents leaves) r.key = some r.value := by
      rw [split, dictionary_found gap]
    refine ⟨1, t, run, by simp [MapAnswers, here], laid, leaves, bounds, levels, shape, ?_⟩
    simp [mapAfter, here]
  · have here : dictionary Record.key Record.value (contents leaves) key = none := by
      rw [split, dictionary_gap gap]
    refine ⟨0, t', run, by simp [MapAnswers, here], laid.insert _ run, leaves', bounds', levels', shape', ?_⟩
    have added : dictionary Record.key Record.value (P ++ ⟨key, value⟩ :: S) =
        Function.update (dictionary Record.key Record.value (P ++ S)) key (some value) :=
      dictionary_insert gap
    rw [split', added, ← split]
    simp [mapAfter, here]

theorem update (represents : Represents t m) (key : Key) (value : Value) :
    ∃ code t', t.update key value = .ok (code, t') ∧
      MapAnswers m (.update key value) (code, none) ∧
      Represents t' (mapAfter m (.update key value)) := by
  obtain ⟨laid, leaves, bounds, levels, shape, rfl⟩ := represents
  rcases shape.update_spec key value with ⟨P, r, S, t', leaves', split, rfl, gap, run, shape', split'⟩ |
    ⟨P, S, code, split, gap, run, other⟩
  · have here : dictionary Record.key Record.value (contents leaves) r.key = some r.value := by
      rw [split, dictionary_found gap]
    refine ⟨0, t', run, by simp [MapAnswers, here], laid.update _ run, leaves', bounds, levels, shape', ?_⟩
    have changed : dictionary Record.key Record.value (P ++ ⟨r.key, value⟩ :: S) =
        Function.update (dictionary Record.key Record.value (P ++ r :: S)) r.key (some value) :=
      dictionary_replace gap rfl
    rw [split', changed, ← split]
    simp [mapAfter, here]
  · have here : dictionary Record.key Record.value (contents leaves) key = none := by
      rw [split, dictionary_gap gap]
    refine ⟨code, t, run, by simp [MapAnswers, here, other], laid, leaves, bounds, levels, shape, ?_⟩
    simp [mapAfter, here]

theorem remove (represents : Represents t m) (key : Key) (clean : t.removeDefects key = []) :
    ∃ code t', t.remove key = .ok (code, t') ∧ MapAnswers m (.remove key) (code, none) ∧
      Represents t' (mapAfter m (.remove key)) := by
  obtain ⟨laid, leaves, bounds, levels, shape, rfl⟩ := represents
  rcases shape.remove_spec key with ⟨P, S, split, gap, run, -⟩ | ⟨P, r, S, split, rfl, gap, removed⟩
  · have here : dictionary Record.key Record.value (contents leaves) key = none := by
      rw [split, dictionary_gap gap]
    refine ⟨-1, t, run, by simp [MapAnswers, here], laid, leaves, bounds, levels, shape, ?_⟩
    rw [mapAfter, ← here, Function.update_eq_self]
  · have here : dictionary Record.key Record.value (contents leaves) r.key = some r.value := by
      rw [split, dictionary_found gap]
    obtain ⟨t', leaves', run, -, -, -, split', intact⟩ := removed.fine (by simp [clean])
    obtain ⟨bounds', levels', shape'⟩ := intact clean
    refine ⟨0, t', run, by simp [MapAnswers, here], laid.remove _ run, leaves', bounds', levels', shape', ?_⟩
    rw [split', dictionary_erase gap, ← split]
    rfl

theorem search (represents : Represents t m) (key : Key) :
    ∃ answer, t.search key = .ok answer ∧ MapAnswers m (.search key) answer := by
  obtain ⟨laid, leaves, bounds, levels, shape, rfl⟩ := represents
  rcases shape.search_spec key with ⟨P, r, S, split, rfl, gap, run⟩ | ⟨P, S, code, found, split, gap, run, other⟩
  · have here : dictionary Record.key Record.value (contents leaves) r.key = some r.value := by
      rw [split, dictionary_found gap]
    exact ⟨_, run, by simp [MapAnswers, here]⟩
  · have here : dictionary Record.key Record.value (contents leaves) key = none := by
      rw [split, dictionary_gap gap]
    exact ⟨_, run, by simp [MapAnswers, here, other]⟩

theorem call (represents : Represents t m) {c : Call} (clean : t.Clean c) :
    ∃ answer t', t.call c = .ok (answer, t') ∧ MapAnswers m c answer ∧
      Represents t' (mapAfter m c) := by
  cases c with
  | insert key value =>
    obtain ⟨code, t', run, answers, represents'⟩ := represents.insert key value
    exact ⟨_, t', by simp only [BPlusTree.call, run]; rfl, answers, represents'⟩
  | update key value =>
    obtain ⟨code, t', run, answers, represents'⟩ := represents.update key value
    exact ⟨_, t', by simp only [BPlusTree.call, run]; rfl, answers, represents'⟩
  | remove key =>
    obtain ⟨code, t', run, answers, represents'⟩ := represents.remove key clean
    exact ⟨_, t', by simp only [BPlusTree.call, run]; rfl, answers, represents'⟩
  | search key =>
    obtain ⟨answer, run, answers⟩ := represents.search key
    exact ⟨answer, t, by simp only [BPlusTree.call, run]; rfl, answers, represents⟩

end Represents

namespace BPlusTree

/-- A run of clean calls from the empty tree answers like a finite map. -/
theorem conforms_of_guarded (calls : List Call) (clean : Guarded call Clean initFromEmpty calls) :
    Conforms call MapAnswers mapAfter initFromEmpty (fun _ => none) calls :=
  clean.conforms (fun represents here => represents.call here) represents_empty

end BPlusTree

namespace Grown

def calls : List Call := (List.range 231).map fun i => .insert (Packed.number i) 0

def leaf (i : Nat) : Block where
  parent := if i < 11 then 72 else 30776
  next := if i = 20 then 0 else 2936 + 1392 * i
  prev := if i = 0 then 0 else 152 + 1392 * i
  body := .leaf ((List.range 11).map fun j => ⟨Packed.number (11 * i + j), 0⟩)

def slot (i : Nat) : Index where
  key := if i = 20 then Key.empty else Packed.number (11 * (i + 1))
  child := 1544 + 1392 * i

/-- Two internal nodes over twenty-one leaves of eleven records. -/
def tree : BPlusTree where
  info := ⟨bpOrder, 4, 64, 3, 21, 2, 33720, 32248, 1544⟩
  file :=
    { stored := some ⟨bpOrder, 4, 64, 3, 21, 2, 33720, 32248, 1544⟩
      blocks := (72, ⟨⟨32248, 30776, 0⟩, .internal ((List.range 11).map slot)⟩) ::
        ((List.range 21).map fun i => (1544 + 1392 * i, leaf i)) ++
        [(30776, ⟨⟨32248, 0, 72⟩, .internal ((List.range 10).map fun i => slot (i + 11))⟩),
          (32248, ⟨⟨0, 0, 0⟩, .internal [⟨Packed.number 121, 72⟩, ⟨Key.empty, 30776⟩]⟩)] }

/-- Three removals that make the right internal node borrow from the left one. -/
def borrowing : List Call := [230, 219, 229].map fun i => .remove (Packed.number i)

/-- Two removals, a leaf that borrows and two that are merged. -/
def trimming : List Call := [0, 1, 2].map fun i => .remove (Packed.number i)

end Grown

namespace BPlusTree

theorem grown : play call initFromEmpty Grown.calls = .ok Grown.tree := by decide +kernel

theorem grown_then {calls : List Call} : play call initFromEmpty (Grown.calls ++ calls) =
    play call Grown.tree calls := by
  rw [play_append, grown]
  rfl

theorem grown_run {calls : List Call} {P : BPlusTree → Prop}
    (ends : ∃ t ∈ (play call Grown.tree calls).toOption, P t) :
    ∃ t, Run (Returns call) initFromEmpty (Grown.calls ++ calls) t ∧ P t := by
  rw [← grown_then] at ends
  exact exists_run_of_play ends

theorem trimming_clean : Guarded call Clean initFromEmpty (Grown.calls ++ Grown.trimming) := by decide +kernel

theorem conforms_trimmed : Conforms call MapAnswers mapAfter initFromEmpty (fun _ => none)
    (Grown.calls ++ Grown.trimming) := conforms_of_guarded _ trimming_clean

theorem exists_trimmed : ∃ t, play call initFromEmpty (Grown.calls ++ Grown.trimming) = .ok t := by
  have returns : (play call Grown.tree Grown.trimming).toOption.isSome := by decide +kernel
  rw [grown_then]
  cases played : play call Grown.tree Grown.trimming with
  | error => simp [played, Except.toOption] at returns
  | ok t => exact ⟨t, rfl⟩

/-- After the three removals the key 131 is stored and not found. -/
theorem not_conforms_grown : ¬ Conforms call MapAnswers mapAfter initFromEmpty (fun _ => none)
    ((Grown.calls ++ Grown.borrowing) ++ [.search (Packed.number 131)]) := by
  intro conforms
  obtain ⟨t, played, answer, _, searched, ⟨found, _⟩, _⟩ := conforms.drop
  have stored : ((Grown.calls ++ Grown.borrowing).foldl mapAfter (fun _ => none)
      (Packed.number 131)).isSome :=
    stored_of_inserted (.inr ⟨0, by decide +kernel⟩) (by decide +kernel)
  have lost : ((play call initFromEmpty (Grown.calls ++ Grown.borrowing)).bind fun t =>
      call t (.search (Packed.number 131))).map (fun r => r.1.1) = .ok 1 := by
    rw [grown_then]
    decide +kernel
  rw [played] at lost
  simp only [Except.bind, searched, Except.map, Except.ok.injEq] at lost
  rw [found.mpr stored] at lost
  cases lost

end BPlusTree
end Fdfs2qq.Bpt
