import Fdfs2qq.Bpt.WellFormedProofs

/-! Internal nodes by their places: ordered separators, the key in the last
slot, and where a descent from any node leads. -/
namespace Fdfs2qq.Bpt
open Lib

def slotMarks (owner : Offset) (slots : List Index) : List ((Offset × Offset) × Key) :=
  slots.map fun slot => ((slot.child, owner), slot.key)

@[simp] theorem slotMarks_append (owner : Offset) (X Y : List Index) :
    slotMarks owner (X ++ Y) = slotMarks owner X ++ slotMarks owner Y := List.map_append

@[simp] theorem slotMarks_cons (owner : Offset) (e : Index) (X : List Index) :
    slotMarks owner (e :: X) = ((e.child, owner), e.key) :: slotMarks owner X := rfl

@[simp] theorem slotMarks_eq_nil {owner : Offset} {X : List Index} : slotMarks owner X = [] ↔ X = [] :=
  List.map_eq_nil_iff

theorem getLast?_slotMarks (owner : Offset) (X : List Index) :
    (slotMarks owner X).getLast?.map Prod.snd = X.getLast?.map Index.key := by
  rw [slotMarks, List.getLast?_map, Option.map_map]
  rfl

def keyBefore (lo : Option Key) (X : List Index) : Option Key := (X.getLast?.map Index.key).or lo

def keyAfter (hi : Option Key) (e : Index) (Y : List Index) : Option Key :=
  if Y = [] then hi else some e.key

theorem childPlaces_of_map {t : BPlusTree} {p : Place} {node : Node Index}
    (read : t.map Index p.off = .ok node) :
    t.file.childPlaces p = placesBetween p.hi p.lo (slotMarks p.off node.children) := by
  have found := t.get_of_map_internal (show node ∈ (t.map Index p.off).toOption by rw [read]; rfl)
  simp only [File.childPlaces, found, slotMarks]

theorem mem_childPlaces {t : BPlusTree} {p q : Place} {node : Node Index}
    (read : t.map Index p.off = .ok node) : q ∈ t.file.childPlaces p ↔ ∃ X e Y,
      node.children = X ++ e :: Y ∧ q = ⟨e.child, p.off, keyBefore p.lo X, keyAfter p.hi e Y⟩ := by
  rw [childPlaces_of_map read]
  constructor
  · intro mem
    obtain ⟨A, x, B, split, rfl⟩ := mem_placesBetween mem
    obtain ⟨X, rest, slots, rfl, tail⟩ := List.map_eq_append_iff.mp split
    obtain ⟨e, Y, rfl, rfl, rfl⟩ := List.map_eq_cons_iff.mp tail
    refine ⟨X, e, Y, slots, ?_⟩
    simp only [keyBefore, ← getLast?_slotMarks p.off, keyAfter, slotMarks, List.map_eq_nil_iff]
  · rintro ⟨X, e, Y, slots, rfl⟩
    rw [slots, slotMarks_append, slotMarks_cons, placesBetween_at, List.mem_append]
    right
    simp [keyBefore, keyAfter, getLast?_slotMarks]

namespace BPlusTree

/-- The live separators of the node at `p` increase between those around it. -/
def SeparatedAt (t : BPlusTree) (p : Place) : Prop :=
  ∃ node ∈ (t.map Index p.off).toOption, node.children ≠ [] ∧
    (node.children.dropLast.map Index.key).Pairwise (· < ·) ∧
    ∀ k ∈ node.children.dropLast.map Index.key, p.Inside k

/-- The key in the last slot of the node at `p` is the separator after it. -/
def LastSlotAt (t : BPlusTree) (p : Place) : Prop :=
  ∃ node ∈ (t.map Index p.off).toOption, ∀ h ∈ p.hi, node.children.getLast?.map Index.key = some h

instance (t : BPlusTree) (p : Place) : Decidable (t.SeparatedAt p) :=
  inferInstanceAs (Decidable (∃ node ∈ (t.map Index p.off).toOption, _))

instance (t : BPlusTree) (p : Place) : Decidable (t.LastSlotAt p) :=
  inferInstanceAs (Decidable (∃ node ∈ (t.map Index p.off).toOption, _))

variable {t : BPlusTree} {p q : Place} {node : Node Index}

theorem separatedAt_iff (read : t.map Index p.off = .ok node) : t.SeparatedAt p ↔
    node.children ≠ [] ∧ (node.children.dropLast.map Index.key).Pairwise (· < ·) ∧
      ∀ k ∈ node.children.dropLast.map Index.key, p.Inside k := by
  simp [SeparatedAt, read, Except.toOption]

theorem lastSlotAt_iff (read : t.map Index p.off = .ok node) : t.LastSlotAt p ↔
    ∀ h ∈ p.hi, node.children.getLast?.map Index.key = some h := by
  simp [LastSlotAt, read, Except.toOption]

theorem SeparatedAt.read (separated : t.SeparatedAt p) : ∃ node, t.map Index p.off = .ok node := by
  obtain ⟨node, found, -⟩ := separated
  exact ⟨node, map_of_get (t.get_of_map_internal found)⟩

theorem SeparatedAt.slot (separated : t.SeparatedAt p) (read : t.map Index p.off = .ok node)
    (slots : node.children = X ++ e :: Y) :
    (∀ x ∈ X, ∀ l ∈ keyBefore p.lo X, x.key ≤ l) ∧ (∀ l ∈ p.lo, ∀ l' ∈ keyBefore p.lo X, l ≤ l') ∧
      ∀ h ∈ p.hi, ∀ h' ∈ keyAfter p.hi e Y, h' ≤ h := by
  obtain ⟨-, sorted, inside⟩ := (separatedAt_iff read).mp separated
  rw [slots, List.dropLast_append_of_ne_nil (List.cons_ne_nil _ _), List.map_append,
    List.pairwise_append] at sorted
  rw [slots, List.dropLast_append_of_ne_nil (List.cons_ne_nil _ _), List.map_append] at inside
  refine ⟨?_, ?_, ?_⟩
  · intro x mem l before
    rcases List.eq_nil_or_concat' X with rfl | ⟨X, y, rfl⟩
    · contradiction
    · obtain rfl : y.key = l := by simpa [keyBefore] using before
      have increasing := sorted.1
      rw [List.map_append, List.pairwise_append] at increasing
      rcases List.mem_append.mp mem with mem | mem
      · exact (increasing.2.2 x.key (List.mem_map_of_mem mem) y.key (by simp)).le
      · rw [List.mem_singleton.mp mem]
  · intro l low l' before
    rcases List.eq_nil_or_concat' X with rfl | ⟨X, y, rfl⟩
    · have same : l' ∈ p.lo := by simpa [keyBefore] using before
      exact (Option.mem_unique low same).le
    · obtain rfl : y.key = l' := by simpa [keyBefore] using before
      exact ((inside y.key (by simp)).1 l low).le
  · intro h high h' after
    unfold keyAfter at after
    split at after
    · exact (Option.mem_unique high after).ge
    next more =>
      obtain rfl : e.key = h' := by simpa using after
      exact ((inside e.key (by rw [List.dropLast_cons_of_ne_nil more]; simp)).2 h high).le

/-- A node sends a key to the child whose place takes it. -/
theorem SeparatedAt.searchLeafFrom (separated : t.SeparatedAt p) (mem : q ∈ t.file.childPlaces p)
    (takes : q.Takes k) : t.searchLeafFrom p.off k = .ok q.off ∧ p.Takes k := by
  obtain ⟨node, read⟩ := separated.read
  obtain ⟨X, e, Y, slots, rfl⟩ := (mem_childPlaces read).mp mem
  obtain ⟨before, low, high⟩ := separated.slot read slots
  obtain ⟨above, below⟩ := takes
  have found : findIndex node k = X.length := by
    apply findIndex_at slots
    · intro x inside
      obtain ⟨l, last⟩ : ∃ l, l ∈ keyBefore p.lo X := by
        rcases List.eq_nil_or_concat' X with rfl | ⟨X, y, rfl⟩
        · contradiction
        · exact ⟨y.key, by simp [keyBefore]⟩
      exact (before x inside l last).trans (above l last)
    · intro more
      exact below e.key (by simp [keyAfter, more])
  refine ⟨?_, ?_, ?_⟩
  · simp only [BPlusTree.searchLeafFrom, read, bind, Except.bind, found, slots, slotAt,
      getElem?_append_length_cons, pure, Except.pure]
  · intro l inLow
    rcases List.eq_nil_or_concat' X with rfl | ⟨X, y, rfl⟩
    · exact above l (by simpa [keyBefore] using inLow)
    · have last : y.key ∈ keyBefore p.lo (X ++ [y]) := by simp [keyBefore]
      exact (low l inLow y.key last).trans (above y.key last)
  · intro h inHigh
    by_cases empty : Y = []
    · exact below h (by simpa [keyAfter, empty] using inHigh)
    · have here : e.key ∈ keyAfter p.hi e Y := by simp [keyAfter, empty]
      exact (below e.key here).trans_le (high h inHigh e.key here)

theorem SeparatedAt.exists_takes (separated : t.SeparatedAt p) (takes : p.Takes k) :
    ∃ q ∈ t.file.childPlaces p, q.Takes k := by
  obtain ⟨node, read⟩ := separated.read
  obtain ⟨filled, -⟩ := (separatedAt_iff read).mp separated
  obtain ⟨U, u, V, split, route⟩ := Routes.exists
    (show node.children.map Index.key ≠ [] by simpa using filled) k
  obtain ⟨X, rest, slots, rfl, tail⟩ := List.map_eq_append_iff.mp split
  obtain ⟨e, Y, rfl, rfl, rfl⟩ := List.map_eq_cons_iff.mp tail
  refine ⟨_, (mem_childPlaces read).mpr ⟨X, e, Y, slots, rfl⟩, ?_, ?_⟩
  · intro l mem
    rcases List.eq_nil_or_concat' X with rfl | ⟨X, y, rfl⟩
    · exact takes.1 l (by simpa [keyBefore] using mem)
    · obtain rfl : y.key = l := by simpa [keyBefore] using mem
      exact route.above y.key (by simp)
  · intro h mem
    unfold keyAfter at mem
    split at mem
    · exact takes.2 h mem
    next more =>
      obtain rfl : e.key = h := by simpa using mem
      exact route.below (by simpa using more)

def placesBelow (t : BPlusTree) (p : Place) : Nat → List Place
  | 0 => [p]
  | d + 1 => (t.placesBelow p d).flatMap t.file.childPlaces

theorem row_eq_placesBelow (t : BPlusTree) (d : Nat) :
    t.row d = t.placesBelow ⟨t.info.rootOffset, 0, none, none⟩ d := by
  induction d with
  | zero => rfl
  | succ d ih => rw [row, placesBelow, ih]

/-- All nodes above depth `d` below `p` have their separators in order. -/
def SeparatedBelow (t : BPlusTree) (p : Place) (d : Nat) : Prop :=
  ∀ i < d, ∀ q ∈ t.placesBelow p i, t.SeparatedAt q

theorem searchIndexFrom_of_takes (separated : t.SeparatedBelow p d) (mem : q ∈ t.placesBelow p d)
    (takes : q.Takes k) : t.searchIndexFrom k d p.off = .ok q.off := by
  induction d generalizing q with
  | zero =>
    obtain rfl := List.mem_singleton.mp mem
    rfl
  | succ d ih =>
    obtain ⟨r, inRow, inside⟩ := List.mem_flatMap.mp mem
    obtain ⟨last, takes'⟩ := (separated d (Nat.lt_succ_self d) r inRow).searchLeafFrom inside takes
    have reached := ih (fun i less => separated i (Nat.lt_succ_of_lt less)) inRow takes'
    rw [searchIndexFrom_last, reached]
    exact last

theorem exists_takes_below (separated : t.SeparatedBelow p d) (takes : p.Takes k) :
    ∃ q ∈ t.placesBelow p d, q.Takes k := by
  induction d with
  | zero => exact ⟨p, List.mem_singleton.mpr rfl, takes⟩
  | succ d ih =>
    obtain ⟨q, inRow, takes'⟩ := ih fun i less => separated i (Nat.lt_succ_of_lt less)
    obtain ⟨r, inside, takes''⟩ := (separated d (Nat.lt_succ_self d) q inRow).exists_takes takes'
    exact ⟨r, List.mem_flatMap.mpr ⟨q, inRow, inside⟩, takes''⟩

end BPlusTree

/-- Where a node lies and between which separators. -/
def Place.span (p : Place) : Offset × Option Key × Option Key := (p.off, p.lo, p.hi)

namespace BPlusTree

variable {t : BPlusTree} {p q : Place}

/-- Two trees with the same nodes between the same separators route alike. -/
theorem searchIndexFrom_congr {t' : BPlusTree} (separated : t.SeparatedBelow p d)
    (separated' : t'.SeparatedBelow p d)
    (same : (t'.placesBelow p d).map Place.span = (t.placesBelow p d).map Place.span)
    (takes : p.Takes k) : t'.searchIndexFrom k d p.off = t.searchIndexFrom k d p.off := by
  obtain ⟨q, mem, takes'⟩ := exists_takes_below separated takes
  have inside : q.span ∈ (t'.placesBelow p d).map Place.span := same ▸ List.mem_map_of_mem mem
  obtain ⟨q', mem', eq⟩ := List.mem_map.mp inside
  obtain ⟨off, lo, hi⟩ : q'.off = q.off ∧ q'.lo = q.lo ∧ q'.hi = q.hi := by
    simpa [Place.span] using eq
  have takes'' : q'.Takes k := by
    rw [Place.Takes, lo, hi]
    exact takes'
  rw [searchIndexFrom_of_takes separated mem takes', searchIndexFrom_of_takes separated' mem' takes'',
    off]

theorem SeparatedAt.mono (separated : t.SeparatedAt q) (off : p.off = q.off)
    (low : ∀ l ∈ p.lo, l ∈ q.lo) (high : ∀ h ∈ p.hi, h ∈ q.hi) : t.SeparatedAt p := by
  obtain ⟨node, found, filled, sorted, inside⟩ := separated
  refine ⟨node, off ▸ found, filled, sorted, fun k mem => ?_⟩
  exact ⟨fun l inLow => (inside k mem).1 l (low l inLow), fun h inHigh => (inside k mem).2 h (high h inHigh)⟩

/-- A node and its children stay in order when the node is taken for the root. -/
theorem separatedBelow_free (ordered : ∀ q ∈ p :: t.file.childPlaces p, t.SeparatedAt q) :
    t.SeparatedBelow ⟨p.off, p.parent, none, none⟩ 2 := by
  have top := ordered p (List.mem_cons_self ..)
  have free : t.SeparatedAt ⟨p.off, p.parent, none, none⟩ := top.mono rfl (by simp) (by simp)
  obtain ⟨node, read⟩ := top.read
  intro i less q mem
  obtain rfl | rfl : i = 0 ∨ i = 1 := by omega
  · obtain rfl := List.mem_singleton.mp mem
    exact free
  · obtain ⟨X, e, Y, slots, rfl⟩ :=
      (mem_childPlaces (p := ⟨p.off, p.parent, none, none⟩) read).mp (by simpa [placesBelow] using mem)
    have inside := (mem_childPlaces read).mpr ⟨X, e, Y, slots, rfl⟩
    refine (ordered _ (List.mem_cons_of_mem _ inside)).mono rfl (fun l low => ?_) fun h high => ?_
    · rcases List.eq_nil_or_concat' X with rfl | ⟨X, y, rfl⟩
      · simp [keyBefore] at low
      · simpa [keyBefore] using low
    · by_cases empty : Y = [] <;> simp_all [keyAfter]

end BPlusTree
end Fdfs2qq.Bpt
