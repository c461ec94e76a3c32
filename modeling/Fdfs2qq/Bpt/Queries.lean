import Fdfs2qq.Bpt.Paging
import Fdfs2qq.Bpt.Separators

/-! What a single query answers. `search_range` returns the first values of the
range; `search` returns the lower bound unless the key lies between the last
record of a leaf and the separator after it. -/
namespace Fdfs2qq.Bpt
open Lib

namespace BPlusTree

/-- A call returns the first values of the range in the order of their keys, and
as many as fit; it returns -1 exactly where it was given no range. -/
def Returns (t : BPlusTree) (left : Option Key) (right : Key) (max : Nat) (wantNext : Bool) : Prop :=
  ∃ result, t.searchRange left right max wantNext = .ok result ∧
    (result.count = -1 ↔ ∀ l, left = some l → right < l) ∧
    ∀ l, left = some l → l ≤ right → SortedBy Record.key (t.inRange l right) ∧
      result.count = (min max (t.inRange l right).length : Nat) ∧
      result.values = ((t.inRange l right).take (min max (t.inRange l right).length)).map Record.value

/-- Where the number of values is an `int`. -/
theorem searchRange_spec (t : BPlusTree) (left : Option Key) (right : Key) (max : Nat) (wantNext : Bool)
    (wf : t.WellFormed) (positive : 1 ≤ max)
    (small : ∀ l, left = some l → l ≤ right → min max (t.inRange l right).length < 2 ^ 31) :
    t.Returns left right max wantNext := by
  cases left with
  | none => exact ⟨⟨-1, [], none, none⟩, rfl, iff_of_true rfl nofun, nofun⟩
  | some l =>
    by_cases ordered : l ≤ right
    · obtain ⟨leaves, bounds, levels, shape⟩ := wf.shaped
      obtain ⟨F, q, G, split, atMost, room, -, -, run⟩ := shape.range_spec ordered positive
      have sorted : SortedBy Record.key (t.inRange l right) :=
        (shape.records_eq ▸ shape.fenced.sorted_contents).sublist List.filter_sublist
      rw [← shape.records_eq] at split
      have copied : min max (t.inRange l right).length = F.length := by
        rw [inRange, split, List.length_append]
        rcases atMost.lt_or_eq with fewer | full
        · obtain ⟨rfl, rfl⟩ := room fewer
          simp only [List.append_nil, List.length_nil]
          omega
        · omega
      have count : (pageResult F q l wantNext).count = F.length := by
        have few := small l rfl ordered
        rw [copied] at few
        have same : toInt F.length = F.length := toInt_of_lt (by omega) (by omega)
        rw [← same]
        unfold pageResult
        split <;> rfl
      have values : (pageResult F q l wantNext).values = F.map Record.value := by
        unfold pageResult
        split <;> rfl
      refine ⟨_, run wantNext, ?_, fun l' same _ => ?_⟩
      · rw [count]
        exact iff_of_false (by omega) fun less => absurd (less l rfl) (not_lt.mpr ordered)
      · cases same
        rw [count, values, copied, inRange, split, List.take_left]
        exact ⟨split ▸ sorted, rfl, rfl⟩
    · have greater : 0 < keycmp l right := by
        by_contra less
        exact ordered (keycmp_nonpos.mp (not_lt.mp less))
      refine ⟨⟨-1, [], some l, none⟩, ?_, iff_of_true rfl ?_, ?_⟩
      · rw [searchRange, if_pos greater]
      · rintro l' ⟨⟩
        exact not_le.mp ordered
      · rintro l' ⟨⟩ less
        exact absurd less ordered

/-- Eight of ten values, from two leaves. -/
theorem searchRange_packed : Packed.tree.Returns (some (Packed.number 5)) (Packed.number 14) 8 true :=
  searchRange_spec Packed.tree (some (Packed.number 5)) (Packed.number 14) 8 true packed_wellFormed (by decide)
    fun _ _ _ => lt_of_le_of_lt (Nat.min_le_left _ _) (by decide)

/-- Keys that differ are stored one after another in a tree of their own. -/
theorem exists_wellFormed (keys : List Key) (distinct : keys.Nodup) :
    ∃ t : BPlusTree, t.WellFormed ∧ (t.records.map Record.key).Perm keys := by
  induction keys with
  | nil => exact ⟨initFromEmpty, by decide, by decide⟩
  | cons key rest ih =>
    obtain ⟨fresh, distinct⟩ := List.nodup_cons.mp distinct
    obtain ⟨t, wf, same⟩ := ih distinct
    obtain ⟨leaves, bounds, levels, shape⟩ := wf.shaped
    rw [shape.records_eq] at same
    obtain ⟨P, r, S, split, found, -⟩ | ⟨P, S, t', leaves', bounds', levels', split, -, run, shape', split'⟩ :=
      shape.insert_spec key 0
    · refine absurd (same.mem_iff.mp ?_) fresh
      rw [split, ← found]
      exact List.mem_map_of_mem (by simp)
    · refine ⟨t', shape'.wellFormed (wf.laid.insert _ run), ?_⟩
      rw [shape'.records_eq, split']
      refine (List.perm_middle.map _).trans ?_
      rw [List.map_cons, ← split]
      exact same.cons key

/-- The bits of a number, as 31 bytes 1 and 2. -/
def bitsKey (n : Nat) : Key where
  bytes := (List.range 31).map fun i => if n.testBit i then 2 else 1
  nulFree := by
    intro b mem
    obtain ⟨i, -, rfl⟩ := List.mem_map.mp mem
    split <;> decide
  fits := by simp

theorem bitsKey_inj (small : n < 2 ^ 31) (small' : n' < 2 ^ 31) (same : bitsKey n = bitsKey n') : n = n' := by
  have bits : ∀ i ∈ List.range 31, (if n.testBit i then (2 : UInt8) else 1) = if n'.testBit i then 2 else 1 :=
    List.map_inj_left.mp (congrArg Key.bytes same)
  refine Nat.eq_of_testBit_eq fun i => ?_
  by_cases low : i < 31
  · have here := bits i (List.mem_range.mpr low)
    cases first : n.testBit i <;> cases second : n'.testBit i <;> simp_all
  · have high : 2 ^ 31 ≤ 2 ^ i := Nat.pow_le_pow_right (by decide) (by omega)
    rw [Nat.testBit_lt_two_pow (lt_of_lt_of_le small high), Nat.testBit_lt_two_pow (lt_of_lt_of_le small' high)]

/-- A well-formed tree of as many records, all in one range. -/
theorem exists_inRange (count : Nat) (small : count ≤ 2 ^ 31) : ∃ (t : BPlusTree) (l right : Key),
    t.WellFormed ∧ l ≤ right ∧ (t.inRange l right).length = count := by
  have distinct : ((List.range count).map bitsKey).Nodup := by
    refine List.nodup_range.map_on fun n mem n' mem' same => ?_
    exact bitsKey_inj (lt_of_lt_of_le (List.mem_range.mp mem) small)
      (lt_of_lt_of_le (List.mem_range.mp mem') small) same
  obtain ⟨t, wf, same⟩ := exists_wellFormed _ distinct
  let right : Key := ⟨List.replicate 32 1, fun b mem => by rw [List.eq_of_mem_replicate mem]; decide, by simp⟩
  have last : right.strlen = 32 := List.length_replicate
  refine ⟨t, Key.empty, right, wf, Key.le_of_strlen_lt (by rw [last]; decide), ?_⟩
  have all : t.inRange Key.empty right = t.records := by
    refine List.filter_eq_self.mpr fun record mem => ?_
    obtain ⟨n, -, key⟩ := List.mem_map.mp (same.mem_iff.mp (List.mem_map_of_mem mem))
    have length : record.key.strlen = 31 := by
      rw [← key]
      simp [Key.strlen, bitsKey]
    exact decide_eq_true ⟨Key.le_of_strlen_lt (by rw [length]; decide), Key.le_of_strlen_lt (by omega)⟩
  rw [all]
  have length := same.length_eq
  rwa [List.length_map, List.length_map, List.length_range] at length

/-- A count of `2 ^ 31` is returned as a negative number. -/
theorem not_searchRange_spec : ¬ ∀ (t : BPlusTree) (left : Option Key) (right : Key) (max : Nat) (wantNext : Bool),
    t.WellFormed → 1 ≤ max → t.Returns left right max wantNext := by
  intro returns
  obtain ⟨t, l, right, wf, ordered, many⟩ := exists_inRange (2 ^ 31) (Nat.le_refl _)
  obtain ⟨result, run, -, found⟩ := returns t (some l) right (2 ^ 31) false wf (by decide)
  obtain ⟨-, count, -⟩ := found l rfl ordered
  rw [many, Nat.min_self] at count
  obtain ⟨leaves, bounds, levels, shape⟩ := wf.shaped
  have positive : 0 < 2 ^ 31 := by decide
  obtain ⟨F, q, G, -, -, -, -, -, run'⟩ := shape.range_spec ordered positive
  cases run.symm.trans (run' false)
  have bound := toInt_lt F.length
  change toInt F.length = _ at count
  omega

end BPlusTree

theorem Routes.unique {k : Key} {U V U' V' : List Key} {u u' : Key}
    (route : Routes k U u V) (route' : Routes k U' u' V') (same : U ++ u :: V = U' ++ u' :: V') :
    U.length = U'.length := by
  -- the shorter front would end with a bound that the other front has passed
  have shorter {U V U' V' : List Key} {u u' : Key} (route : Routes k U u V) (route' : Routes k U' u' V')
      (same : U ++ u :: V = U' ++ u' :: V') : U'.length ≤ U.length := by
    by_contra longer
    obtain ⟨W, rfl, tail⟩ | ⟨W, rfl, tail⟩ := List.append_eq_append_iff.mp same
    · cases W with
      | nil => simp at longer
      | cons w W =>
        obtain ⟨rfl, rfl⟩ := List.cons.inj tail
        exact absurd (route'.above u (by simp)) (not_le.mpr (route.below (by simp)))
    · rw [List.length_append] at longer
      omega
  exact Nat.le_antisymm (shorter route' route same.symm) (shorter route route' same)

theorem Located.search (at_ : Located t k A x B U u V L c R X e Y) :
    (∃ P r S, x.items = P ++ r :: S ∧ (∀ s ∈ P, s.key < k) ∧ k ≤ r.key ∧
        t.search k = .ok (keycmp r.key k, some r.value)) ∨
      (∀ r ∈ x.items, r.key < k) ∧ t.search k = .ok (-1, none) := by
  obtain ⟨P, S, items, less, more⟩ := lower_split at_.sorted k
  have place : findRecord (x.node (firstOff B) (lastOff A)) k = P.length :=
    findRecord_gap items less fun r mem => more r (List.mem_of_mem_head? mem)
  cases S with
  | nil =>
    rw [List.append_nil] at items
    refine .inr ⟨items ▸ less, ?_⟩
    simp only [BPlusTree.search, at_.searchLeaf, bind, Except.bind, at_.leaf.map, place]
    simp [Cell.node, items, pure, Except.pure]
  | cons r S =>
    refine .inl ⟨P, r, S, items, less, more r List.mem_cons_self, ?_⟩
    simp only [BPlusTree.search, at_.searchLeaf, bind, Except.bind, at_.leaf.map, place]
    simp only [Cell.node, items, getElem?_append_length_cons, pure, Except.pure]

namespace BPlusTree

/-- `search` returns the lower bound: the least key that is not less, and no
value only where all keys are less. -/
structure GivesLowerBound (t : BPlusTree) (key : Key) : Prop where
  found : ∀ r ∈ t.records, key ≤ r.key → (∀ s ∈ t.records, key ≤ s.key → r.key ≤ s.key) →
    t.search key = .ok (keycmp r.key key, some r.value)
  absent : (∀ r ∈ t.records, r.key < key) → t.search key = .ok (-1, none)

end BPlusTree

theorem Shape.not_givesLowerBound (shape : Shape t (A ++ x :: B) bounds levels)
    (at_ : Located t k A x B U u V L c R X e Y) (less : ∀ r ∈ x.items, r.key < k) (more : B ≠ []) :
    ¬ t.GivesLowerBound k := by
  rintro ⟨found, -⟩
  obtain ⟨d, B, rfl⟩ := List.exists_cons_of_ne_nil more
  have several : 2 ≤ (A ++ x :: d :: B).length := by
    simp only [List.length_append, List.length_cons]
    omega
  have filled := shape.filled.atLeast several d (by simp)
  obtain ⟨r, items, same⟩ := List.exists_cons_of_ne_nil (List.ne_nil_of_length_pos
    (lt_of_lt_of_le (show 0 < bpOrder / 2 by decide) filled))
  have split : contents (A ++ x :: d :: B) = (contents A ++ x.items) ++ r :: (items ++ contents B) := by
    simp [same]
  obtain ⟨before, after⟩ := at_.around.outside at_.route
  have sorted : SortedBy Record.key ((contents A ++ x.items) ++ r :: (items ++ contents B)) :=
    split ▸ shape.fenced.sorted_contents
  have answer := found r (by rw [shape.records_eq, split]; simp) (after r (by simp [same])).le
    fun s mem notLess => by
      rw [shape.records_eq, split] at mem
      obtain mem | mem := List.mem_append.mp mem
      · obtain mem | mem := List.mem_append.mp mem
        · exact absurd (before s mem) (not_lt.mpr notLess)
        · exact absurd (less s mem) (not_lt.mpr notLess)
      · obtain rfl | mem := List.mem_cons.mp mem
        · exact le_rfl
        · exact (sorted.gap.below s mem).le
  obtain ⟨P, r', S, split', -, notLess, -⟩ | ⟨-, missed⟩ := at_.search
  · exact absurd (less r' (by simp [split'])) (not_lt.mpr notLess)
  · exact absurd (congrArg Prod.snd (Except.ok.inj (missed.symm.trans answer))) nofun

theorem Shape.givesLowerBound (shape : Shape t (A ++ x :: B) bounds levels)
    (at_ : Located t k A x B U u V L c R X e Y) (here : B = [] ∨ ∃ r ∈ x.items, k ≤ r.key) :
    t.GivesLowerBound k := by
  obtain ⟨before, after⟩ := at_.around.outside at_.route
  obtain ⟨P, r, S, split, less, notLess, answer⟩ | ⟨less, missed⟩ := at_.search
  · have whole : contents (A ++ x :: B) = (contents A ++ P) ++ r :: (S ++ contents B) := by simp [split]
    have sorted : SortedBy Record.key ((contents A ++ P) ++ r :: (S ++ contents B)) :=
      whole ▸ shape.fenced.sorted_contents
    have stored : r ∈ t.records := by
      rw [shape.records_eq, whole]
      simp
    refine ⟨fun s mem notLess' least => ?_, fun all => absurd (all r stored) (not_lt.mpr notLess)⟩
    rw [shape.records_eq, whole] at mem
    obtain mem | mem := List.mem_append.mp mem
    · obtain mem | mem := List.mem_append.mp mem
      · exact absurd (before s mem) (not_lt.mpr notLess')
      · exact absurd (less s mem) (not_lt.mpr notLess')
    · obtain rfl | mem := List.mem_cons.mp mem
      · exact answer
      · exact absurd (sorted.gap.below s mem) (not_lt.mpr (least r stored notLess))
  · obtain rfl : B = [] := here.resolve_right fun ⟨r, mem, notLess⟩ => absurd (less r mem) (not_lt.mpr notLess)
    refine ⟨fun s mem notLess' _ => ?_, fun _ => missed⟩
    rw [shape.records_eq, contents_append, contents_cons, contents_nil, List.append_nil] at mem
    obtain mem | mem := List.mem_append.mp mem
    · exact absurd (before s mem) (not_lt.mpr notLess')
    · exact absurd (less s mem) (not_lt.mpr notLess')

theorem Located.place (at_ : Located t k A x B U u V L c R X e Y)
    (shape : Shape t (A ++ x :: B) (U ++ u :: V) levels) (mem : p ∈ t.row t.info.height) (takes : p.Takes k) :
    p = ⟨x.off, x.parent, U.getLast?, if B = [] then none else some u⟩ := by
  obtain ⟨A', x', B', U', u', V', leaves', bounds', len, rfl⟩ := shape.mem_leafPlaces.mp mem
  have lens : V'.length = B'.length := by
    have := shape.fenced.len
    rw [leaves', bounds', List.length_append, List.length_append, List.length_cons, List.length_cons] at this
    omega
  have route := (takes_iff (bounds' ▸ shape.fenced.ascending) lens).mp takes
  have same := at_.route.unique route bounds'
  obtain ⟨rfl, tail⟩ := List.append_inj leaves' (at_.around.lenA.symm.trans (same.trans len))
  obtain ⟨rfl, tail'⟩ := List.append_inj bounds' same
  cases tail
  cases tail'
  rfl

/-- A lower bound is found only in the leaf of the key, or where no leaf follows. -/
theorem BPlusTree.GivesLowerBound.covered {t : BPlusTree} (gives : t.GivesLowerBound key) (wf : t.WellFormed)
    (mem : p ∈ t.row t.info.height) (takes : p.Takes key) :
    p.hi = none ∨ ∃ r ∈ t.file.leafRecords p.off, key ≤ r.key := by
  obtain ⟨leaves, bounds, levels, shape⟩ := wf.shaped
  obtain ⟨A, x, B, U, u, V, L, c, R, rest, X, e, Y, rfl, rfl, rfl, at_⟩ := shape.locate key
  obtain rfl := at_.place shape mem takes
  rw [shape.leafRecords_eq x (by simp)]
  by_cases last : B = []
  · exact .inl (if_pos last)
  · right
    by_contra nothing
    simp only [not_exists, not_and, not_le] at nothing
    exact shape.not_givesLowerBound at_ nothing last gives

/-- `search` returns the lower bound unless the key lies between the last record
of a leaf and the separator after it. -/
theorem BPlusTree.givesLowerBound_iff (t : BPlusTree) (key : Key) (wf : t.WellFormed) :
    t.GivesLowerBound key ↔ ∀ p ∈ t.row t.info.height, p.Takes key →
      p.hi = none ∨ ∃ r ∈ t.file.leafRecords p.off, key ≤ r.key := by
  constructor
  · exact fun gives p mem takes => gives.covered wf mem takes
  · intro covered
    obtain ⟨leaves, bounds, levels, shape⟩ := wf.shaped
    obtain ⟨A, x, B, U, u, V, L, c, R, rest, X, e, Y, rfl, rfl, rfl, at_⟩ := shape.locate key
    have inRow := shape.mem_leafPlaces.mpr ⟨A, x, B, U, u, V, rfl, rfl, at_.around.lenA, rfl⟩
    have here := covered _ inRow ((takes_iff shape.fenced.ascending at_.around.lenB).mpr at_.route)
    rw [shape.leafRecords_eq x (by simp)] at here
    refine shape.givesLowerBound at_ (here.imp_left fun free => ?_)
    by_contra more
    rw [if_neg more] at free
    cases free

theorem givesLowerBound_packed : Packed.tree.GivesLowerBound (Packed.number 5) :=
  (BPlusTree.givesLowerBound_iff _ _ BPlusTree.packed_wellFormed).mpr (by decide +kernel)

/-- Two bytes, behind the key 99. -/
def Packed.gap : Key where
  bytes := [1, 101]
  nulFree := by simp
  fits := by simp

/-- The key 100 is in the next leaf, and -1 is returned. -/
theorem not_givesLowerBound_packed : Packed.tree.WellFormed ∧
    (∃ r ∈ Packed.tree.records, Packed.gap ≤ r.key) ∧ Packed.tree.search Packed.gap = .ok (-1, none) ∧
      ¬ Packed.tree.GivesLowerBound Packed.gap := by
  refine ⟨BPlusTree.packed_wellFormed, ⟨⟨Packed.number 100, 0⟩, ?_, ?_⟩, ?_, fun gives => ?_⟩
  · exact List.mem_flatMap.mpr ⟨⟨Packed.leafOff 10, Packed.innerOff 1, some (Packed.number 100), some (Packed.number 110)⟩, by decide +kernel,
      by decide +kernel⟩
  · decide +kernel
  · decide +kernel
  · obtain empty | ⟨r, mem, notLess⟩ := gives.covered BPlusTree.packed_wellFormed
      (p := ⟨Packed.leafOff 9, Packed.innerOff 0, some (Packed.number 90), some (Packed.number 100)⟩) (by decide +kernel) (by decide +kernel)
    · cases empty
    · revert r
      decide +kernel

end Fdfs2qq.Bpt
