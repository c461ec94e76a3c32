import Fdfs2qq.Bpt.Levels
import Fdfs2qq.Lib.KeyedList

/-! The records of a row of leaves between the bounds of the index above: where
a key is routed to, and what replacing a stretch of leaves has to keep. -/
namespace Fdfs2qq.Bpt
open Lib

/-- A leaf and its upper bound lie before another leaf. -/
def Before (a b : Cell Record × Key) : Prop :=
  (∀ r ∈ a.1.items, r.key < a.2) ∧ ∀ r ∈ b.1.items, a.2 ≤ r.key

/-- Records increase within leaves, and bounds separate the leaves. The last
bound is free. -/
structure Fenced (leaves : List (Cell Record)) (bounds : List Key) : Prop where
  len : bounds.length = leaves.length
  sorted : ∀ c ∈ leaves, SortedBy Record.key c.items
  ascending : Ascending bounds
  apart : (leaves.zip bounds).Pairwise Before

def contents (leaves : List (Cell Record)) : List Record := leaves.flatMap Cell.items

@[simp] theorem contents_nil : contents [] = [] := rfl

@[simp] theorem contents_cons (c : Cell Record) (row : List (Cell Record)) :
    contents (c :: row) = c.items ++ contents row := rfl

@[simp] theorem contents_append (A B : List (Cell Record)) :
    contents (A ++ B) = contents A ++ contents B := List.flatMap_append

theorem contents_of_bodies {row row' : List (Cell Record)} (same : bodies row = bodies row') :
    contents row = contents row' := by
  have := congrArg List.flatten (items_of_bodies same)
  rwa [← List.flatMap_def, ← List.flatMap_def] at this

theorem Fenced.of_bodies {row row' : List (Cell Record)} (same : bodies row = bodies row')
    (fenced : Fenced row bounds) : Fenced row' bounds := by
  have items := items_of_bodies same
  refine ⟨fenced.len.trans (length_of_bodies same), ?_, fenced.ascending, ?_⟩
  · intro c mem
    have inside : c.items ∈ row.map Cell.items := items ▸ List.mem_map_of_mem mem
    obtain ⟨d, mem', eq⟩ := List.mem_map.mp inside
    exact eq ▸ fenced.sorted d mem'
  · have zips : (row.zip bounds).map (Prod.map Cell.items id) =
        (row'.zip bounds).map (Prod.map Cell.items id) := by
      rw [← List.zip_map_left, ← List.zip_map_left, items]
    have lifted : ((row.zip bounds).map (Prod.map Cell.items id)).Pairwise
        (fun a b : List Record × Key => (∀ r ∈ a.1, r.key < a.2) ∧ ∀ r ∈ b.1, a.2 ≤ r.key) :=
      List.pairwise_map.mpr fenced.apart
    rw [zips] at lifted
    exact List.pairwise_map (f := Prod.map Cell.items id) |>.mp lifted

/-- Every key is routed to exactly one cell; here that there is one. -/
theorem Routes.exists {bounds : List Key} (nonempty : bounds ≠ []) (k : Key) :
    ∃ U u V, bounds = U ++ u :: V ∧ Routes k U u V := by
  induction bounds with
  | nil => contradiction
  | cons b rest ih =>
    by_cases below : k < b
    · exact ⟨[], b, rest, rfl, by simp, fun _ => below⟩
    · cases rest with
      | nil => exact ⟨[], b, [], rfl, by simp, by simp⟩
      | cons c rest =>
        obtain ⟨U, u, V, split, route⟩ := ih (by simp)
        refine ⟨b :: U, u, V, by rw [split]; rfl, ?_, route.below⟩
        intro a mem
        rcases List.mem_cons.mp mem with rfl | mem
        · exact not_lt.mp below
        · exact route.above a mem

/-- What lies around the stretch of leaves between the bounds `U` and `u`. -/
structure Around (A B : List (Cell Record)) (U V : List Key) (u : Key) : Prop where
  lenA : U.length = A.length
  lenB : V.length = B.length
  sorted : ∀ c ∈ A ++ B, SortedBy Record.key c.items
  apartA : (A.zip U).Pairwise Before
  apartB : (B.zip V).Pairwise Before
  left : ∀ a ∈ A.zip U, ∀ r ∈ a.1.items, r.key < a.2
  across : ∀ a ∈ U, ∀ b ∈ B, ∀ r ∈ b.items, a ≤ r.key
  right : ∀ b ∈ B, ∀ r ∈ b.items, u ≤ r.key

theorem exists_zip_right {xs : List γ} {ys : List δ} (len : ys.length = xs.length) (mem : y ∈ ys) :
    ∃ x, (x, y) ∈ xs.zip ys := by
  have whole : (xs.zip ys).map Prod.snd = ys := List.map_snd_zip (by omega)
  obtain ⟨⟨x, y'⟩, inside, rfl⟩ := List.mem_map.mp (whole.symm ▸ mem)
  exact ⟨x, inside⟩

theorem exists_zip_left {xs : List γ} {ys : List δ} (len : ys.length = xs.length) (mem : x ∈ xs) :
    ∃ y, (x, y) ∈ xs.zip ys := by
  have whole : (xs.zip ys).map Prod.fst = xs := List.map_fst_zip (by omega)
  obtain ⟨⟨x', y⟩, inside, rfl⟩ := List.mem_map.mp (whole.symm ▸ mem)
  exact ⟨y, inside⟩

theorem zip_concat_cases {M : List (Cell Record)} {W : List Key} (len : (W ++ [u]).length = M.length) :
    ∃ M₀ d, M = M₀ ++ [d] ∧ M.zip (W ++ [u]) = M₀.zip W ++ [(d, u)] := by
  have filled : M ≠ [] := fun empty => by simp [empty] at len
  obtain ⟨M₀, d, rfl⟩ := (List.eq_nil_or_concat' M).resolve_left filled
  refine ⟨M₀, d, rfl, ?_⟩
  rw [List.zip_append (by simp at len; omega)]
  rfl

theorem Ascending.lt_of_mem {U W V : List Key} (asc : Ascending (U ++ (W ++ u :: V))) (ne : V ≠ [])
    (mem : w ∈ W) : w < u := by
  rw [← List.append_assoc, Ascending, List.dropLast_append_of_ne_nil (List.cons_ne_nil _ _),
    List.dropLast_cons_of_ne_nil ne, List.pairwise_append] at asc
  exact asc.2.2 w (by simp [mem]) u (by simp)

theorem Ascending.inner {U W V : List Key} (asc : Ascending (U ++ (W ++ u :: V))) :
    Ascending (W ++ [u]) := by
  rw [← List.append_assoc, Ascending, List.dropLast_append_of_ne_nil (List.cons_ne_nil _ _),
    List.pairwise_append] at asc
  rw [Ascending, List.dropLast_concat]
  exact (List.pairwise_append.mp asc.1).2.1

theorem Fenced.around {A M B : List (Cell Record)} {U W V : List Key} {u : Key}
    (fenced : Fenced (A ++ (M ++ B)) (U ++ (W ++ u :: V))) (lenA : U.length = A.length)
    (lenM : (W ++ [u]).length = M.length) :
    Around A B U V u ∧ Fenced M (W ++ [u]) ∧ ∀ c ∈ M, ∀ r ∈ c.items, Routes r.key U u V := by
  obtain ⟨len, sorted, asc, apart⟩ := fenced
  have lenB : V.length = B.length := by
    simp only [List.length_append, List.length_cons, List.length_nil] at len lenM
    omega
  obtain ⟨M₀, d, rfl, zipM⟩ := zip_concat_cases lenM
  have zips : (A ++ ((M₀ ++ [d]) ++ B)).zip (U ++ (W ++ u :: V)) =
      A.zip U ++ ((M₀ ++ [d]).zip (W ++ [u]) ++ B.zip V) := by
    rw [List.zip_append lenA.symm, ← List.singleton_append (l := V), ← List.append_assoc W,
      List.zip_append lenM.symm]
  rw [zips, List.pairwise_append, List.pairwise_append] at apart
  obtain ⟨apartA, ⟨apartM, apartB, crossMB⟩, crossA⟩ := apart
  have lastIn : (d, u) ∈ (M₀ ++ [d]).zip (W ++ [u]) := by simp [zipM]
  refine ⟨⟨lenA, lenB, fun c mem => sorted c ?_, apartA, apartB, ?_, ?_, ?_⟩,
    ⟨lenM, fun c mem => sorted c (by simp only [List.mem_append] at mem ⊢; tauto), asc.inner,
      apartM⟩, ?_⟩
  · simp only [List.mem_append] at mem ⊢
    tauto
  · exact fun a mem => (crossA a mem _ (List.mem_append_left _ lastIn)).1
  · intro a memA b memB
    obtain ⟨c, inA⟩ := exists_zip_right lenA memA
    obtain ⟨v, inB⟩ := exists_zip_left lenB memB
    exact (crossA _ inA _ (List.mem_append_right _ inB)).2
  · intro b memB
    obtain ⟨v, inB⟩ := exists_zip_left lenB memB
    exact (crossMB _ lastIn _ inB).2
  · intro c memM r memR
    obtain ⟨w, inM⟩ := exists_zip_left lenM memM
    constructor
    · intro a memA
      obtain ⟨c', inA⟩ := exists_zip_right lenA memA
      exact (crossA _ inA _ (List.mem_append_left _ inM)).2 r memR
    · intro ne
      obtain ⟨v, V', rfl⟩ := List.exists_cons_of_ne_nil ne
      obtain ⟨b, inB⟩ := exists_zip_right lenB (List.mem_cons_self (a := v) (l := V'))
      have less := (crossMB _ inM _ inB).1 r memR
      have bound : w ∈ W ++ [u] := (List.of_mem_zip inM).2
      rcases List.mem_append.mp bound with inW | last
      · exact less.trans (asc.lt_of_mem ne inW)
      · exact (List.mem_singleton.mp last) ▸ less

theorem Around.fill {A M B : List (Cell Record)} {U W V : List Key} {u : Key}
    (around : Around A B U V u) (inner : Fenced M (W ++ [u]))
    (routed : ∀ c ∈ M, ∀ r ∈ c.items, Routes r.key U u V) (asc : Ascending (U ++ (W ++ u :: V))) :
    Fenced (A ++ (M ++ B)) (U ++ (W ++ u :: V)) := by
  obtain ⟨lenM, sortedM, _, apartM⟩ := inner
  obtain ⟨M₀, d, rfl, zipM⟩ := zip_concat_cases lenM
  have zips : (A ++ ((M₀ ++ [d]) ++ B)).zip (U ++ (W ++ u :: V)) =
      A.zip U ++ ((M₀ ++ [d]).zip (W ++ [u]) ++ B.zip V) := by
    rw [List.zip_append around.lenA.symm, ← List.singleton_append (l := V), ← List.append_assoc W,
      List.zip_append lenM.symm]
  refine ⟨?_, ?_, asc, ?_⟩
  · have := around.lenA
    have := around.lenB
    simp only [List.length_append, List.length_cons, List.length_nil] at lenM ⊢
    omega
  · intro c mem
    rw [List.mem_append, List.mem_append (s := M₀ ++ [d])] at mem
    rcases mem with mem | mem | mem
    · exact around.sorted c (List.mem_append_left _ mem)
    · exact sortedM c mem
    · exact around.sorted c (List.mem_append_right _ mem)
  rw [zips, List.pairwise_append, List.pairwise_append]
  refine ⟨around.apartA, ⟨apartM, around.apartB, ?_⟩, ?_⟩
  · rintro ⟨c, w⟩ inM ⟨b, v⟩ inB
    have ne : V ≠ [] := fun empty => by simp [empty] at inB
    have memB : b ∈ B := (List.of_mem_zip inB).1
    rw [zipM, List.mem_append] at inM
    rcases inM with inM | last
    · rw [zipM, List.pairwise_append] at apartM
      have inW : w ∈ W := (List.of_mem_zip inM).2
      refine ⟨(apartM.2.2 _ inM (d, u) (by simp)).1, fun r mem => ?_⟩
      exact (asc.lt_of_mem ne inW).le.trans (around.right b memB r mem)
    · obtain ⟨rfl, rfl⟩ := Prod.mk.inj (List.mem_singleton.mp last)
      exact ⟨fun r mem => (routed c (by simp) r mem).below ne, around.right b memB⟩
  · rintro ⟨a, b⟩ inA ⟨c, w⟩ inRest
    refine ⟨around.left _ inA, fun r mem => ?_⟩
    have memU : b ∈ U := (List.of_mem_zip inA).2
    rcases List.mem_append.mp inRest with inM | inB
    · exact (routed c (List.of_mem_zip inM).1 r mem).above b memU
    · exact around.across b memU c (List.of_mem_zip inB).1 r mem

/-- Keys routed into a stretch lie between the records on both sides of it. -/
theorem Around.outside {A B : List (Cell Record)} {U V : List Key} {u k : Key}
    (around : Around A B U V u) (route : Routes k U u V) :
    (∀ r ∈ contents A, r.key < k) ∧ ∀ r ∈ contents B, k < r.key := by
  constructor
  · intro r mem
    obtain ⟨a, memA, inside⟩ := List.mem_flatMap.mp mem
    obtain ⟨b, inA⟩ := exists_zip_left around.lenA memA
    exact (around.left _ inA r inside).trans_le (route.above b (List.of_mem_zip inA).2)
  · intro r mem
    obtain ⟨b, memB, inside⟩ := List.mem_flatMap.mp mem
    have ne : V ≠ [] := fun empty => by
      have := around.lenB
      simp only [empty, List.length_nil] at this
      simp [List.length_eq_zero_iff.mp this.symm] at memB
    exact (route.below ne).trans_le (around.right b memB r inside)

end Fdfs2qq.Bpt
