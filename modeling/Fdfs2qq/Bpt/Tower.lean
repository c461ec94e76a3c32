import Fdfs2qq.Bpt.StoreProofs
import Fdfs2qq.Bpt.Search
import Fdfs2qq.Lib.ListSplit

/-! The index over a row, level by level from the bottom. A level is stacked on
the row below when its slots list exactly the cells of that row, each cell with
the right parent field, and when the key in each slot is the upper bound of the
cell it leads to. The bound of an internal cell is the key in its last slot, so
separators and unused last-slot keys are one law. Only the rightmost bound of a
row is free. -/
namespace Fdfs2qq.Bpt
open Lib

def ids (row : List (Cell α)) : List (Offset × Offset) := row.map fun c => (c.off, c.parent)

def bodies (row : List (Cell α)) : List (Offset × List α) := row.map fun c => (c.off, c.items)

def slotKids (owner : Offset) (items : List Index) : List (Offset × Offset) :=
  items.map fun e => (e.child, owner)

/-- The children a row lists, with the cell that lists them. -/
def kids (row : List (Cell Index)) : List (Offset × Offset) :=
  row.flatMap fun c => slotKids c.off c.items

def rowKeys (row : List (Cell Index)) : List Key := row.flatMap fun c => c.items.map Index.key

def lastKey (c : Cell Index) : Key := ((c.items.map Index.key).getLast?).getD Key.empty

def uppers (row : List (Cell Index)) : List Key := row.map lastKey

/-- Occupancy of a level; `top` says that no level lies above. -/
structure Sized (top : Prop) (row : List (Cell Index)) : Prop where
  nonempty : ∀ c ∈ row, c.items ≠ []
  atMost : ∀ c ∈ row, c.items.length ≤ bpOrder
  atLeast : ¬ top → ∀ c ∈ row, bpOrder / 2 ≤ c.items.length
  several : ¬ top → 2 ≤ row.length

/-- `Tower f root lower bounds levels`: the levels index the cells `lower`,
whose upper bounds are `bounds`. -/
inductive Tower (f : File) (root : Offset) :
    List (Offset × Offset) → List Key → List (List (Cell Index)) → Prop where
  | top : Tower f root [(root, 0)] bounds []
  | level : LinkedRow f row → kids row = lower → SameInit (rowKeys row) bounds →
      Sized (rest = []) row → Tower f root (ids row) (uppers row) rest →
      Tower f root lower bounds (row :: rest)

/-- All bounds but the free last one increase. -/
def Ascending (bounds : List Key) : Prop := bounds.dropLast.Pairwise (· < ·)

@[simp] theorem ids_append (A B : List (Cell α)) : ids (A ++ B) = ids A ++ ids B := List.map_append

@[simp] theorem ids_cons (c : Cell α) (row : List (Cell α)) :
    ids (c :: row) = (c.off, c.parent) :: ids row := rfl

@[simp] theorem ids_nil : ids ([] : List (Cell α)) = [] := rfl

@[simp] theorem bodies_append (A B : List (Cell α)) : bodies (A ++ B) = bodies A ++ bodies B :=
  List.map_append

@[simp] theorem bodies_cons (c : Cell α) (row : List (Cell α)) :
    bodies (c :: row) = (c.off, c.items) :: bodies row := rfl

@[simp] theorem bodies_nil : bodies ([] : List (Cell α)) = [] := rfl

@[simp] theorem slotKids_append (owner : Offset) (X Y : List Index) :
    slotKids owner (X ++ Y) = slotKids owner X ++ slotKids owner Y := List.map_append

@[simp] theorem slotKids_cons (owner : Offset) (e : Index) (X : List Index) :
    slotKids owner (e :: X) = (e.child, owner) :: slotKids owner X := rfl

@[simp] theorem slotKids_nil (owner : Offset) : slotKids owner [] = [] := rfl

@[simp] theorem length_slotKids (owner : Offset) (X : List Index) :
    (slotKids owner X).length = X.length := List.length_map _

@[simp] theorem kids_append (A B : List (Cell Index)) : kids (A ++ B) = kids A ++ kids B :=
  List.flatMap_append

@[simp] theorem kids_cons (c : Cell Index) (row : List (Cell Index)) :
    kids (c :: row) = slotKids c.off c.items ++ kids row := rfl

@[simp] theorem kids_nil : kids [] = [] := rfl

@[simp] theorem rowKeys_append (A B : List (Cell Index)) :
    rowKeys (A ++ B) = rowKeys A ++ rowKeys B := List.flatMap_append

@[simp] theorem rowKeys_cons (c : Cell Index) (row : List (Cell Index)) :
    rowKeys (c :: row) = c.items.map Index.key ++ rowKeys row := rfl

@[simp] theorem rowKeys_nil : rowKeys [] = [] := rfl

@[simp] theorem uppers_append (A B : List (Cell Index)) : uppers (A ++ B) = uppers A ++ uppers B :=
  List.map_append

@[simp] theorem uppers_cons (c : Cell Index) (row : List (Cell Index)) :
    uppers (c :: row) = lastKey c :: uppers row := rfl

@[simp] theorem uppers_nil : uppers [] = [] := rfl

@[simp] theorem length_uppers (row : List (Cell Index)) : (uppers row).length = row.length :=
  List.length_map _

@[simp] theorem length_ids (row : List (Cell α)) : (ids row).length = row.length :=
  List.length_map _

theorem length_rowKeys (row : List (Cell Index)) : (rowKeys row).length = (kids row).length := by
  induction row with
  | nil => rfl
  | cons c row ih => simp [ih]

theorem offsets_eq_ids (row : List (Cell α)) : offsets row = (ids row).map Prod.fst := by
  simp [offsets, ids]

theorem offsets_of_bodies {row row' : List (Cell α)} (same : bodies row = bodies row') :
    offsets row = offsets row' := by
  have := congrArg (List.map Prod.fst) same
  rwa [bodies, bodies, List.map_map, List.map_map] at this

theorem kids_of_bodies {row row' : List (Cell Index)} (same : bodies row = bodies row') :
    kids row = kids row' := by
  have := congrArg (List.flatMap fun b : Offset × List Index => slotKids b.1 b.2) same
  rwa [bodies, bodies, List.flatMap_map, List.flatMap_map] at this

theorem rowKeys_of_bodies {row row' : List (Cell Index)} (same : bodies row = bodies row') :
    rowKeys row = rowKeys row' := by
  have := congrArg (List.flatMap fun b : Offset × List Index => b.2.map Index.key) same
  rwa [bodies, bodies, List.flatMap_map, List.flatMap_map] at this

theorem uppers_of_bodies {row row' : List (Cell Index)} (same : bodies row = bodies row') :
    uppers row = uppers row' := by
  have := congrArg (List.map fun b : Offset × List Index =>
    ((b.2.map Index.key).getLast?).getD Key.empty) same
  rwa [bodies, bodies, List.map_map, List.map_map] at this

theorem items_of_bodies {row row' : List (Cell α)} (same : bodies row = bodies row') :
    row.map Cell.items = row'.map Cell.items := by
  have := congrArg (List.map Prod.snd) same
  rwa [bodies, bodies, List.map_map, List.map_map] at this

theorem length_of_bodies {row row' : List (Cell α)} (same : bodies row = bodies row') :
    row.length = row'.length := by
  simpa [bodies] using congrArg List.length same

theorem exists_of_bodies {row row' : List (Cell α)} (same : bodies row = bodies row') {c : Cell α}
    (mem : c ∈ row') : ∃ d ∈ row, d.items = c.items := by
  have inside : c.items ∈ row.map Cell.items := items_of_bodies same ▸ List.mem_map_of_mem mem
  obtain ⟨d, mem', eq⟩ := List.mem_map.mp inside
  exact ⟨d, mem', eq⟩

theorem Sized.of_bodies {row row' : List (Cell Index)} (same : bodies row = bodies row')
    (sized : Sized top row) : Sized top row' := by
  refine ⟨?_, ?_, ?_, fun low => length_of_bodies same ▸ sized.several low⟩
  · intro c mem
    obtain ⟨d, mem', eq⟩ := exists_of_bodies same mem
    exact eq ▸ sized.nonempty d mem'
  · intro c mem
    obtain ⟨d, mem', eq⟩ := exists_of_bodies same mem
    exact eq ▸ sized.atMost d mem'
  · intro low c mem
    obtain ⟨d, mem', eq⟩ := exists_of_bodies same mem
    exact eq ▸ sized.atLeast low d mem'

@[simp] theorem bodies_reparent (parent : Offset) (row : List (Cell α)) :
    bodies (row.map (Cell.reparent parent)) = bodies row := by
  simp [bodies, Cell.reparent]

theorem lastKey_append_cons {c : Cell Index} {X Y : List Index} {e : Index}
    (items : c.items = X ++ e :: Y) : lastKey c = ((Y.map Index.key).getLast?).getD e.key := by
  simp only [lastKey, items, List.map_append, List.map_cons, List.getLast?_append,
    List.getLast?_cons]
  cases (Y.map Index.key).getLast? <;> rfl

theorem lastKey_concat {c : Cell Index} {Z : List Index} {z : Index} (items : c.items = Z ++ [z]) :
    lastKey c = z.key := lastKey_append_cons items

theorem lastKey_mem {c : Cell Index} (nonempty : c.items ≠ []) :
    lastKey c ∈ c.items.map Index.key := by
  have filled : (c.items.map Index.key).getLast? = some (lastKey c) := by
    cases h : (c.items.map Index.key).getLast? with
    | none => exact absurd (List.map_eq_nil_iff.mp (List.getLast?_eq_none_iff.mp h)) nonempty
    | some k => simp [lastKey, h]
  exact List.mem_of_getLast? filled

theorem uppers_sublist {row : List (Cell Index)} (nonempty : ∀ c ∈ row, c.items ≠ []) :
    (uppers row).Sublist (rowKeys row) := by
  induction row with
  | nil => exact List.Sublist.refl _
  | cons c row ih =>
    have head : [lastKey c].Sublist (c.items.map Index.key) :=
      List.singleton_sublist.mpr (lastKey_mem (nonempty c (by simp)))
    exact head.append (ih fun d mem => nonempty d (by simp [mem]))

theorem Ascending.of_sameInit {xs ys : List Key} (asc : Ascending ys) (same : SameInit xs ys) :
    Ascending xs := by
  rw [Ascending, same.2]
  exact asc

theorem Ascending.uppers {row : List (Cell Index)} (nonempty : ∀ c ∈ row, c.items ≠ [])
    (asc : Ascending (rowKeys row)) : Ascending (uppers row) := by
  rcases List.eq_nil_or_concat' row with rfl | ⟨init, c, rfl⟩
  · exact List.Pairwise.nil
  · have last : c.items.map Index.key ≠ [] := by simpa using nonempty c (by simp)
    have parts : (rowKeys (init ++ [c])).dropLast =
        rowKeys init ++ (c.items.map Index.key).dropLast := by
      simp [List.dropLast_append_of_ne_nil last]
    rw [Ascending, parts] at asc
    rw [Ascending]
    simp only [uppers_append, uppers_cons, uppers_nil, List.dropLast_concat]
    exact (List.pairwise_append.mp asc).1.sublist
      (uppers_sublist fun d mem => nonempty d (by simp [mem]))

theorem Ascending.gap {U V : List Key} {u v : Key} (asc : Ascending (U ++ u :: v :: V)) :
    (∀ a ∈ U, a < u) ∧ (V ≠ [] → u < v) := by
  rw [Ascending, dropLast_append_cons_cons, List.pairwise_append] at asc
  refine ⟨fun a mem => asc.2.2 a mem u (by simp), fun ne => ?_⟩
  have later := (List.pairwise_cons.mp asc.2.1).1
  exact later v (by rw [List.dropLast_cons_of_ne_nil ne]; simp)

/-- Where a child of a level is listed, seen from the cells and from the bounds. -/
theorem level_split {row : List (Cell Index)} {A B : List (Offset × Offset)} {U V : List Key}
    (listed : kids row = A ++ (x, p) :: B) (keyed : SameInit (rowKeys row) (U ++ u :: V))
    (len : U.length = A.length) :
    ∃ L c R X e Y, row = L ++ c :: R ∧ c.items = X ++ e :: Y ∧ e.child = x ∧ c.off = p ∧
      A = kids L ++ slotKids c.off X ∧ B = slotKids c.off Y ++ kids R ∧
      U = rowKeys L ++ X.map Index.key ∧ (V ≠ [] → e.key = u) ∧
      SameInit (Y.map Index.key ++ rowKeys R) V := by
  obtain ⟨L, c, R, K, K', rfl, seg, rfl, rfl⟩ := flatMap_split listed
  obtain ⟨X, rest, items, rfl, tail⟩ := List.map_eq_append_iff.mp seg
  obtain ⟨e, Y, rfl, pair, rfl⟩ := List.map_eq_cons_iff.mp tail
  simp only [Prod.mk.injEq] at pair
  have lenL := length_rowKeys L
  simp only [rowKeys_append, rowKeys_cons, items, List.map_append, List.map_cons,
    List.append_assoc, List.cons_append] at keyed
  rw [← List.append_assoc] at keyed
  simp only [List.length_append, List.length_map] at len
  obtain ⟨before, here, after⟩ := keyed.split (by
    simp only [List.length_append, List.length_map, lenL, kids]
    omega)
  refine ⟨L, c, R, X, e, Y, rfl, items, pair.1, pair.2, rfl, rfl, before.symm, ?_, after⟩
  exact fun ne => here fun empty => ne (after.nil_iff.mp empty)

theorem findIndex_at {node : Node Index} {X Y : List Index} {e : Index}
    (items : node.children = X ++ e :: Y) (before : ∀ x ∈ X, x.key ≤ k)
    (after : Y ≠ [] → k < e.key) : findIndex node k = X.length := by
  have slots : ∃ Z, node.children.dropLast = X ++ Z ∧ ∀ z ∈ Z.head?, k < z.key := by
    cases Y with
    | nil => exact ⟨[], by simp [items], by simp⟩
    | cons y Y =>
      refine ⟨e :: (y :: Y).dropLast, by rw [items, dropLast_append_cons_cons], ?_⟩
      simpa using after (by simp)
  obtain ⟨Z, slots, head⟩ := slots
  rw [findIndex, upperBound, slots, List.map_append, ← @List.length_map _ _ X Index.key]
  apply findIdx_boundary
  · intro a mem
    obtain ⟨x, inside, rfl⟩ := List.mem_map.mp mem
    simpa [keycmp_neg] using before x inside
  · intro b mem
    cases Z with
    | nil => simp at mem
    | cons z Z =>
      simp only [List.map_cons, List.head?_cons, Option.mem_some_iff] at mem
      subst mem
      simpa [keycmp_neg] using head z (by simp)

/-- `k` belongs below the cell between the bounds `U` and `u`. -/
structure Routes (k : Key) (U : List Key) (u : Key) (V : List Key) : Prop where
  above : ∀ a ∈ U, a ≤ k
  below : V ≠ [] → k < u

/-- Routing to a child is routing inside the cell that lists it and, one level
up, to that cell. -/
theorem Routes.level {L R : List (Cell Index)} {c : Cell Index} {X Y : List Index} {e : Index}
    {U V : List Key} (route : Routes k U u V) (asc : Ascending (U ++ u :: V))
    (items : c.items = X ++ e :: Y) (nonempty : ∀ d ∈ L ++ c :: R, d.items ≠ [])
    (before : U = rowKeys L ++ X.map Index.key) (here : V ≠ [] → e.key = u)
    (after : SameInit (Y.map Index.key ++ rowKeys R) V) (next prev : Offset) :
    findIndex (c.node next prev) k = X.length ∧ Routes k (uppers L) (lastKey c) (uppers R) := by
  constructor
  · apply findIndex_at items
    · intro x mem
      exact route.above _ (by rw [before]; simp only [List.mem_append, List.mem_map]; exact Or.inr ⟨x, mem, rfl⟩)
    · intro ne
      have occupied : V ≠ [] := fun empty => by
        have := after.nil_iff.mpr empty
        simp_all
      exact here occupied ▸ route.below occupied
  constructor
  · intro a mem
    have inside := (uppers_sublist fun d inL => nonempty d (by simp [inL])).subset mem
    exact route.above a (by simp [before, inside])
  · intro ne
    obtain ⟨d, R', rfl⟩ := List.exists_cons_of_ne_nil (show R ≠ [] from fun empty => ne (by rw [empty]; rfl))
    have filled : d.items.map Index.key ≠ [] := by simpa using nonempty d (by simp)
    have solid : V ≠ [] := fun empty => by
      have := after.nil_iff.mpr empty
      simp_all
    have limit := route.below solid
    rw [lastKey_append_cons items]
    cases last : (Y.map Index.key).getLast? with
    | none => simpa [here solid] using limit
    | some y =>
      have mem : y ∈ Y.map Index.key := List.mem_of_getLast? last
      have inside : y ∈ V.dropLast := by
        rw [← after.2, List.dropLast_append_of_ne_nil (by simp [filled])]
        exact List.mem_append_left _ mem
      rw [Ascending, List.dropLast_append_of_ne_nil (by simp), List.dropLast_cons_of_ne_nil solid,
        List.pairwise_append, List.pairwise_cons] at asc
      exact limit.trans (asc.2.1.1 y inside)

namespace BPlusTree

theorem searchLeafFrom_of_holds {t : BPlusTree} {c : Cell Index} {X Y : List Index} {e : Index}
    (held : c.Holds t.file next prev) (items : c.items = X ++ e :: Y)
    (found : findIndex (c.node next prev) k = X.length) :
    t.searchLeafFrom c.off k = .ok e.child := by
  simp only [searchLeafFrom, held.map, bind, Except.bind, found, pure, Except.pure]
  simp only [Cell.node, items, slotAt, getElem?_append_length_cons]

theorem searchIndexFrom_succ (t : BPlusTree) (k : Key) (n : Nat) (org : Offset) :
    t.searchIndexFrom k (n + 1) org =
      (t.searchLeafFrom org k).bind fun off => t.searchIndexFrom k n off := by
  simp only [searchIndexFrom, searchLeafFrom, bind, Except.bind, pure, Except.pure]
  cases t.map Index org with
  | error _ => rfl
  | ok node =>
    dsimp only
    cases slotAt node.children (findIndex node k) <;> rfl

theorem searchIndexFrom_last (t : BPlusTree) (k : Key) (n : Nat) (org : Offset) :
    t.searchIndexFrom k (n + 1) org =
      (t.searchIndexFrom k n org).bind fun off => t.searchLeafFrom off k := by
  induction n generalizing org with
  | zero =>
    rw [searchIndexFrom_succ]
    simp only [searchIndexFrom, Except.bind]
    cases t.searchLeafFrom org k <;> rfl
  | succ n ih =>
    rw [searchIndexFrom_succ, searchIndexFrom_succ]
    cases t.searchLeafFrom org k with
    | error _ => rfl
    | ok off => exact ih off

end BPlusTree

/-- A descent through all levels ends at the cell the key is routed to. -/
theorem Tower.descend {t : BPlusTree} {root : Offset} {lower A B : List (Offset × Offset)}
    {bounds U V : List Key} {levels : List (List (Cell Index))}
    (tower : Tower t.file root lower bounds levels) (place : lower = A ++ (x, p) :: B)
    (fences : bounds = U ++ u :: V) (len : U.length = A.length) (asc : Ascending bounds)
    (route : Routes k U u V) : t.searchIndexFrom k levels.length root = .ok x := by
  induction tower generalizing A B U V x p u with
  | top =>
    obtain ⟨rfl, rfl, rfl⟩ : A = [] ∧ x = root ∧ B = [] := by
      cases A <;> simp_all
    rfl
  | @level row lower bounds rest linked listed keyed sized upper ih =>
    subst place fences
    obtain ⟨L, c, R, X, e, Y, rfl, items, child, owner, rfl, rfl, before, here, after⟩ :=
      level_split listed keyed len
    obtain ⟨found, up⟩ := route.level asc items sized.nonempty before here after
      (firstOff R) (lastOff L)
    have reached := ih (ids_append L (c :: R)) (uppers_append L (c :: R)) (by simp)
      ((asc.of_sameInit keyed).uppers sized.nonempty) up
    obtain ⟨_, held, _⟩ := LinkedRow.at_iff.mp linked
    rw [List.length_cons, BPlusTree.searchIndexFrom_last, reached]
    simp only [Except.bind]
    rw [BPlusTree.searchLeafFrom_of_holds held items found, child]

end Fdfs2qq.Bpt
