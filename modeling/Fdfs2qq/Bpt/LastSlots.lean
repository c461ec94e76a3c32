import Fdfs2qq.Bpt.Separators

/-! The last-slot law. The last key of an internal node routes nothing inside
that node, but two merged nodes and a neighbour's slot that moves over turn it
into a separator. Off the rightmost path it has to be the separator after the
node. The levels of a tree keep the law when each level's keys are the last keys
of the level above it. -/
namespace Fdfs2qq.Bpt
open Lib

namespace BPlusTree

/-- Every internal node has the separator after it in its last slot. -/
def LastSlots (t : BPlusTree) : Prop := ∀ d < t.info.height, ∀ p ∈ t.row d, t.LastSlotAt p

instance (t : BPlusTree) : Decidable t.LastSlots :=
  inferInstanceAs (Decidable (∀ d < t.info.height, ∀ p ∈ t.row d, t.LastSlotAt p))

theorem WellFormed.lastSlots {t : BPlusTree} (wf : t.WellFormed) : t.LastSlots := by
  intro d less p mem
  obtain ⟨node, found, -, -, -, last, -⟩ := wf.internal d less p mem
  exact ⟨node, found, last⟩

end BPlusTree

/-- Rows of internal nodes one above the other. Only the children matter: the
parent fields, the links and the keys may be wrong. -/
inductive Stack (f : File) (root : Offset) : List Offset → List (List (Cell Index)) → Prop
  | top : Stack f root [root] []
  | level : (∀ c ∈ row, ∃ next prev, c.Holds f next prev) → (∀ c ∈ row, c.items ≠ []) →
      (kids row).map Prod.fst = lower → Stack f root (offsets row) rest →
      Stack f root lower (row :: rest)

/-- The keys of the lowest level. Above the top there is one free key. -/
def levelKeys : List (List (Cell Index)) → List Key
  | [] => [Key.empty]
  | row :: _ => rowKeys row

/-- On each level the nodes end with the keys of the level above. -/
def Lawful : List (List (Cell Index)) → Prop
  | [] => True
  | row :: rest => SameInit (levelKeys rest) (uppers row) ∧ Lawful rest

/-- The law holds of the levels and gives the row below them these bounds. -/
def LawfulOver (bounds : List Key) (levels : List (List (Cell Index))) : Prop :=
  SameInit (levelKeys levels) bounds ∧ Lawful levels

theorem lawful_cons (row : List (Cell Index)) (rest : List (List (Cell Index))) :
    Lawful (row :: rest) ↔ LawfulOver (uppers row) rest := Iff.rfl

theorem LawfulOver.of_sameInit (lawful : LawfulOver bounds levels) (same : SameInit bounds bounds') :
    LawfulOver bounds' levels := ⟨lawful.1.trans same, lawful.2⟩

theorem lawfulOver_congr (same : SameInit bounds bounds') (levels : List (List (Cell Index))) :
    LawfulOver bounds levels ↔ LawfulOver bounds' levels :=
  ⟨fun lawful => lawful.of_sameInit same, fun lawful => lawful.of_sameInit same.symm⟩

theorem lawfulOver_cons_iff (keyed : SameInit (rowKeys row) bounds) (rest : List (List (Cell Index))) :
    LawfulOver bounds (row :: rest) ↔ LawfulOver (uppers row) rest :=
  ⟨fun lawful => lawful.2, fun lawful => ⟨keyed, lawful⟩⟩

variable {f : File} {root : Offset} {bounds ks : List Key} {levels rest : List (List (Cell Index))}
  {row : List (Cell Index)} {t : BPlusTree}

namespace Tower

variable {lower : List (Offset × Offset)}

theorem stack (tower : Tower f root lower bounds levels) : Stack f root (lower.map Prod.fst) levels := by
  induction tower with
  | top => exact .top
  | @level row lower bounds rest linked listed keyed sized upper ih =>
    refine .level (fun c mem => linked.mem mem) sized.nonempty (congrArg _ listed) ?_
    rw [offsets_eq_ids]
    exact ih

/-- A tower keeps the law. -/
theorem lawfulOver (tower : Tower f root lower bounds levels) (len : bounds.length = lower.length) :
    LawfulOver bounds levels := by
  induction tower with
  | top =>
    obtain ⟨k, rfl⟩ := List.length_eq_one_iff.mp len
    exact ⟨⟨rfl, rfl⟩, trivial⟩
  | level linked listed keyed sized upper ih => exact ⟨keyed, ih (by simp)⟩

end Tower

namespace Stack

variable {lower : List Offset}

theorem length_levelKeys (stack : Stack f root lower levels) :
    (levelKeys levels).length = lower.length := by
  cases stack with
  | top => rfl
  | level held nonempty listed upper =>
    rw [levelKeys, length_rowKeys, ← listed, List.length_map]

end Stack

theorem sameInit_cons_cons {x x' y y' : Key} {xs ys : List Key} :
    SameInit (x :: x' :: xs) (y :: y' :: ys) ↔ x = y ∧ SameInit (x' :: xs) (y' :: ys) := by
  simp only [SameInit, List.length_cons, List.dropLast_cons_cons, List.cons.injEq]
  constructor
  · rintro ⟨len, same, init⟩
    exact ⟨same, by omega, init⟩
  · rintro ⟨same, len, init⟩
    exact ⟨by omega, same, init⟩

theorem Cell.lastSlotAt_iff {c : Cell Index} (held : c.Holds t.file next prev)
    (nonempty : c.items ≠ []) (parent : Offset) (lo hi : Option Key) :
    t.LastSlotAt ⟨c.off, parent, lo, hi⟩ ↔ ∀ h ∈ hi, lastKey c = h := by
  obtain ⟨Z, z, items⟩ := (List.eq_nil_or_concat' c.items).resolve_left nonempty
  rw [BPlusTree.lastSlotAt_iff (show t.map Index (⟨c.off, parent, lo, hi⟩ : Place).off = _ from held.map),
    lastKey_concat items]
  simp [Cell.node, items]

theorem lastSlots_row {named : List (Offset × Offset)} (same : named.map Prod.fst = offsets row)
    (held : ∀ c ∈ row, ∃ next prev, c.Holds t.file next prev) (nonempty : ∀ c ∈ row, c.items ≠ [])
    (len : ks.length = row.length) (lo : Option Key) :
    (∀ p ∈ placesBetween none lo (named.zip ks), t.LastSlotAt p) ↔ SameInit ks (uppers row) := by
  induction row generalizing named ks lo with
  | nil =>
    obtain rfl := List.length_eq_zero_iff.mp len
    simp [placesBetween, SameInit.refl]
  | cons c row ih =>
    obtain ⟨⟨o, parent⟩, named, rfl, rfl, others⟩ := List.map_eq_cons_iff.mp same
    obtain ⟨k, ks, rfl⟩ := List.exists_cons_of_length_pos (show 0 < ks.length by simp [len])
    obtain ⟨next, prev, heldC⟩ := held c (by simp)
    have atC := Cell.lastSlotAt_iff heldC (nonempty c (by simp)) parent lo
    have lens : ks.length = row.length := by simpa using len
    cases row with
    | nil =>
      obtain rfl := List.map_eq_nil_iff.mp others
      obtain rfl := List.length_eq_zero_iff.mp lens
      simp [placesBetween, atC, SameInit]
    | cons d row =>
      have rest := ih others (fun e mem => held e (by simp [mem]))
        (fun e mem => nonempty e (by simp [mem])) lens (some k)
      obtain ⟨⟨o', parent'⟩, named, rfl, -, -⟩ := List.map_eq_cons_iff.mp others
      obtain ⟨k', ks, rfl⟩ := List.exists_cons_of_length_pos (show 0 < ks.length by simp [lens])
      simp only [List.zip_cons_cons, placesBetween, List.forall_mem_cons] at rest ⊢
      rw [uppers_cons, uppers_cons, sameInit_cons_cons, ← uppers_cons, atC, rest]
      simp [eq_comm]

namespace Stack

variable {lower : List Offset}

theorem row_eq (stack : Stack t.file t.info.rootOffset lower levels) (lawful : Lawful levels) :
    ∃ named : List (Offset × Offset), named.map Prod.fst = lower ∧
      t.row levels.length = placesBetween none none (named.zip (levelKeys levels)) := by
  induction stack with
  | top => exact ⟨[(t.info.rootOffset, 0)], rfl, rfl⟩
  | @level row lower rest held nonempty listed upper ih =>
    obtain ⟨named, same, places⟩ := ih lawful.2
    refine ⟨kids row, listed, ?_⟩
    have len : (levelKeys rest).length = named.length := by
      rw [upper.length_levelKeys, ← same, List.length_map]
    show (t.row rest.length).flatMap t.file.childPlaces = _
    rw [places, placesBetween_sameInit lawful.1 len, childPlaces_offs same held nonempty]
    rfl

/-- The law is that each level ends with the keys of the next. -/
theorem lastSlots_iff (stack : Stack t.file t.info.rootOffset lower levels) :
    (∀ d < levels.length, ∀ p ∈ t.row d, t.LastSlotAt p) ↔ Lawful levels := by
  induction stack with
  | top => simp [Lawful]
  | @level row lower rest held nonempty listed upper ih =>
    have split : (∀ d < (row :: rest).length, ∀ p ∈ t.row d, t.LastSlotAt p) ↔
        (∀ d < rest.length, ∀ p ∈ t.row d, t.LastSlotAt p) ∧
          ∀ p ∈ t.row rest.length, t.LastSlotAt p :=
      Nat.forall_lt_succ_right
    rw [split, ih, Lawful, and_comm, and_congr_left_iff]
    intro lawful
    obtain ⟨named, same, places⟩ := upper.row_eq lawful
    rw [places]
    exact lastSlots_row same held nonempty (by rw [upper.length_levelKeys, offsets, List.length_map]) none

end Stack
end Fdfs2qq.Bpt
