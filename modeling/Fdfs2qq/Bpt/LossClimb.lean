import Fdfs2qq.Bpt.MergeProofs

/-! The climb of `remove_from_index` by induction on the levels above. The
prediction is made on the blocks before the call, which the climb has not
touched yet where it looks. -/
namespace Fdfs2qq.Bpt
open Lib

/-- The call for `c` in the state `t`, with the state `t₀` before `remove`. -/
structure Stepping [NodeType α] (t₀ t : BPlusTree) (lower : List (Cell α)) (L : List (Cell Index))
    (c : Cell Index) (R : List (Cell Index)) (X : List Index) (ex ey : Index) (Y : List Index)
    (rest : List (List (Cell Index))) (below : Nat) (lastGone : Bool) (key : Key) : Prop
    extends Losing t lower L c R X ex ey Y rest below where
  end_ : lastGone = true → Y = []
  found : findIndex (c.node (firstOff R) (lastOff L)) key =
    if lastGone then X.length + 1 else X.length
  agree : ∀ o ∈ offsets (L ++ c :: R) ++ levelOffs rest, t₀.file.get o = t.file.get o
  root₀ : t₀.info.rootOffset = t.info.rootOffset
  height₀ : t₀.info.height = t.info.height

/-- The climb with these levels above the cell that loses an entry. -/
def ClimbsThrough (rest : List (List (Cell Index))) : Prop :=
  ∀ {α : Type} [NodeType α] {t₀ t : BPlusTree} {lower : List (Cell α)} {L : List (Cell Index)}
    {c : Cell Index} {R : List (Cell Index)} {X : List Index} {ex ey : Index} {Y : List Index}
    {below : Nat} {lastGone : Bool} {key : Key} {n n' : Nat},
    Stepping t₀ t lower L c R X ex ey Y rest below lastGone key → rest.length ≤ n →
    rest.length ≤ n' →
    Climbed (t.removeFromIndex c.off (c.node (firstOff R) (lastOff L)) key (n + 1))
      (t₀.lossDefects c.off lastGone (n' + 1)) t lower (thinKeys L X ey Y R) ((L ++ c :: R) :: rest)

theorem head_node {c : Cell Index} (items : c.items = f :: K) (next prev : Offset) :
    (c.node next prev).children[0]? = some f := by
  rw [Cell.node, items]
  rfl

theorem Short.weaken [NodeType α] {t : BPlusTree} {lower : List (Cell α)}
    (short : Short t lower L c R K rest below healthy bounds) (only : healthy' → healthy) :
    Short t lower L c R K rest below healthy' bounds :=
  { short with
    keyed := fun ok => short.keyed (only ok)
    lastKept := fun ok => short.lastKept (only ok) }

namespace Stepping

variable [NodeType α] {t₀ t : BPlusTree} {lower : List (Cell α)} {L R : List (Cell Index)}
  {c : Cell Index} {X Y : List Index} {ex ey : Index} {rest rest₂ : List (List (Cell Index))}
  {row₂ : List (Cell Index)} {below : Nat} {lastGone : Bool} {key : Key} {n n' : Nat}

theorem gone (st : Stepping t₀ t lower L c R X ex ey Y rest below lastGone key) :
    deleteEntry c.items (findIndex (c.node (firstOff R) (lastOff L)) key) =
      if lastGone = true ∧ c.items.length = bpOrder then .error .bounds
      else .ok (keptSlots lastGone X ex ey Y) := by
  have atMost := st.sized.atMost c (by simp)
  rw [st.found]
  cases lastGone with
  | false =>
    rw [if_neg (by simp), if_neg (by simp), st.items]
    exact deleteEntry_kept (st.items ▸ atMost)
  | true =>
    obtain rfl := st.end_ rfl
    have split : c.items = (X ++ [ex]) ++ [ey] := by simp [st.items]
    have len : X.length + 1 = (X ++ [ex]).length := by simp
    rw [if_pos rfl, len, split, deleteEntry_last]
    by_cases full : (X ++ [ex]).length + 1 < bpOrder
    · rw [if_pos full, if_neg fun ⟨_, same⟩ => by
        rw [List.length_append, List.length_singleton (a := ey)] at same
        omega]
      rfl
    · rw [if_neg full, if_pos]
      refine ⟨rfl, le_antisymm (split ▸ atMost) ?_⟩
      rw [List.length_append, List.length_singleton (a := ey)]
      omega

theorem held₀ (st : Stepping t₀ t lower L c R X ex ey Y rest below lastGone key) :
    c.Holds t₀.file (firstOff R) (lastOff L) :=
  (LinkedRow.at_iff.mp st.linkedUp).2.1.of_get_eq (st.agree _ (by simp))

theorem root_iff (st : Stepping t₀ t lower L c R X ex ey Y rest below lastGone key) :
    t.info.rootOffset = c.off ↔ rest = [] :=
  st.upper.root_iff (st.placed.right.apart (by simp))

theorem exists_two (st : Stepping t₀ t lower L c R X ex ey Y rest below lastGone key) :
    ∃ f g K, c.items = f :: g :: K := by
  rw [st.items]
  cases X with
  | nil => exact ⟨ex, ey, Y, rfl⟩
  | cons x X =>
    obtain ⟨g, K, eq⟩ := List.exists_cons_of_ne_nil (show X ++ ex :: ey :: Y ≠ [] by simp)
    exact ⟨x, g, K, by rw [List.cons_append, eq]⟩

theorem healthy (st : Stepping t₀ t lower L c R X ex ey Y rest below lastGone key)
    (clean : staleAt lastGone (firstOff R) = []) : ¬ (lastGone = true ∧ R ≠ []) := by
  rintro ⟨rfl, filled⟩
  obtain ⟨d, R', rfl⟩ := List.exists_cons_of_ne_nil filled
  have nonzero : d.off ≠ 0 := fun zero => st.placed.positive (by simp [zero])
  simp [staleAt, firstAddr, nonzero] at clean

theorem short (st : Stepping t₀ t lower L c R X ex ey Y rest below lastGone key) :
    Short t lower L c R (keptSlots lastGone X ex ey Y) rest below
      (staleAt lastGone (firstOff R) = []) (thinKeys L X ey Y R) :=
  (st.toLosing.short st.end_).weaken st.healthy

theorem least (st : Stepping t₀ t lower L c R X ex ey Y rest below lastGone key) :
    (if t.info.rootOffset = c.off then 1 else t.info.order / 2) =
      if rest = [] then 1 else bpOrder / 2 := by
  simp only [st.root_iff, st.order]

theorem enough (st : Stepping t₀ t lower L c R X ex ey Y rest below lastGone key) :
    (if rest = [] then 1 else bpOrder / 2) ≤ c.items.length := by
  split
  · exact List.length_pos_iff.mpr (st.sized.nonempty c (by simp))
  · exact st.sized.atLeast ‹_› c (by simp)

theorem atMost (st : Stepping t₀ t lower L c R X ex ey Y rest below lastGone key) :
    c.items.length ≤ t.info.order := by
  rw [st.order]
  exact st.sized.atMost c (by simp)

theorem overrun (st : Stepping t₀ t lower L c R X ex ey Y rest below lastGone key)
    (full : lastGone = true ∧ c.items.length = bpOrder) :
    Climbed (t.removeFromIndex c.off (c.node (firstOff R) (lastOff L)) key (n + 1))
      (t₀.lossDefects c.off lastGone (n' + 1)) t lower (thinKeys L X ey Y R)
      ((L ++ c :: R) :: rest) := by
  obtain ⟨f, g, K, items⟩ := st.exists_two
  have head := head_node items (firstOff R) (lastOff L)
  have gone := st.gone
  rw [if_pos full] at gone
  obtain ⟨rfl, atCap⟩ := full
  rw [BPlusTree.lossDefects_full st.held₀ atCap]
  refine ⟨fun _ => ?_, fun clean => absurd (by simp) clean⟩
  exact BPlusTree.removeFromIndex_fault st.least st.enough st.atMost head gone

theorem gone_ok (st : Stepping t₀ t lower L c R X ex ey Y rest below lastGone key)
    (room : ¬ (lastGone = true ∧ c.items.length = bpOrder)) :
    deleteEntry (c.node (firstOff R) (lastOff L)).children
        (findIndex (c.node (firstOff R) (lastOff L)) key) = .ok (keptSlots lastGone X ex ey Y) :=
  st.gone.trans (if_neg room)

theorem overrun_notMem_stale : .overrun ∉ staleAt lastGone next := by
  unfold staleAt
  split <;> simp

theorem run_shrink (st : Stepping t₀ t lower L c R X ex ey Y [] below lastGone key)
    (room : ¬ (lastGone = true ∧ c.items.length = bpOrder))
    (shrink : c.items.length = 2 ∧ t.info.height ≠ 1) :
    ∃ only, keptSlots lastGone X ex ey Y = [only] ∧
      t.removeFromIndex c.off (c.node (firstOff R) (lastOff L)) key (n + 1) =
        .ok (BPlusTree.unmapMeta { t.unalloc Index with
          info := { (t.unalloc Index).info with
            height := t.info.height - 1, rootOffset := only.child } }) := by
  have len := st.short.len
  obtain ⟨only, single⟩ := List.length_eq_one_iff.mp
    (show (keptSlots lastGone X ex ey Y).length = 1 by omega)
  obtain ⟨f, g, K, items⟩ := st.exists_two
  have head := head_node items (firstOff R) (lastOff L)
  have num : t.info.internalNodeNum ≠ 1 := by
    obtain ⟨rfl, rfl⟩ := st.upper.single
    have count := st.count
    have deep := st.deep.mpr
    simp only [List.nil_append, List.length_singleton, countNodes_nil, and_true] at count deep
    exact fun one => shrink.2 (deep (by omega))
  have gone := st.gone_ok room
  rw [single] at gone
  exact ⟨only, single, BPlusTree.removeFromIndex_shrink st.least st.enough st.atMost head gone
    ⟨st.root_iff.mpr rfl, num⟩⟩

theorem defects_root (st : Stepping t₀ t lower L c R X ex ey Y [] below lastGone key)
    (room : ¬ (lastGone = true ∧ c.items.length = bpOrder)) :
    t₀.lossDefects c.off lastGone (n' + 1) =
      if c.items.length = 2 ∧ t.info.height ≠ 1 then [.staleRootParent] else [] := by
  obtain ⟨rfl, rfl⟩ := st.upper.single
  have noStale : staleAt lastGone (firstOff ([] : List (Cell Index))) = [] := by
    simp [staleAt, firstAddr]
  rw [BPlusTree.lossDefects_root st.held₀ room ((st.root_iff.mpr rfl).symm.trans st.root₀.symm), noStale,
    List.nil_append, st.height₀]

theorem atRoot (st : Stepping t₀ t lower L c R X ex ey Y [] below lastGone key)
    (room : ¬ (lastGone = true ∧ c.items.length = bpOrder)) :
    Climbed (t.removeFromIndex c.off (c.node (firstOff R) (lastOff L)) key (n + 1))
      (t₀.lossDefects c.off lastGone (n' + 1)) t lower (thinKeys L X ey Y R) [L ++ c :: R] := by
  rw [st.defects_root room]
  by_cases shrink : c.items.length = 2 ∧ t.info.height ≠ 1
  · rw [if_pos shrink]
    obtain ⟨only, single, ok⟩ := st.run_shrink (n := n) room shrink
    exact Climbed.of_ok (by simp) ok
      ⟨linked_frame (fun _ _ => rfl) st.linked, rfl, rfl, rfl, rfl, rfl, fun _ _ => rfl⟩ (by simp)
  · rw [if_neg shrink]
    obtain ⟨f, g, K, items⟩ := st.exists_two
    have head := head_node items (firstOff R) (lastOff L)
    have short := st.short
    have len := short.len
    have two := short.two
    obtain ⟨rfl, rfl⟩ := st.upper.single
    have stays : ¬ ((keptSlots lastGone X ex ey Y).length = 1 ∧ t.info.rootOffset = c.off ∧
        t.info.internalNodeNum ≠ 1) := by
      rintro ⟨one, _, other⟩
      have count := st.count
      have deep := st.deep.mp
      simp only [List.nil_append, List.length_singleton, countNodes_nil, and_true] at count deep
      exact shrink ⟨by omega, fun high => other (by rw [count, deep high])⟩
    have ok := BPlusTree.removeFromIndex_done (n := n) st.least st.enough st.atMost head
      (st.gone_ok room) stays (by rw [if_pos rfl]; omega)
    obtain ⟨kept, thin⟩ := short.done (by simp)
    exact Climbed.of_ok (by simp) ok kept fun _ => thin (by simp [staleAt, firstAddr])

theorem run_enough (st : Stepping t₀ t lower L c R X ex ey Y (row₂ :: rest₂) below lastGone key)
    (room : ¬ (lastGone = true ∧ c.items.length = bpOrder)) (enough : bpOrder / 2 < c.items.length) :
    t.removeFromIndex c.off (c.node (firstOff R) (lastOff L)) key (n + 1) = .ok (t.unmap
      ((⟨c.off, c.parent, keptSlots lastGone X ex ey Y⟩ : Cell Index).node (firstOff R) (lastOff L))
      c.off) := by
  obtain ⟨f, g, K, items⟩ := st.exists_two
  have head := head_node items (firstOff R) (lastOff L)
  have inner : t.info.rootOffset ≠ c.off := fun root => by simpa using st.root_iff.mp root
  have len := st.short.len
  have ok := BPlusTree.removeFromIndex_done (n := n) st.least st.enough st.atMost head
    (st.gone_ok room) (fun ⟨_, root, _⟩ => inner root) (by rw [if_neg (by simp)]; omega)
  exact ok

theorem defects_enough (st : Stepping t₀ t lower L c R X ex ey Y (row₂ :: rest₂) below lastGone key)
    (room : ¬ (lastGone = true ∧ c.items.length = bpOrder)) (enough : bpOrder / 2 < c.items.length)
    (n : Nat) : t₀.lossDefects c.off lastGone (n + 1) = staleAt lastGone (firstOff R) := by
  have inner : t.info.rootOffset ≠ c.off := fun root => by simpa using st.root_iff.mp root
  exact BPlusTree.lossDefects_enough st.held₀ room (st.root₀ ▸ inner.symm) enough n

theorem atInner_enough (st : Stepping t₀ t lower L c R X ex ey Y (row₂ :: rest₂) below lastGone key)
    (room : ¬ (lastGone = true ∧ c.items.length = bpOrder)) (enough : bpOrder / 2 < c.items.length) :
    Climbed (t.removeFromIndex c.off (c.node (firstOff R) (lastOff L)) key (n + 1))
      (t₀.lossDefects c.off lastGone (n' + 1)) t lower (thinKeys L X ey Y R)
      ((L ++ c :: R) :: row₂ :: rest₂) := by
  have ok := st.run_enough (n := n) room enough
  have short := st.short
  have len := short.len
  rw [st.defects_enough room enough]
  obtain ⟨kept, thin⟩ := short.done fun _ => by omega
  exact Climbed.of_ok overrun_notMem_stale ok kept thin

variable {L₂ R₂ : List (Cell Index)} {p : Cell Index} {X₂ Y₂ : List Index} {e₂ : Index}

abbrev inMemory (c : Cell Index) (K : List Index) (L R : List (Cell Index)) : Node Index :=
  (⟨c.off, c.parent, K⟩ : Cell Index).node (firstOff R) (lastOff L)

theorem parent_held
    (st : Stepping t₀ t lower L c R X ex ey Y ((L₂ ++ p :: R₂) :: rest₂) below lastGone key) :
    p.Holds t.file (firstOff R₂) (lastOff L₂) :=
  (LinkedRow.at_iff.mp st.upper.level_inv.1).2.1

theorem parent_held₀
    (st : Stepping t₀ t lower L c R X ex ey Y ((L₂ ++ p :: R₂) :: rest₂) below lastGone key) :
    p.Holds t₀.file (firstOff R₂) (lastOff L₂) :=
  st.parent_held.of_get_eq (st.agree _ (by simp))

theorem inner (st : Stepping t₀ t lower L c R X ex ey Y (row₂ :: rest₂) below lastGone key) :
    t.info.rootOffset ≠ c.off := fun root => by simpa using st.root_iff.mp root

theorem first_last
    (st : Stepping t₀ t lower L c R X ex ey Y ((L₂ ++ p :: R₂) :: rest₂) below lastGone key)
    (at_ : Listed L c R L₂ p R₂ X₂ e₂ Y₂) :
    ∃ front back, p.items[0]? = some front ∧ p.items.getLast? = some back ∧
      (c.off = front.child ↔ X₂ = []) ∧ (c.off = back.child ↔ Y₂ = []) := by
  obtain ⟨front, front_, isFirst⟩ := at_.first st.placed.right.left.distinct
  obtain ⟨back, back_, isLast⟩ := at_.last st.placed.right.left.distinct
  exact ⟨front, back, front_, back_, isFirst, isLast⟩

/-- What `removeFromIndex` reads of the parent before it looks for a lender. -/
theorem parent_slots
    (st : Stepping t₀ t lower L c R X ex ey Y ((L₂ ++ p :: R₂) :: rest₂) below lastGone key)
    (at_ : Listed L c R L₂ p R₂ X₂ e₂ Y₂) :
    ∃ front back, t.map Index c.parent = .ok (p.node (firstOff R₂) (lastOff L₂)) ∧
      slotAt p.items 0 = .ok front ∧ slotAt p.items (p.items.length - 1) = .ok back ∧
      (c.off = front.child ↔ X₂ = []) ∧ (c.off = back.child ↔ Y₂ = []) := by
  obtain ⟨front, back, front_, back_, isFirst, isLast⟩ := st.first_last at_
  rw [List.getLast?_eq_getElem?] at back_
  exact ⟨front, back, at_.owner ▸ st.parent_held.map, slotAt_of_getElem? front_,
    slotAt_of_getElem? back_, isFirst, isLast⟩

theorem enough_short
    (st : Stepping t₀ t lower L c R X ex ey Y ((L₂ ++ p :: R₂) :: rest₂) below lastGone key)
    (minimal : c.items.length = bpOrder / 2) : t.info.order / 2 ≤ c.items.length ∧
      (keptSlots lastGone X ex ey Y).length < t.info.order / 2 := by
  have len := st.short.len
  rw [st.order]
  exact ⟨minimal.ge, by omega⟩

theorem run_borrowed
    (st : Stepping t₀ t lower L c R X ex ey Y ((L₂ ++ p :: R₂) :: rest₂) below lastGone key)
    (at_ : Listed L c R L₂ p R₂ X₂ e₂ Y₂)
    (room : ¬ (lastGone = true ∧ c.items.length = bpOrder)) (minimal : c.items.length = bpOrder / 2)
    (borrowed : ∀ front back : Offset, (c.off = front ↔ X₂ = []) → (c.off = back ↔ Y₂ = []) →
      t.borrowFromSiblings (inMemory c (keptSlots lastGone X ex ey Y) L R) c.off front back =
        .ok (true, t', node')) :
    t.removeFromIndex c.off (c.node (firstOff R) (lastOff L)) key (n + 1) =
      .ok (t'.unmap node' c.off) := by
  obtain ⟨f, g, K, items⟩ := st.exists_two
  obtain ⟨front, back, read, front_, back_, isFirst, isLast⟩ := st.parent_slots at_
  obtain ⟨enough, short⟩ := st.enough_short minimal
  have head := head_node items (firstOff R) (lastOff L)
  exact BPlusTree.removeFromIndex_borrowed enough st.atMost head (st.gone_ok room) st.inner short read
    front_ back_ (borrowed _ _ isFirst isLast)

theorem run_merged
    (st : Stepping t₀ t lower L c R X ex ey Y ((L₂ ++ p :: R₂) :: rest₂) below lastGone key)
    (at_ : Listed L c R L₂ p R₂ X₂ e₂ Y₂)
    (room : ¬ (lastGone = true ∧ c.items.length = bpOrder)) (minimal : c.items.length = bpOrder / 2)
    (merged : ∀ front back : Offset, (c.off = front ↔ X₂ = []) → (c.off = back ↔ Y₂ = []) →
      t.borrowFromSiblings (inMemory c (keptSlots lastGone X ex ey Y) L R) c.off front back =
        .ok (false, t, inMemory c (keptSlots lastGone X ex ey Y) L R) ∧
      t.mergeIndex (inMemory c (keptSlots lastGone X ex ey Y) L R) c.off back = .ok t') :
    ∃ first, (∀ next prev, findIndex (p.node next prev) first = X₂.length) ∧
      t.removeFromIndex c.off (c.node (firstOff R) (lastOff L)) key (n + 1) =
        t'.removeFromIndex p.off (p.node (firstOff R₂) (lastOff L₂)) first n := by
  obtain ⟨f, g, K, items⟩ := st.exists_two
  obtain ⟨front, back, read, front_, back_, isFirst, isLast⟩ := st.parent_slots at_
  obtain ⟨enough, short⟩ := st.enough_short minimal
  obtain ⟨_, _, _, sized₂, _⟩ := st.upper.level_inv
  obtain ⟨kept, moved⟩ := merged _ _ isFirst isLast
  refine ⟨f.key, at_.findIndex_first st.ascending items st.sized.nonempty sized₂.nonempty, ?_⟩
  rw [at_.owner]
  have head := head_node items (firstOff R) (lastOff L)
  exact BPlusTree.removeFromIndex_merged enough st.atMost head (st.gone_ok room) st.inner short read
    front_ back_ kept moved

theorem defects_minimal
    (st : Stepping t₀ t lower L c R X ex ey Y ((L₂ ++ p :: R₂) :: rest₂) below lastGone key)
    (at_ : Listed L c R L₂ p R₂ X₂ e₂ Y₂)
    (room : ¬ (lastGone = true ∧ c.items.length = bpOrder)) (minimal : c.items.length = bpOrder / 2)
    (n : Nat) :
    t₀.lossDefects c.off lastGone (n + 1) = staleAt lastGone (firstOff R) ++
      if X₂ ≠ [] ∧ bpOrder / 2 < t₀.slotCount Index (lastOff L) then [.lostSeparator]
      else if Y₂ ≠ [] ∧ bpOrder / 2 < t₀.slotCount Index (firstOff R) then []
      else t₀.lossDefects p.off (Y₂ = []) n := by
  obtain ⟨front, back, front_, back_, isFirst, isLast⟩ := st.first_last at_
  have inner : c.off ≠ t₀.info.rootOffset := st.root₀ ▸ st.inner.symm
  rw [BPlusTree.lossDefects_inner st.held₀ room inner (by omega) st.parent_held₀ at_.owner front_
    back_]
  simp only [ne_eq, isFirst, isLast]

end Stepping

section Merge

variable [NodeType α] {t₀ t t' : BPlusTree} {lower lower' : List (Cell α)}
  {P Q L₂ R₂ : List (Cell Index)} {a b p : Cell Index} {X Y K : List Index} {ea eb : Index}
  {rest₂ : List (List (Cell Index))} {below n n' : Nat} {stale : List Defect} {bounds : List Key}

/-- If the merge leaves a single cell, the root is about to be dropped. -/
theorem several_of_noDefects (pair : Siblings P a b Q L₂ p R₂ X ea eb Y)
    (sized₂ : Sized (rest₂ = []) (L₂ ++ p :: R₂)) (held₀ : p.Holds t₀.file next prev)
    (root : rest₂ = [] → p.off = t₀.info.rootOffset) (tall : t₀.info.height ≠ 1)
    (clean : t₀.lossDefects p.off lastGone (n + 1) = []) : P ≠ [] ∨ Q ≠ [] := by
  by_contra alone
  rw [not_or, not_ne_iff, not_ne_iff] at alone
  obtain ⟨rfl, rfl⟩ := alone
  have before := congrArg List.length pair.before
  have after := congrArg List.length pair.after
  simp only [ids_nil, List.length_nil, List.length_append, length_slotKids] at before after
  obtain rfl := List.length_eq_zero_iff.mp (show X.length = 0 by omega)
  obtain rfl := List.length_eq_zero_iff.mp (show Y.length = 0 by omega)
  have two : p.items.length = 2 := by rw [pair.items]; rfl
  by_cases top : rest₂ = []
  · rw [BPlusTree.lossDefects_root held₀ (by simp [two, bpOrder]) (root top), two] at clean
    simp [tall] at clean
  · have := sized₂.atLeast top p (by simp)
    rw [two] at this
    simp [bpOrder] at this

/-- `a` took over the slots of `b`, which left the row. Its slots are now `M`. -/
structure Merging (t t' : BPlusTree) (lower lower' : List (Cell α)) (P : List (Cell Index))
    (a b : Cell Index) (Q : List (Cell Index)) (M : List Index) : Prop where
  size : bpOrder / 2 ≤ M.length
  room : M.length ≤ bpOrder
  info : t'.info = (t.unalloc Index).info
  row : LinkedRow t'.file lower'
  same : bodies lower' = bodies lower
  listed : ids lower' = kids (P ++ ⟨a.off, a.parent, M⟩ :: Q)
  linked : LinkedRow t'.file (P ++ ⟨a.off, a.parent, M⟩ :: Q)
  frame : ∀ o ∉ offsets lower ++ offsets (P ++ a :: b :: Q), t'.file.get o = t.file.get o

theorem Merging.sized {M : List Index} (merging : Merging t t' lower lower' P a b Q M)
    (sized : Sized top (P ++ a :: b :: Q)) (low : ¬ top) (several : ¬ top' → P ≠ [] ∨ Q ≠ []) :
    Sized top' (P ++ ⟨a.off, a.parent, M⟩ :: Q) := by
  have others : ∀ d ∈ P ++ ⟨a.off, a.parent, M⟩ :: Q, d = ⟨a.off, a.parent, M⟩ ∨ d ∈ P ++ a :: b :: Q := by
    intro d mem
    simp only [List.mem_append, List.mem_cons] at mem ⊢
    tauto
  have size := merging.size
  refine ⟨fun d mem => ?_, fun d mem => ?_, fun _ d mem => ?_, fun inner => ?_⟩
  · rcases others d mem with rfl | mem
    · rintro rfl
      simp [bpOrder] at size
    · exact sized.nonempty d mem
  · rcases others d mem with rfl | mem
    · exact merging.room
    · exact sized.atMost d mem
  · rcases others d mem with rfl | mem
    · exact size
    · exact sized.atLeast low d mem
  · simp only [List.length_append, List.length_cons]
    rcases several inner with filled | filled
    · have := List.length_pos_iff.mpr filled
      omega
    · have := List.length_pos_iff.mpr filled
      omega

end Merge

namespace Stepping

variable [NodeType α] {t₀ t : BPlusTree} {lower : List (Cell α)} {L R L₂ R₂ : List (Cell Index)}
  {c p : Cell Index} {X Y X₂ Y₂ K : List Index} {ex ey e₂ : Index}
  {rest₂ : List (List (Cell Index))} {below : Nat} {lastGone : Bool} {key : Key} {n n' : Nat}

theorem left_neighbour
    (st : Stepping t₀ t lower L c R X ex ey Y ((L₂ ++ p :: R₂) :: rest₂) below lastGone key)
    (at_ : Listed L c R L₂ p R₂ X₂ e₂ Y₂) (K : List Index) :
    (∃ L' d X' f, L = L' ++ [d] ∧ Listed L' d (c :: R) L₂ p R₂ X' f (e₂ :: Y₂) ∧
        bpOrder / 2 < d.items.length ∧ X₂ ≠ [] ∧ bpOrder / 2 < t₀.slotCount Index (lastOff L)) ∨
      (¬ (X₂ ≠ [] ∧ bpOrder / 2 < t₀.slotCount Index (lastOff L)) ∧
        (X₂ = [] ∨ t.borrowIndex false (inMemory c K L R) c.off =
          .ok (false, t, inMemory c K L R)) ∧
        ∀ L' d, L = L' ++ [d] → X₂ ≠ [] → d.items.length = bpOrder / 2) := by
  by_cases first : X₂ = []
  · exact Or.inr ⟨by simp [first], Or.inl first, fun _ _ _ filled => absurd first filled⟩
  obtain ⟨L', d, X', f, rfl, rfl, before⟩ := at_.left first
  have row : (L' ++ [d]) ++ c :: R = L' ++ d :: c :: R := by simp
  have held := (LinkedRow.at_iff.mp (row ▸ st.linkedUp)).2.1
  have held₀ := held.of_get_eq (st.agree d.off (by simp))
  have half : bpOrder / 2 ≤ d.items.length := st.sized.atLeast (by simp) d (by simp)
  have count : t₀.slotCount Index (lastOff (L' ++ [d])) = d.items.length := by
    rw [lastOff_concat]
    exact BPlusTree.slotCount_of_holds held₀
  rcases half.lt_or_eq with more | minimal
  · exact Or.inl ⟨L', d, X', f, rfl, before, more, by simp, count ▸ more⟩
  · refine Or.inr ⟨by rw [count]; omega, Or.inr ?_, ?_⟩
    · have lender : (if false = true then (inMemory c K (L' ++ [d]) R).next
        else (inMemory c K (L' ++ [d]) R).prev) = d.off := lastOff_concat L' d
      exact BPlusTree.borrowIndex_none held lender st.order minimal.symm c.off
    · intro L'' d' same _
      obtain ⟨_, rfl⟩ := List.append_inj' same rfl |>.imp id List.singleton_inj.mp
      exact minimal.symm

theorem right_neighbour
    (st : Stepping t₀ t lower L c R X ex ey Y ((L₂ ++ p :: R₂) :: rest₂) below lastGone key)
    (at_ : Listed L c R L₂ p R₂ X₂ e₂ Y₂) (K : List Index) :
    (∃ d R', R = d :: R' ∧ bpOrder / 2 < d.items.length ∧
        Y₂ ≠ [] ∧ bpOrder / 2 < t₀.slotCount Index (firstOff R)) ∨
      (¬ (Y₂ ≠ [] ∧ bpOrder / 2 < t₀.slotCount Index (firstOff R)) ∧
        (Y₂ = [] ∨ t.borrowIndex true (inMemory c K L R) c.off =
          .ok (false, t, inMemory c K L R)) ∧
        ∀ d R', R = d :: R' → Y₂ ≠ [] → d.items.length = bpOrder / 2) := by
  by_cases last : Y₂ = []
  · exact Or.inr ⟨by simp [last], Or.inl last, fun _ _ _ filled => absurd last filled⟩
  obtain ⟨d, R', g, Y', rfl, rfl, child, family, _⟩ := at_.right last
  have held := (LinkedRow.at_iff.mp st.linkedUp).2.2.1
  have held₀ := Cell.Holds.of_get_eq held (st.agree d.off (by simp))
  have half : bpOrder / 2 ≤ d.items.length := st.sized.atLeast (by simp) d (by simp)
  have count : t₀.slotCount Index (firstOff (d :: R')) = d.items.length :=
    BPlusTree.slotCount_of_holds held₀
  rcases half.lt_or_eq with more | minimal
  · exact Or.inl ⟨d, R', rfl, more, by simp, count ▸ more⟩
  · refine Or.inr ⟨by rw [count]; omega, Or.inr ?_, ?_⟩
    · have lender : (if true = true then (inMemory c K L (d :: R')).next
        else (inMemory c K L (d :: R')).prev) = d.off := rfl
      exact BPlusTree.borrowIndex_none held lender st.order minimal.symm c.off
    · rintro d' R'' ⟨⟩ _
      exact minimal.symm

theorem not_alone
    (st : Stepping t₀ t lower L c R X ex ey Y ((L₂ ++ p :: R₂) :: rest₂) below lastGone key)
    (at_ : Listed L c R L₂ p R₂ X₂ e₂ Y₂) (last : Y₂ = []) : X₂ ≠ [] := by
  subst last
  rintro rfl
  obtain ⟨_, _, _, sized₂, upper₂⟩ := st.upper.level_inv
  have several := st.sized.several (by simp)
  by_cases top : rest₂ = []
  · subst top
    obtain ⟨rfl, rfl⟩ := upper₂.single
    have before := congrArg List.length at_.before
    have after := congrArg List.length at_.after
    simp only [length_ids, kids_nil, slotKids_nil, List.append_nil, List.length_nil] at before after
    simp only [List.length_append, List.length_cons] at several
    omega
  · have := sized₂.atLeast top p (by simp)
    rw [at_.items] at this
    simp [bpOrder] at this

theorem passed {P Q : List (Cell Index)} {a b : Cell Index} {ea eb : Index} {M : List Index}
    (st : Stepping t₀ t lower L c R X ex ey Y ((L₂ ++ p :: R₂) :: rest₂) below lastGone key)
    (split : L ++ c :: R = P ++ a :: b :: Q) (pair : Siblings P a b Q L₂ p R₂ X₂ ea eb Y₂)
    (merging : Merging t t' lower lower' P a b Q M) (end_ : lastGone₂ = true → Y₂ = [])
    (found : ∀ next prev, findIndex (p.node next prev) first =
      if lastGone₂ then X₂.length + 1 else X₂.length) :
    Stepping t₀ t' (P ++ ⟨a.off, a.parent, M⟩ :: Q) L₂ p R₂ X₂ ea eb Y₂ rest₂
      (below + (P.length + 1 + Q.length)) lastGone₂ first := by
  have placed := split ▸ st.placed
  have tall : t.info.height ≠ 1 := fun one => by simpa using (st.deep.mp one).2
  have frameUp : ∀ o ∈ levelOffs ((L₂ ++ p :: R₂) :: rest₂), t'.file.get o = t.file.get o := by
    intro o mem
    apply merging.frame o
    intro inside
    rcases List.mem_append.mp inside with inLow | inRow
    · exact placed.apart inLow (List.mem_append_right _ mem)
    · exact placed.right.apart inRow mem
  have losing := pair.losing merging.info merging.linked (split ▸ st.upper)
    (split ▸ st.ascending.uppers st.sized.nonempty) placed.right st.order (split ▸ st.count) tall frameUp
  refine ⟨losing, end_, found _ _, fun o mem => ?_, ?_, ?_⟩
  · rw [frameUp o mem]
    exact st.agree o (List.mem_append_right _ mem)
  · rw [st.root₀, merging.info]; rfl
  · rw [st.height₀, merging.info]; rfl

/-- An inner node at the minimum whose neighbours cannot lend is merged with one
of them, and the climb goes on in the parent. -/
theorem merge
    (st : Stepping t₀ t lower L c R X ex ey Y ((L₂ ++ p :: R₂) :: rest₂) below lastGone key)
    (at_ : Listed L c R L₂ p R₂ X₂ e₂ Y₂)
    (room : ¬ (lastGone = true ∧ c.items.length = bpOrder)) (minimal : c.items.length = bpOrder / 2)
    (K_eq : K = keptSlots lastGone X ex ey Y)
    (left : X₂ = [] ∨ t.borrowIndex false (inMemory c K L R) c.off = .ok (false, t, inMemory c K L R))
    (minL : ∀ L' d, L = L' ++ [d] → X₂ ≠ [] → d.items.length = bpOrder / 2)
    (right : Y₂ = [] ∨ t.borrowIndex true (inMemory c K L R) c.off = .ok (false, t, inMemory c K L R))
    (minR : ∀ d R', R = d :: R' → Y₂ ≠ [] → d.items.length = bpOrder / 2) :
    ∃ P a b Q X' ea eb Y' M t' lower' first, L ++ c :: R = P ++ a :: b :: Q ∧
      Siblings P a b Q L₂ p R₂ X' ea eb Y' ∧ Merging t t' lower lower' P a b Q M ∧
      rowKeys (P ++ ⟨a.off, a.parent, M⟩ :: Q) = rowKeys L ++ (K.map Index.key ++ rowKeys R) ∧
      (staleAt lastGone (firstOff R) = [] → Q ≠ [] → lastKey ⟨a.off, a.parent, M⟩ = lastKey b) ∧
      Stepping t₀ t' (P ++ ⟨a.off, a.parent, M⟩ :: Q) L₂ p R₂ X' ea eb Y' rest₂
        (below + (P.length + 1 + Q.length)) (Y₂ = []) first ∧
      t.removeFromIndex c.off (c.node (firstOff R) (lastOff L)) key (n + 1) =
        t'.removeFromIndex p.off (p.node (firstOff R₂) (lastOff L₂)) first n := by
  have short := K_eq ▸ st.short
  have lenK := short.len
  have leftNo : ∀ front : Offset, (c.off = front ↔ X₂ = []) → c.off = front ∨
      t.borrowIndex false (inMemory c K L R) c.off = .ok (false, t, inMemory c K L R) :=
    fun front isFirst => left.imp isFirst.mpr id
  have rightNo : ∀ back : Offset, (c.off = back ↔ Y₂ = []) → c.off = back ∨
      t.borrowIndex true (inMemory c K L R) c.off = .ok (false, t, inMemory c K L R) :=
    fun back isLast => right.imp isLast.mpr id
  by_cases last : Y₂ = []
  · -- merge with the left neighbour; the parent loses its last entry
    obtain ⟨L', d, X', f, rfl, rfl, pair⟩ := at_.siblings_left (st.not_alone at_ last)
    have minD := minL L' d rfl (by simp)
    have shape : (L' ++ [d]) ++ c :: R = L' ++ d :: c :: R := by simp
    have placed := st.placed
    have linkedUp := st.linkedUp
    rw [shape] at placed linkedUp
    obtain ⟨_, heldD, _⟩ := LinkedRow.at_iff.mp linkedUp
    obtain ⟨t₁, t₂, t', lower', reset, merged, written, info, row, same, listed, linked, frame⟩ :=
      BPlusTree.mergeKeys_rows (L := L') (c := d) (d := c) (R := R) (K := d.items) (J := K) short.linked
        linkedUp (by rw [short.listed]; simp) (placed.sublist (by simp)) (by omega)
    have filled : K ≠ [] := fun empty => by simp [empty, minimal, bpOrder] at lenK
    have memory : inMemory c K (L' ++ [d]) R =
        (⟨c.off, c.parent, K⟩ : Cell Index).node (firstOff R) d.off := by rw [inMemory, lastOff_concat]
    have nonzero : d.off ≠ 0 := fun zero => placed.right.positive (by simp [zero])
    have moved : ∀ front back : Offset, (c.off = front ↔ X' ++ [f] = []) → (c.off = back ↔ Y₂ = []) →
        t.borrowFromSiblings (inMemory c K (L' ++ [d]) R) c.off front back =
          .ok (false, t, inMemory c K (L' ++ [d]) R) ∧
        t.mergeIndex (inMemory c K (L' ++ [d]) R) c.off back = .ok t' := by
      intro front back isFirst isLast
      refine ⟨BPlusTree.borrowFromSiblings_none (leftNo front isFirst) (rightNo back isLast), ?_⟩
      rw [memory, ← written]
      exact BPlusTree.mergeIndex_left heldD nonzero (isLast.mpr last) reset merged
    rw [K_eq] at moved
    obtain ⟨first, place, ran⟩ := st.run_merged (n := n) at_ room minimal moved
    have merging : Merging t t' lower lower' L' d c R (d.items ++ K) :=
      ⟨by rw [List.length_append]; omega, by rw [List.length_append, minD]; omega, info, row, same,
        by rw [listed]; simp, linked, frame⟩
    refine ⟨L', d, c, R, X', f, e₂, Y₂, d.items ++ K, t', lower', first, shape, pair, merging, by simp,
      fun vacant occupied => ?_, st.passed shape pair merging (by simp)
        (fun next prev => by rw [place]; simp [last]), ran⟩
    obtain ⟨K₀, z, split⟩ := (List.eq_nil_or_concat' K).resolve_left filled
    rw [← short.lastKept vacant occupied, lastKey_concat (c := ⟨c.off, c.parent, K⟩) split,
      lastKey_concat (c := ⟨d.off, d.parent, d.items ++ K⟩) (Z := d.items ++ K₀) (z := z)
        (by simp [split])]
  · -- merge with the right neighbour
    obtain ⟨d, R', g, Y', rfl, rfl, pair⟩ := at_.siblings_right last
    have minD := minR d R' rfl (by simp)
    have heldD := (LinkedRow.at_iff.mp st.linkedUp).2.2.1
    obtain ⟨t₁, t₂, t', lower', reset, merged, written, info, row, same, listed, linked, frame⟩ :=
      BPlusTree.mergeKeys_rows (L := L) (c := c) (d := d) (R := R') (K := K) (J := d.items) short.linked
        st.linkedUp (by rw [short.listed]; simp) (st.placed.sublist (by simp)) (by omega)
    have filled : d.items ≠ [] := st.sized.nonempty d (by simp)
    have nonzero : d.off ≠ 0 := fun zero => st.placed.positive (by simp [zero])
    have moved : ∀ front back : Offset, (c.off = front ↔ X₂ = []) → (c.off = back ↔ g :: Y' = []) →
        t.borrowFromSiblings (inMemory c K L (d :: R')) c.off front back =
          .ok (false, t, inMemory c K L (d :: R')) ∧
        t.mergeIndex (inMemory c K L (d :: R')) c.off back = .ok t' := by
      intro front back isFirst isLast
      refine ⟨BPlusTree.borrowFromSiblings_none (leftNo front isFirst) (rightNo back isLast), ?_⟩
      rw [← written]
      exact BPlusTree.mergeIndex_right heldD nonzero (fun same => last (isLast.mp same)) reset merged
    rw [K_eq] at moved
    obtain ⟨first, place, ran⟩ := st.run_merged (n := n) at_ room minimal moved
    have merging : Merging t t' lower lower' L c d R' (K ++ d.items) :=
      ⟨by rw [List.length_append]; omega, by rw [List.length_append, minD]; omega, info, row, same,
        by rw [listed]; simp, linked, frame⟩
    refine ⟨L, c, d, R', X₂, e₂, g, Y', K ++ d.items, t', lower', first, rfl, pair, merging, by simp,
      fun _ _ => ?_, st.passed rfl pair merging (by simp) (fun next prev => by rw [place]; simp), ran⟩
    obtain ⟨K₀, z, eq⟩ := (List.eq_nil_or_concat' d.items).resolve_left filled
    rw [lastKey_concat (c := d) eq,
      lastKey_concat (c := ⟨c.off, c.parent, K ++ d.items⟩) (Z := K ++ K₀) (z := z) (by simp [eq])]

theorem atInner_minimal
    (st : Stepping t₀ t lower L c R X ex ey Y ((L₂ ++ p :: R₂) :: rest₂) below lastGone key)
    (at_ : Listed L c R L₂ p R₂ X₂ e₂ Y₂)
    (room : ¬ (lastGone = true ∧ c.items.length = bpOrder)) (minimal : c.items.length = bpOrder / 2)
    (ih : ClimbsThrough rest₂) (enough : rest₂.length ≤ n) (enough' : rest₂.length ≤ n') :
    Climbed (t.removeFromIndex c.off (c.node (firstOff R) (lastOff L)) key (n + 1 + 1))
      (t₀.lossDefects c.off lastGone (n' + 1 + 1)) t lower (thinKeys L X ey Y R)
      ((L ++ c :: R) :: (L₂ ++ p :: R₂) :: rest₂) := by
  obtain ⟨K, K_eq⟩ : ∃ K, K = keptSlots lastGone X ex ey Y := ⟨_, rfl⟩
  have short := K_eq ▸ st.short
  have lenK := short.len
  rw [st.defects_minimal at_ room minimal]
  rcases st.left_neighbour at_ K with ⟨L', d, X', f, rfl, before, more, ne, count⟩ | ⟨noLeft, left, minL⟩
  · rw [if_pos ⟨ne, count⟩]
    obtain ⟨_, _, _, t', node', lower', _, run, _, kept, _⟩ := short.borrowLeft before more (by omega)
    have ok : t.removeFromIndex c.off (c.node (firstOff R) (lastOff (L' ++ [d]))) key (n + 1 + 1) =
        .ok (t'.unmap node' c.off) := st.run_borrowed at_ room minimal
      fun front back isFirst _ => K_eq ▸ BPlusTree.borrowFromSiblings_left
        (fun same => ne (isFirst.mp same)) run
    refine Climbed.of_ok ?_ ok kept (by simp)
    simpa using overrun_notMem_stale
  rw [if_neg noLeft]
  rcases st.right_neighbour at_ K with ⟨d, R', rfl, more, ne, count⟩ | ⟨noRight, right, minR⟩
  · rw [if_pos ⟨ne, count⟩, List.append_nil]
    obtain ⟨t', node', lower', run, kept, thin⟩ := short.borrowRight at_ ne more (by omega)
    have ok : t.removeFromIndex c.off (c.node (firstOff (d :: R')) (lastOff L)) key (n + 1 + 1) =
        .ok (t'.unmap node' c.off) := st.run_borrowed at_ room minimal
      fun front back isFirst isLast => K_eq ▸ BPlusTree.borrowFromSiblings_right
        (left.imp isFirst.mpr id) (fun same => ne (isLast.mp same)) run
    exact Climbed.of_ok overrun_notMem_stale ok kept thin
  rw [if_neg noRight]
  obtain ⟨P, a, b, Q, X', ea, eb, Y', M, t', lower', first, split, pair, merging, keys, last, step, ran⟩ :=
    st.merge (n := n + 1) at_ room minimal K_eq left minL right minR
  have placed := split ▸ st.placed
  have sized := split ▸ st.sized
  have tall : t.info.height ≠ 1 := fun one => by simpa using (st.deep.mp one).2
  obtain ⟨_, _, _, sized₂, _⟩ := st.upper.level_inv
  have root : rest₂ = [] → p.off = t₀.info.rootOffset := fun top => by
    have isRoot := step.root_iff.mpr top
    rw [← isRoot, merging.info, st.root₀]
    rfl
  have positive : 0 < t.info.internalNodeNum := by
    have count := st.count
    simp only [List.length_append, List.length_cons] at count
    omega
  rw [ran, split]
  exact Climbed.lift pair merging.info positive merging.row merging.same merging.listed
    (fun empty => keys ▸ short.keyed empty) last
    (merging.sized sized (by simp) fun vacant => several_of_noDefects pair sized₂ step.held₀ root
      (st.height₀ ▸ tall) (not_ne_iff.mp vacant))
    overrun_notMem_stale placed merging.frame (ih step enough enough')

theorem climbsThrough (rest : List (List (Cell Index))) : ClimbsThrough rest := by
  induction rest with
  | nil =>
    intro α _ t₀ t lower L c R X ex ey Y below lastGone key n n' st _ _
    by_cases full : lastGone = true ∧ c.items.length = bpOrder
    · exact st.overrun full
    · exact st.atRoot full
  | cons row₂ rest₂ ih =>
    intro α _ t₀ t lower L c R X ex ey Y below lastGone key n n' st enough enough'
    simp only [List.length_cons] at enough enough'
    obtain ⟨n, rfl⟩ : ∃ m, n = m + 1 := ⟨n - 1, by omega⟩
    obtain ⟨n', rfl⟩ : ∃ m, n' = m + 1 := ⟨n' - 1, by omega⟩
    by_cases full : lastGone = true ∧ c.items.length = bpOrder
    · exact st.overrun full
    have half : bpOrder / 2 ≤ c.items.length := st.sized.atLeast (by simp) c (by simp)
    rcases half.lt_or_eq with more | minimal
    · exact st.atInner_enough full more
    · obtain ⟨L₂, p, R₂, X₂, e₂, Y₂, rfl, at_⟩ := st.upper.parent
      exact st.atInner_minimal at_ full minimal.symm ih (by omega) (by omega)

end Stepping

end Fdfs2qq.Bpt
