import Fdfs2qq.Bpt.LastSlots
import Fdfs2qq.Bpt.RemoveProofs

/-! When the climb of `remove_from_index` keeps the last-slot law. By induction
on the levels above, like the climb itself: a node whose last entry goes ends
with a key too low, a slot borrowed from the left overwrites a separator, and
every other step hands the bounds of the row below on as they are. -/
namespace Fdfs2qq.Bpt
open Lib

/-- No separator is spoilt. -/
def Unspoilt (defects : List Defect) : Prop :=
  .staleLastSlot ∉ defects ∧ .lostSeparator ∉ defects

instance (defects : List Defect) : Decidable (Unspoilt defects) :=
  inferInstanceAs (Decidable (_ ∧ _))

theorem unspoilt_append : Unspoilt (xs ++ ys) ↔ Unspoilt xs ∧ Unspoilt ys := by
  simp only [Unspoilt, List.mem_append, not_or]
  tauto

theorem unspoilt_staleAt : Unspoilt (staleAt lastGone next) ↔ staleAt lastGone next = [] := by
  unfold staleAt
  split <;> simp [Unspoilt]

/-- The levels a climb leaves over `lower`. `alone` asks about the law above a row
of leaves, whose bounds are not stored. -/
structure Relaid (t t' : BPlusTree) (lower : List (Cell α)) (bounds : List Key)
    (levels levels' : List (List (Cell Index))) (defects : List Defect) (lastGone : Bool)
    (direct : Prop) : Prop where
  stack : Stack t'.file t'.info.rootOffset (offsets lower) levels'
  height : t'.info.height + levels.length = t.info.height + levels'.length
  whole : LawfulOver bounds levels' ↔ Unspoilt defects
  alone : lastGone = false → (Lawful levels' ↔ Unspoilt defects ∨ direct)

/-- The climb with these levels above, as far as the law goes. -/
def LawClimbs (rest : List (List (Cell Index))) : Prop :=
  ∀ {α : Type} [NodeType α] {t₀ t : BPlusTree} {lower : List (Cell α)} {L : List (Cell Index)}
    {c : Cell Index} {R : List (Cell Index)} {X : List Index} {ex ey : Index} {Y : List Index}
    {below : Nat} {lastGone : Bool} {key : Key} {n n' : Nat},
    Stepping t₀ t lower L c R X ex ey Y rest below lastGone key → 0 < t.info.height →
    rest.length ≤ n → rest.length ≤ n' → .overrun ∉ t₀.lossDefects c.off lastGone (n' + 1) →
    ∃ t' levels', t.removeFromIndex c.off (c.node (firstOff R) (lastOff L)) key (n + 1) = .ok t' ∧
      Relaid t t' lower (thinKeys L X ey Y R) ((L ++ c :: R) :: rest) levels'
        (t₀.lossDefects c.off lastGone (n' + 1)) lastGone
        (t₀.lossDefects c.off lastGone 1 = [.lostSeparator])

theorem Stack.of_row [NodeType α] {lower : List (Cell α)} {row : List (Cell Index)}
    (linked : LinkedRow f row) (nonempty : ∀ c ∈ row, c.items ≠ []) (listed : ids lower = kids row)
    (upper : Stack f root (offsets row) rest) : Stack f root (offsets lower) (row :: rest) :=
  .level (fun _ mem => linked.mem mem) nonempty (by rw [← listed, offsets_eq_ids]) upper

namespace Stepping

variable [NodeType α] {t₀ t t' : BPlusTree} {lower : List (Cell α)} {L R : List (Cell Index)}
  {c : Cell Index} {X Y : List Index} {ex ey : Index} {row₂ : List (Cell Index)}
  {rest rest₂ levels' : List (List (Cell Index))} {below : Nat} {lastGone : Bool} {key : Key} {n n' : Nat}
  {defects : List Defect} {direct : Prop}

theorem length_thinKeys (st : Stepping t₀ t lower L c R X ex ey Y rest below lastGone key) :
    (thinKeys L X ey Y R).length = lower.length := by
  have listed := congrArg List.length st.listed
  simpa [thinKeys, length_rowKeys] using listed.symm

theorem stale_iff (st : Stepping t₀ t lower L c R X ex ey Y rest below lastGone key) :
    staleAt lastGone (firstOff R) = [] ↔ ¬ (lastGone = true ∧ R ≠ []) := by
  refine ⟨st.healthy, fun healthy => ?_⟩
  rw [staleAt, if_neg]
  rintro ⟨gone, next⟩
  exact healthy ⟨gone, fun empty => next (by rw [empty]; rfl)⟩

theorem ascending_thin (st : Stepping t₀ t lower L c R X ex ey Y rest below lastGone key) :
    Ascending (thinKeys L X ey Y R) := by
  have asc : Ascending ((rowKeys L ++ X.map Index.key) ++ ex.key :: ey.key ::
      (Y.map Index.key ++ rowKeys R)) := by simpa [st.items] using st.ascending
  simpa [thinKeys] using asc.skip

/-- A row that has the kept keys in order differs from its bounds when the last
entry of an inner cell is gone. -/
theorem not_lawfulOver (st : Stepping t₀ t lower L c R X ex ey Y rest below lastGone key)
    (stale : staleAt lastGone (firstOff R) ≠ [])
    (keys : levelKeys levels' =
      rowKeys L ++ ((keptSlots lastGone X ex ey Y).map Index.key ++ rowKeys R)) :
    ¬ LawfulOver (thinKeys L X ey Y R) levels' := by
  intro lawful
  obtain ⟨rfl, occupied⟩ := not_not.mp (mt st.stale_iff.mpr stale)
  obtain rfl := st.end_ rfl
  obtain ⟨d, R', rfl⟩ := List.exists_cons_of_ne_nil occupied
  have filled : rowKeys (d :: R') ≠ [] := by
    have := st.sized.nonempty d (by simp)
    simp [this]
  have split : SameInit ((rowKeys L ++ X.map Index.key) ++ ex.key :: rowKeys (d :: R'))
      ((rowKeys L ++ X.map Index.key) ++ ey.key :: rowKeys (d :: R')) := by
    have same := lawful.1
    rw [keys] at same
    simpa [keptSlots, thinKeys] using same
  obtain ⟨-, here, -⟩ := split.split rfl
  have asc : Ascending ((rowKeys L ++ X.map Index.key) ++ ex.key :: ey.key :: rowKeys (d :: R')) := by
    simpa [st.items] using st.ascending
  exact (asc.gap.2 filled).ne (here filled)

/-- Without a defect the levels are a tower again. -/
theorem relaid_of_noDefects (st : Stepping t₀ t lower L c R X ex ey Y rest below lastGone key)
    (enough : rest.length ≤ n) (enough' : rest.length ≤ n')
    (clean : t₀.lossDefects c.off lastGone (n' + 1) = []) :
    ∃ t' levels', t.removeFromIndex c.off (c.node (firstOff R) (lastOff L)) key (n + 1) = .ok t' ∧
      Relaid t t' lower (thinKeys L X ey Y R) ((L ++ c :: R) :: rest) levels' [] lastGone direct := by
  obtain ⟨t', lower', ok, kept, thin⟩ := (climbsThrough rest st enough enough').fine (by simp [clean])
  obtain ⟨levels', thinned⟩ := thin clean
  have len : (thinKeys L X ey Y R).length = (ids lower').length := by
    rw [st.length_thinKeys, length_ids, length_of_bodies kept.same]
  have lawful := thinned.tower.lawfulOver len
  refine ⟨t', levels', ok, ?_, by rw [thinned.height, thinned.len], by simp [lawful, Unspoilt],
    fun _ => by simp [lawful.2, Unspoilt]⟩
  rw [← offsets_of_bodies kept.same, offsets_eq_ids]
  exact thinned.tower.stack

/-- Dropping the root takes one level with it and spoils no key. -/
theorem relaid_root (st : Stepping t₀ t lower L c R X ex ey Y [] below lastGone key)
    (tall : 0 < t.info.height) (room : ¬ (lastGone = true ∧ c.items.length = bpOrder))
    (shrink : c.items.length = 2 ∧ t.info.height ≠ 1) :
    ∃ t' levels', t.removeFromIndex c.off (c.node (firstOff R) (lastOff L)) key (n + 1) = .ok t' ∧
      Relaid t t' lower (thinKeys L X ey Y R) [L ++ c :: R] levels' [.staleRootParent] lastGone
        direct := by
  obtain ⟨only, single, ok⟩ := st.run_shrink (n := n) room shrink
  have listed := st.listed
  obtain ⟨rfl, rfl⟩ := st.upper.single
  rw [← slotKids_kept lastGone c.off X ex ey Y, single] at listed
  have offs : offsets lower = [only.child] := by rw [offsets_eq_ids, listed]; rfl
  have one : (thinKeys [] X ey Y []).length = 1 := by
    rw [st.length_thinKeys]
    simpa [offsets] using congrArg List.length offs
  obtain ⟨k, keys⟩ := List.length_eq_one_iff.mp one
  have lawful : LawfulOver (thinKeys [] X ey Y []) [] := ⟨by rw [keys]; exact ⟨rfl, rfl⟩, trivial⟩
  refine ⟨_, [], ok, ?_, ?_, by simp [lawful, Unspoilt], fun _ => by simp [lawful.2, Unspoilt]⟩
  · rw [offs]
    exact .top
  · show t.info.height - 1 + 1 = t.info.height + 0
    omega

theorem upper_stack (st : Stepping t₀ t lower L c R X ex ey Y rest below lastGone key)
    (root : t'.info.rootOffset = t.info.rootOffset)
    (frame : ∀ o ∈ levelOffs rest, t'.file.get o = t.file.get o) :
    Stack t'.file t'.info.rootOffset (offsets (L ++ c :: R)) rest := by
  rw [root, offsets_eq_ids]
  exact (st.upper.frame frame).stack

theorem relaid_enough (st : Stepping t₀ t lower L c R X ex ey Y (row₂ :: rest₂) below lastGone key)
    (room : ¬ (lastGone = true ∧ c.items.length = bpOrder)) (enough : bpOrder / 2 < c.items.length)
    (stale : staleAt lastGone (firstOff R) ≠ []) :
    ∃ t' levels', t.removeFromIndex c.off (c.node (firstOff R) (lastOff L)) key (n + 1) = .ok t' ∧
      Relaid t t' lower (thinKeys L X ey Y R) ((L ++ c :: R) :: row₂ :: rest₂) levels'
        (staleAt lastGone (firstOff R)) lastGone direct := by
  have ok := st.run_enough (n := n) room enough
  have placedUp := st.placed.right
  have linked := BPlusTree.unmap_row st.linkedUp placedUp.left.distinct (keptSlots lastGone X ex ey Y)
  have len := st.short.len
  have two := st.short.two
  have filled : keptSlots lastGone X ex ey Y ≠ [] := fun empty => by
    rw [empty, List.length_nil] at len
    omega
  have nonempty := (st.sized.refill (d := ⟨c.off, c.parent, keptSlots lastGone X ex ey Y⟩) filled
    (by show (keptSlots lastGone X ex ey Y).length ≤ _; have := st.sized.atMost c (by simp); omega)
    (fun _ => by show _ ≤ (keptSlots lastGone X ex ey Y).length; omega)).nonempty
  refine ⟨_, _, ok, .of_row linked nonempty (by rw [st.short.listed]; simp) ?_, rfl,
    iff_of_false (st.not_lawfulOver stale (by simp [levelKeys])) (mt unspoilt_staleAt.mp stale), ?_⟩
  · have same : offsets (L ++ ⟨c.off, c.parent, keptSlots lastGone X ex ey Y⟩ :: R) =
        offsets (L ++ c :: R) := by simp
    rw [same]
    refine st.upper_stack rfl fun o mem => BPlusTree.get_unmap_ne _ _ ?_
    exact ne_of_mem_of_not_mem mem (placedUp.apart (by simp))
  · intro stays
    exact absurd (st.stale_iff.mpr (by simp [stays])) stale

variable {L₂ R₂ : List (Cell Index)} {p : Cell Index} {X₂ Y₂ K : List Index} {e₂ : Index}

theorem parent_stack {slots : List Index}
    (st : Stepping t₀ t lower L c R X ex ey Y ((L₂ ++ p :: R₂) :: rest₂) below lastGone key)
    (root : t'.info.rootOffset = t.info.rootOffset)
    (linkedTop : LinkedRow t'.file (L₂ ++ ⟨p.off, p.parent, slots⟩ :: R₂))
    (same : slots.map Index.child = p.items.map Index.child)
    (frame : ∀ o ∈ levelOffs rest₂, t'.file.get o = t.file.get o) :
    Stack t'.file t'.info.rootOffset (offsets (L ++ c :: R))
      ((L₂ ++ ⟨p.off, p.parent, slots⟩ :: R₂) :: rest₂) := by
  obtain ⟨_, listed, _, sized₂, upper₂⟩ := st.upper.level_inv
  have kids_ : slotKids p.off slots = slotKids p.off p.items := by
    simpa [slotKids, Function.comp_def] using congrArg (List.map fun o => (o, p.off)) same
  refine .of_row linkedTop ?_ ?_ ?_
  · intro e mem
    simp only [List.mem_append, List.mem_cons] at mem
    rcases mem with mem | rfl | mem
    · exact sized₂.nonempty e (by simp [mem])
    · rintro rfl
      exact sized₂.nonempty p (by simp) (List.map_eq_nil_iff.mp same.symm)
    · exact sized₂.nonempty e (by simp [mem])
  · rw [← listed]
    simp [kids_]
  · have offs : offsets (L₂ ++ ⟨p.off, p.parent, slots⟩ :: R₂) = offsets (L₂ ++ p :: R₂) := by simp
    rw [root, offs, offsets_eq_ids]
    exact (upper₂.frame frame).stack

/-- The levels after a slot moved from `d` to its right neighbour, now `c'`. -/
theorem lawful_lent {L' : List (Cell Index)} {d c' : Cell Index} {f b : Index} {I : List Index}
    (before : Listed L' d (c :: R) L₂ p R₂ X₂ f (e₂ :: Y₂))
    (upper₂ : Tower t.file t.info.rootOffset (ids (L₂ ++ p :: R₂)) (uppers (L₂ ++ p :: R₂)) rest₂)
    (last : R ≠ [] → lastKey c' = lastKey c) :
    Lawful ((L' ++ ⟨d.off, d.parent, I ++ [b]⟩ :: c' :: R) ::
      (L₂ ++ ⟨p.off, p.parent, X₂ ++ { f with key := b.key } :: e₂ :: Y₂⟩ :: R₂) :: rest₂) := by
  have lastP : lastKey ⟨p.off, p.parent, X₂ ++ { f with key := b.key } :: e₂ :: Y₂⟩ = lastKey p := by
    rw [lastKey_append_cons (c := p) (X := X₂ ++ [f]) (by simpa using before.items),
      lastKey_append_cons (c := ⟨p.off, p.parent, X₂ ++ { f with key := b.key } :: e₂ :: Y₂⟩)
        (X := X₂ ++ [{ f with key := b.key }]) (e := e₂) (Y := Y₂) (by simp)]
  have lastD : lastKey ⟨d.off, d.parent, I ++ [b]⟩ = b.key := lastKey_concat rfl
  refine ⟨?_, (upper₂.lawfulOver (by simp)).of_sameInit ?_⟩
  · have after : SameInit ((e₂ :: Y₂).map Index.key ++ rowKeys R₂) (uppers (c' :: R)) := by
      refine before.keysR.trans (SameInit.append_cons (A := []) rfl (fun ne => ?_) (.refl _))
      exact (last fun empty => ne (by rw [empty]; rfl)).symm
    have whole := SameInit.append_cons (x := b.key) (y := b.key) before.keysL.symm (fun _ => rfl) after
    rw [uppers_append, uppers_cons, lastD]
    simpa [levelKeys] using whole
  · simpa [lastP] using SameInit.refl _

/-- Borrowing from the left puts a key too low over the first child of the
borrower. The law above the row stays. -/
theorem relaid_left {L' : List (Cell Index)} {d : Cell Index} {f : Index}
    (st : Stepping t₀ t lower (L' ++ [d]) c R X ex ey Y ((L₂ ++ p :: R₂) :: rest₂) below lastGone key)
    (at_ : Listed (L' ++ [d]) c R L₂ p R₂ Z e₂ Y₂) (ne : Z ≠ [])
    (before : Listed L' d (c :: R) L₂ p R₂ X₂ f (e₂ :: Y₂))
    (room : ¬ (lastGone = true ∧ c.items.length = bpOrder)) (minimal : c.items.length = bpOrder / 2)
    (more : bpOrder / 2 < d.items.length)
    (direct : t₀.lossDefects c.off lastGone 1 = staleAt lastGone (firstOff R) ++ [.lostSeparator]) :
    ∃ t' levels', t.removeFromIndex c.off (c.node (firstOff R) (lastOff (L' ++ [d]))) key (n + 1) =
        .ok t' ∧
      Relaid t t' lower (thinKeys (L' ++ [d]) X ey Y R)
        (((L' ++ [d]) ++ c :: R) :: (L₂ ++ p :: R₂) :: rest₂) levels'
        (staleAt lastGone (firstOff R) ++ [.lostSeparator]) lastGone
        (t₀.lossDefects c.off lastGone 1 = [.lostSeparator]) := by
  obtain ⟨K, K_eq⟩ : ∃ K, K = keptSlots lastGone X ex ey Y := ⟨_, rfl⟩
  have short := K_eq ▸ st.short
  have len := short.len
  obtain ⟨I, b, lent, t', node', lower', items, run, info, kept, listed, linkedUp, linkedTop, frame⟩ :=
    short.borrowLeft before more (by omega)
  have ok : t.removeFromIndex c.off (c.node (firstOff R) (lastOff (L' ++ [d]))) key (n + 1) =
      .ok (t'.unmap node' c.off) := st.run_borrowed at_ room minimal
    fun front back isFirst _ => K_eq ▸ BPlusTree.borrowFromSiblings_left
      (fun same => ne (isFirst.mp same)) run
  obtain ⟨k, g, K', K_cons⟩ := exists_cons_cons (show 2 ≤ K.length by
    rw [minimal, bpOrder] at len; omega)
  obtain ⟨_, _, _, sized₂, upper₂⟩ := st.upper.level_inv
  have lentKey : f.key = lent.key := by
    rw [before.keyHere (by simp), lastKey_concat (c := d) (Z := I ++ [b]) (z := lent) (by simp [items])]
  refine ⟨_, (L' ++ ⟨d.off, d.parent, I ++ [b]⟩ ::
      ⟨c.off, c.parent, lent :: K.modify 0 fun x => { x with key := f.key }⟩ :: R) ::
    (L₂ ++ ⟨p.off, p.parent, X₂ ++ { f with key := b.key } :: e₂ :: Y₂⟩ :: R₂) :: rest₂, ok, ?_,
    by rw [info]; simp, iff_of_false ?_ (by simp [Unspoilt]), fun stays => iff_of_true ?_ (.inr ?_)⟩
  · have upper := st.parent_stack (by rw [info]) linkedTop (by simp [before.items]) frame
    rw [← offsets_of_bodies kept.same]
    refine .of_row linkedUp ?_ (by rw [listed]; simp [K_cons]) (by simpa using upper)
    intro e mem
    simp only [List.mem_append, List.mem_cons] at mem
    rcases mem with mem | rfl | rfl | mem
    · exact st.sized.nonempty e (by simp [mem])
    · simp
    · simp
    · exact st.sized.nonempty e (by simp [mem])
  · rintro ⟨same, -⟩
    have one : (X ++ ey :: Y).length + 1 = c.items.length := by
      rw [st.items, List.length_append, List.length_append, List.length_cons, List.length_cons,
        List.length_cons]
      omega
    rw [K_cons, List.length_cons, List.length_cons] at len
    obtain ⟨h, h', H, rest_⟩ := exists_cons_cons (show 2 ≤ (X ++ ey :: Y).length by omega)
    have asc := st.ascending_thin
    rw [thinKeys, rest_] at same asc
    have gap : Ascending ((rowKeys L' ++ (I ++ [b]).map Index.key) ++
        lent.key :: h.key :: (h'.key :: (H.map Index.key ++ rowKeys R))) := by
      simpa [items] using asc
    have split : SameInit ((rowKeys L' ++ (I ++ [b, lent]).map Index.key) ++
          f.key :: g.key :: (K'.map Index.key ++ rowKeys R))
        ((rowKeys L' ++ (I ++ [b, lent]).map Index.key) ++
          h.key :: h'.key :: (H.map Index.key ++ rowKeys R)) := by
      simpa [levelKeys, K_cons, items] using same
    obtain ⟨-, here, -⟩ := split.split rfl
    exact (gap.gap.2 (by simp)).ne (lentKey ▸ here (by simp))
  · apply lawful_lent before upper₂
    intro filled
    have healthy := st.stale_iff.mpr (by simp [stays])
    rw [← short.lastKept healthy filled, lastKey_append_cons (c := ⟨c.off, c.parent, K⟩) (X := [k]) K_cons,
      lastKey_append_cons (c := ⟨c.off, c.parent, lent :: K.modify 0 fun x => { x with key := f.key }⟩)
        (X := [lent, { k with key := f.key }]) (e := g) (Y := K') (by simp [K_cons])]
  · rw [direct, st.stale_iff.mpr (by simp [stays])]
    rfl

theorem relaid_right {R' : List (Cell Index)} {d : Cell Index}
    (st : Stepping t₀ t lower L c (d :: R') X ex ey Y ((L₂ ++ p :: R₂) :: rest₂) below lastGone key)
    (at_ : Listed L c (d :: R') L₂ p R₂ X₂ e₂ Y₂) (ne : Y₂ ≠ [])
    (room : ¬ (lastGone = true ∧ c.items.length = bpOrder)) (minimal : c.items.length = bpOrder / 2)
    (more : bpOrder / 2 < d.items.length) (K_eq : K = keptSlots lastGone X ex ey Y)
    (left : X₂ = [] ∨ t.borrowIndex false (inMemory c K L (d :: R')) c.off =
      .ok (false, t, inMemory c K L (d :: R')))
    (stale : staleAt lastGone (firstOff (d :: R')) ≠ []) :
    ∃ t' levels', t.removeFromIndex c.off (c.node (firstOff (d :: R')) (lastOff L)) key (n + 1) =
        .ok t' ∧
      Relaid t t' lower (thinKeys L X ey Y (d :: R')) ((L ++ c :: d :: R') :: (L₂ ++ p :: R₂) :: rest₂)
        levels' (staleAt lastGone (firstOff (d :: R'))) lastGone direct := by
  have short := K_eq ▸ st.short
  have len := short.len
  obtain ⟨lent, J, Z, e', W, t', node', lower', items, slots, -, run, info, kept, listed, linkedUp,
    linkedTop, frame⟩ := short.lendRight at_ ne more (by omega)
  have ok : t.removeFromIndex c.off (c.node (firstOff (d :: R')) (lastOff L)) key (n + 1) =
      .ok (t'.unmap node' c.off) := st.run_borrowed at_ room minimal
    fun front back isFirst isLast => K_eq ▸ BPlusTree.borrowFromSiblings_right
      (left.imp isFirst.mpr id) (fun same => ne (isLast.mp same)) run
  refine ⟨_, (L ++ ⟨c.off, c.parent, K ++ [lent]⟩ :: ⟨d.off, d.parent, J⟩ :: R') ::
    (L₂ ++ ⟨p.off, p.parent, Z ++ { e' with key := lent.key } :: W⟩ :: R₂) :: rest₂, ok, ?_,
    by rw [info]; simp, iff_of_false (st.not_lawfulOver stale ?_)
    (mt unspoilt_staleAt.mp stale), fun stays => absurd (st.stale_iff.mpr (by simp [stays])) stale⟩
  · have upper := st.parent_stack (by rw [info]) linkedTop (by simp [slots]) frame
    rw [← offsets_of_bodies kept.same]
    refine .of_row linkedUp ?_ (by rw [listed]; simp) (by simpa using upper)
    intro e mem
    simp only [List.mem_append, List.mem_cons] at mem
    rcases mem with mem | rfl | rfl | mem
    · exact st.sized.nonempty e (by simp [mem])
    · simp
    · rintro rfl
      simp [items, bpOrder] at more
    · exact st.sized.nonempty e (by simp [mem])
  · simp [levelKeys, K_eq, items]

/-- After a merge the law is that of the climb above, but for the last key of
the level. -/
theorem relaid_merge
    (st : Stepping t₀ t lower L c R X ex ey Y ((L₂ ++ p :: R₂) :: rest₂) below lastGone key)
    (at_ : Listed L c R L₂ p R₂ X₂ e₂ Y₂)
    (room : ¬ (lastGone = true ∧ c.items.length = bpOrder)) (minimal : c.items.length = bpOrder / 2)
    (K_eq : K = keptSlots lastGone X ex ey Y)
    (left : X₂ = [] ∨ t.borrowIndex false (inMemory c K L R) c.off = .ok (false, t, inMemory c K L R))
    (minL : ∀ L' d, L = L' ++ [d] → X₂ ≠ [] → d.items.length = bpOrder / 2)
    (right : Y₂ = [] ∨ t.borrowIndex true (inMemory c K L R) c.off = .ok (false, t, inMemory c K L R))
    (minR : ∀ d R', R = d :: R' → Y₂ ≠ [] → d.items.length = bpOrder / 2)
    (ih : LawClimbs rest₂) (tall : 0 < t.info.height) (enough : rest₂.length ≤ n)
    (enough' : rest₂.length ≤ n') (clean : .overrun ∉ t₀.lossDefects p.off (Y₂ = []) (n' + 1))
    (direct : t₀.lossDefects c.off lastGone 1 = staleAt lastGone (firstOff R)) :
    ∃ t' levels', t.removeFromIndex c.off (c.node (firstOff R) (lastOff L)) key (n + 1 + 1) = .ok t' ∧
      Relaid t t' lower (thinKeys L X ey Y R) ((L ++ c :: R) :: (L₂ ++ p :: R₂) :: rest₂) levels'
        (staleAt lastGone (firstOff R) ++ t₀.lossDefects p.off (Y₂ = []) (n' + 1)) lastGone
        (t₀.lossDefects c.off lastGone 1 = [.lostSeparator]) := by
  have short := K_eq ▸ st.short
  obtain ⟨P, a, b, Q, X', ea, eb, Y', M, t', lower', first, split, pair, merging, keys, last, step, ran⟩ :=
    st.merge (n := n + 1) at_ room minimal K_eq left minL right minR
  have height : t'.info.height = t.info.height := by rw [merging.info]; rfl
  obtain ⟨t'', levels', ok, relaid⟩ := ih step (height ▸ tall) enough enough' clean
  obtain ⟨u, row', ok', kept, -⟩ := (climbsThrough rest₂ step enough enough').fine clean
  obtain rfl : u = t'' := by simpa [ok] using ok'.symm
  have keys' : rowKeys row' = rowKeys L ++ (K.map Index.key ++ rowKeys R) := by
    rw [rowKeys_of_bodies kept.same, keys]
  have above : staleAt lastGone (firstOff R) = [] → (LawfulOver (uppers row') levels' ↔
      Unspoilt (t₀.lossDefects p.off (Y₂ = []) (n' + 1))) := fun empty => by
    rw [uppers_of_bodies kept.same, ← lawfulOver_congr (pair.keys_merged (last empty)) levels']
    exact relaid.whole
  refine ⟨u, row' :: levels', by rw [ran, ok], ?_, ?_, ?_, fun stays => ?_⟩
  · have upper := relaid.stack
    have offs : offsets lower' = offsets lower := offsets_of_bodies merging.same
    rw [← offsets_of_bodies kept.same] at upper
    rw [← offs]
    refine .of_row kept.row ?_ (by rw [merging.listed, kids_of_bodies kept.same]) upper
    have sized : Sized True (P ++ ⟨a.off, a.parent, M⟩ :: Q) :=
      merging.sized (split ▸ st.sized) (by simp) (by simp)
    exact (sized.of_bodies kept.same.symm).nonempty
  · have := relaid.height
    simp only [List.length_cons] at this ⊢
    omega
  · rw [unspoilt_append, unspoilt_staleAt]
    by_cases empty : staleAt lastGone (firstOff R) = []
    · rw [lawfulOver_cons_iff (keys' ▸ short.keyed empty), above empty]
      simp [empty]
    · exact iff_of_false (st.not_lawfulOver empty (by rw [levelKeys, keys', K_eq])) fun all => empty all.1
  · have empty := st.stale_iff.mpr (by simp [stays])
    rw [lawful_cons, above empty, direct, empty]
    simp

/-- The law over the whole climb. -/
theorem lawClimbs (rest : List (List (Cell Index))) : LawClimbs rest := by
  induction rest with
  | nil =>
    intro α _ t₀ t lower L c R X ex ey Y below lastGone key n n' st tall enough enough' clean
    by_cases full : lastGone = true ∧ c.items.length = bpOrder
    · rw [full.1, BPlusTree.lossDefects_full st.held₀ full.2] at clean
      simp at clean
    by_cases empty : t₀.lossDefects c.off lastGone (n' + 1) = []
    · rw [empty]
      exact st.relaid_of_noDefects enough enough' empty
    · rw [st.defects_root full] at empty ⊢
      have shrink := of_not_not fun stays => empty (if_neg stays)
      rw [if_pos shrink]
      exact st.relaid_root tall full shrink
  | cons row₂ rest₂ ih =>
    intro α _ t₀ t lower L c R X ex ey Y below lastGone key n n' st tall enough enough' clean
    by_cases full : lastGone = true ∧ c.items.length = bpOrder
    · rw [full.1, BPlusTree.lossDefects_full st.held₀ full.2] at clean
      simp at clean
    by_cases vacant : t₀.lossDefects c.off lastGone (n' + 1) = []
    · rw [vacant]
      exact st.relaid_of_noDefects enough enough' vacant
    have half : bpOrder / 2 ≤ c.items.length := st.sized.atLeast (by simp) c (by simp)
    rcases half.lt_or_eq with more | minimal
    · rw [st.defects_enough full more n'] at vacant ⊢
      exact st.relaid_enough full more vacant
    obtain ⟨L₂, p, R₂, X₂, e₂, Y₂, rfl, at_⟩ := st.upper.parent
    simp only [List.length_cons] at enough enough'
    obtain ⟨n, rfl⟩ : ∃ m, n = m + 1 := ⟨n - 1, by omega⟩
    obtain ⟨n', rfl⟩ : ∃ m, n' = m + 1 := ⟨n' - 1, by omega⟩
    have defects := st.defects_minimal at_ full minimal.symm
    have direct := defects 0
    rw [defects] at vacant clean ⊢
    obtain ⟨K, K_eq⟩ : ∃ K, K = keptSlots lastGone X ex ey Y := ⟨_, rfl⟩
    rcases st.left_neighbour at_ K with ⟨L', d, X', f, rfl, before, more, ne, count⟩ | ⟨noLeft, left, minL⟩
    · rw [if_pos ⟨ne, count⟩] at direct ⊢
      exact st.relaid_left at_ ne before full minimal.symm more direct
    rw [if_neg noLeft] at vacant clean direct ⊢
    rcases st.right_neighbour at_ K with ⟨d, R', rfl, more, ne, count⟩ | ⟨noRight, right, minR⟩
    · rw [if_pos ⟨ne, count⟩, List.append_nil] at vacant ⊢
      exact st.relaid_right at_ ne full minimal.symm more K_eq left vacant
    rw [if_neg noRight] at clean direct ⊢
    exact st.relaid_merge at_ full minimal.symm K_eq left minL right minR ih tall (by omega) (by omega)
      (fun mem => clean (List.mem_append_right _ mem)) (by simpa [BPlusTree.lossDefects] using direct)

end Stepping
end Fdfs2qq.Bpt
