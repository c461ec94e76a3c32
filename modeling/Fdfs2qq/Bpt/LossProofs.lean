import Fdfs2qq.Bpt.BorrowProofs
import Fdfs2qq.Bpt.Levels

/-! The climb of `remove_from_index`. Two neighbouring cells of a row were merged
into one, and the node above has to give up one of their two entries. Whatever
the climb does, it keeps the row below. Where it meets no defect, it also
leaves a tower over that row. -/
namespace Fdfs2qq.Bpt
open Lib

/-- What a climb without defects leaves. -/
structure Thinned (t t' : BPlusTree) (lower' : List (Cell α)) (bounds : List Key)
    (levels levels' : List (List (Cell Index))) : Prop where
  tower : Tower t'.file t'.info.rootOffset (ids lower') bounds levels'
  sub : (levelOffs levels').Sublist (levelOffs levels)
  indexed : levels' ≠ []
  len : levels'.length = levels.length
  height : t'.info.height = t.info.height
  nodes : t'.info.internalNodeNum + countNodes levels = t.info.internalNodeNum + countNodes levels'

/-- The cell `c` lists the cells of `lower`, one of them under the two entries
`ex` and `ey`. `below` counts the internal nodes under `c`'s level. -/
structure Losing [NodeType α] (t : BPlusTree) (lower : List (Cell α)) (L : List (Cell Index))
    (c : Cell Index) (R : List (Cell Index)) (X : List Index) (ex ey : Index) (Y : List Index)
    (rest : List (List (Cell Index))) (below : Nat) : Prop where
  linked : LinkedRow t.file lower
  linkedUp : LinkedRow t.file (L ++ c :: R)
  items : c.items = X ++ ex :: ey :: Y
  listed : ids lower =
    kids L ++ (slotKids c.off (X ++ { ey with child := ex.child } :: Y) ++ kids R)
  ascending : Ascending (rowKeys (L ++ c :: R))
  sized : Sized (rest = []) (L ++ c :: R)
  upper : Tower t.file t.info.rootOffset (ids (L ++ c :: R)) (uppers (L ++ c :: R)) rest
  placed : Placed t.info.slot (offsets lower ++ (offsets (L ++ c :: R) ++ levelOffs rest))
  order : t.info.order = bpOrder
  count : t.info.internalNodeNum = (L ++ c :: R).length + countNodes rest + below
  deep : t.info.height = 1 ↔ below = 0 ∧ rest = []

/-- The keys of a level when the bound of `ex` is dropped. -/
def thinKeys (L : List (Cell Index)) (X : List Index) (ey : Index) (Y : List Index)
    (R : List (Cell Index)) : List Key :=
  rowKeys L ++ ((X ++ ey :: Y).map Index.key ++ rowKeys R)

namespace BPlusTree

section Deleted

variable {t : BPlusTree} {off : Offset} {node : Node Index} {key : Key} {n minN : Nat}
  {K : List Index} {first : Index}

theorem removeFromIndex_fault
    (least : (if t.info.rootOffset = off then 1 else t.info.order / 2) = minN)
    (enough : minN ≤ node.children.length) (atMost : node.children.length ≤ t.info.order)
    (head : node.children[0]? = some first)
    (gone : deleteEntry node.children (findIndex node key) = .error fault) :
    t.removeFromIndex off node key (n + 1) = .error fault := by
  simp only [removeFromIndex, least, enough, atMost, and_self, if_true, slotAt_of_getElem? head, gone,
    bind, Except.bind]

theorem removeFromIndex_done (least : (if t.info.rootOffset = off then 1 else t.info.order / 2) = minN)
    (enough : minN ≤ node.children.length) (atMost : node.children.length ≤ t.info.order)
    (head : node.children[0]? = some first)
    (gone : deleteEntry node.children (findIndex node key) = .ok K)
    (stays : ¬ (K.length = 1 ∧ t.info.rootOffset = off ∧ t.info.internalNodeNum ≠ 1))
    (still : minN ≤ K.length) :
    t.removeFromIndex off node key (n + 1) = .ok (t.unmap { node with children := K } off) := by
  have still' : ¬ K.length < minN := not_lt.mpr still
  simp only [removeFromIndex, least, enough, atMost, and_self, if_true, slotAt_of_getElem? head, gone,
    bind, Except.bind, stays, if_false, still', pure, Except.pure]

theorem removeFromIndex_shrink
    (least : (if t.info.rootOffset = off then 1 else t.info.order / 2) = minN)
    (enough : minN ≤ node.children.length) (atMost : node.children.length ≤ t.info.order)
    (head : node.children[0]? = some first)
    (gone : deleteEntry node.children (findIndex node key) = .ok [only])
    (shrinks : t.info.rootOffset = off ∧ t.info.internalNodeNum ≠ 1) :
    t.removeFromIndex off node key (n + 1) = .ok (unmapMeta { t.unalloc Index with
      info := { (t.unalloc Index).info with
        height := t.info.height - 1, rootOffset := only.child } }) := by
  have shrinks' : [only].length = 1 ∧ t.info.rootOffset = off ∧ t.info.internalNodeNum ≠ 1 :=
    ⟨rfl, shrinks⟩
  have only_ : slotAt [only] 0 = .ok only := rfl
  simp only [removeFromIndex, least, enough, atMost, and_self, if_true, slotAt_of_getElem? head, gone,
    bind, Except.bind]
  rw [if_pos shrinks']
  simp only [only_, pure, Except.pure]
  rfl

variable {parent : Node Index} {front back : Index}

theorem removeFromIndex_borrowed
    (enough : t.info.order / 2 ≤ node.children.length) (atMost : node.children.length ≤ t.info.order)
    (head : node.children[0]? = some first)
    (gone : deleteEntry node.children (findIndex node key) = .ok K)
    (inner : t.info.rootOffset ≠ off) (short : K.length < t.info.order / 2)
    (read : t.map Index node.parent = .ok parent) (front_ : slotAt parent.children 0 = .ok front)
    (back_ : slotAt parent.children (parent.children.length - 1) = .ok back)
    (borrowed : t.borrowFromSiblings { node with children := K } off front.child back.child =
      .ok (true, t', node')) :
    t.removeFromIndex off node key (n + 1) = .ok (t'.unmap node' off) := by
  simp only [removeFromIndex, enough, atMost, and_self, if_true, slotAt_of_getElem? head, gone,
    bind, Except.bind, inner, false_and, and_false, if_false, short, read, front_, back_, borrowed,
    pure, Except.pure]

theorem removeFromIndex_merged
    (enough : t.info.order / 2 ≤ node.children.length) (atMost : node.children.length ≤ t.info.order)
    (head : node.children[0]? = some first)
    (gone : deleteEntry node.children (findIndex node key) = .ok K)
    (inner : t.info.rootOffset ≠ off) (short : K.length < t.info.order / 2)
    (read : t.map Index node.parent = .ok parent) (front_ : slotAt parent.children 0 = .ok front)
    (back_ : slotAt parent.children (parent.children.length - 1) = .ok back)
    (kept : t.borrowFromSiblings { node with children := K } off front.child back.child =
      .ok (false, t, { node with children := K }))
    (merged : t.mergeIndex { node with children := K } off back.child = .ok t') :
    t.removeFromIndex off node key (n + 1) =
      t'.removeFromIndex node.parent parent first.key n := by
  simp only [removeFromIndex, enough, atMost, and_self, if_true, slotAt_of_getElem? head, gone,
    bind, Except.bind, inner, false_and, and_false, if_false, short, read, front_, back_, kept,
    Bool.false_eq_true, merged]

end Deleted

end BPlusTree

structure Listed (L : List (Cell Index)) (c : Cell Index) (R L₂ : List (Cell Index)) (p : Cell Index)
    (R₂ : List (Cell Index)) (X : List Index) (e : Index) (Y : List Index) : Prop where
  items : p.items = X ++ e :: Y
  child : e.child = c.off
  owner : p.off = c.parent
  before : ids L = kids L₂ ++ slotKids p.off X
  after : ids R = slotKids p.off Y ++ kids R₂
  keysL : uppers L = rowKeys L₂ ++ X.map Index.key
  keyHere : uppers R ≠ [] → e.key = lastKey c
  keysR : SameInit (Y.map Index.key ++ rowKeys R₂) (uppers R)

theorem Tower.parent {L R : List (Cell Index)} {c : Cell Index}
    (tower : Tower f root (ids (L ++ c :: R)) (uppers (L ++ c :: R)) (row :: rest)) :
    ∃ L₂ p R₂ X e Y, row = L₂ ++ p :: R₂ ∧ Listed L c R L₂ p R₂ X e Y := by
  obtain ⟨_, listed, keyed, _, _⟩ := tower.level_inv
  obtain ⟨L₂, p, R₂, X, e, Y, split, items, child, owner, before, after, keysL, keyHere, keysR⟩ :=
    level_split (A := ids L) (B := ids R) (U := uppers L) (V := uppers R) (u := lastKey c)
      (x := c.off) (p := c.parent) (by simpa using listed) (by simpa using keyed) (by simp)
  exact ⟨L₂, p, R₂, X, e, Y, split, items, child, owner, before, after, keysL, keyHere, keysR⟩

namespace Listed

variable {L R L₂ R₂ : List (Cell Index)} {c p : Cell Index} {X Y : List Index} {e : Index}

theorem left (at_ : Listed L c R L₂ p R₂ X e Y) (ne : X ≠ []) :
    ∃ L' d X' f, L = L' ++ [d] ∧ X = X' ++ [f] ∧ Listed L' d (c :: R) L₂ p R₂ X' f (e :: Y) := by
  obtain ⟨X', f, rfl⟩ := (List.eq_nil_or_concat' X).resolve_left ne
  have before := at_.before
  rw [slotKids_append, ← List.append_assoc] at before
  obtain ⟨L', D, rfl, hL, hD⟩ := List.map_eq_append_iff.mp before
  obtain ⟨d, rest, rfl, pair, hrest⟩ := List.map_eq_cons_iff.mp hD
  obtain rfl := List.map_eq_nil_iff.mp hrest
  obtain ⟨child, parent⟩ := Prod.mk.inj pair
  have keysL := at_.keysL
  simp only [uppers_append, uppers_cons, uppers_nil, List.map_append, List.map_cons, List.map_nil]
    at keysL
  rw [← List.append_assoc] at keysL
  obtain ⟨init, last⟩ := List.append_inj' keysL rfl
  refine ⟨L', d, X', f, rfl, rfl, by simp [at_.items], child.symm, parent.symm, hL, ?_, init,
    fun _ => (List.singleton_inj.mp last).symm, ?_⟩
  · simp [at_.after, at_.child, at_.owner]
  · exact SameInit.append_cons (A := []) rfl
      (fun filled => at_.keyHere fun empty => filled (at_.keysR.nil_iff.mpr empty)) at_.keysR

theorem right (at_ : Listed L c R L₂ p R₂ X e Y) (ne : Y ≠ []) :
    ∃ d R' g Y', R = d :: R' ∧ Y = g :: Y' ∧ g.child = d.off ∧ d.parent = p.off ∧
      ids R' = slotKids p.off Y' ++ kids R₂ := by
  obtain ⟨g, Y', rfl⟩ := List.exists_cons_of_ne_nil ne
  have after := at_.after
  rw [slotKids_cons, List.cons_append] at after
  obtain ⟨d, R', rfl, pair, hR⟩ := List.map_eq_cons_iff.mp after
  obtain ⟨child, parent⟩ := Prod.mk.inj pair
  exact ⟨d, R', g, Y', rfl, rfl, child.symm, parent, hR⟩

/-- `c` is the first child exactly when nothing stands before it. -/
theorem first (at_ : Listed L c R L₂ p R₂ X e Y) (distinct : (offsets (L ++ c :: R)).Nodup) :
    ∃ front, p.items[0]? = some front ∧ (c.off = front.child ↔ X = []) := by
  rw [at_.items]
  cases X with
  | nil => exact ⟨e, rfl, by simp [at_.child]⟩
  | cons f X' =>
    refine ⟨f, rfl, ?_⟩
    have inL : f.child ∈ offsets L := by
      rw [offsets_eq_ids, at_.before]
      simp
    simp only [offsets_append, offsets_cons, List.nodup_append] at distinct
    have ne := distinct.2.2 f.child inL c.off (by simp)
    simp [ne.symm]

theorem last (at_ : Listed L c R L₂ p R₂ X e Y) (distinct : (offsets (L ++ c :: R)).Nodup) :
    ∃ back, p.items.getLast? = some back ∧ (c.off = back.child ↔ Y = []) := by
  rw [at_.items]
  rcases List.eq_nil_or_concat' Y with rfl | ⟨Y', g, rfl⟩
  · exact ⟨e, by simp, by simp [at_.child]⟩
  · refine ⟨g, by rw [← List.cons_append, ← List.append_assoc, List.getLast?_concat], ?_⟩
    have inR : g.child ∈ offsets R := by
      rw [offsets_eq_ids, at_.after]
      simp
    simp only [offsets_append, offsets_cons, List.nodup_append, List.nodup_cons] at distinct
    have ne : c.off ≠ g.child := fun same => distinct.2.1.1 (same ▸ inR)
    simp [ne]

/-- The first key of a cell with two slots is routed to that cell. -/
theorem routes_first {f g : Index} {K : List Index} (asc : Ascending (rowKeys (L ++ c :: R)))
    (nonempty : ∀ d ∈ L ++ c :: R, d.items ≠ []) (items : c.items = f :: g :: K) :
    Routes f.key (uppers L) (lastKey c) (uppers R) := by
  have keys : rowKeys (L ++ c :: R) =
      rowKeys L ++ f.key :: g.key :: (K.map Index.key ++ rowKeys R) := by simp [items]
  rw [keys, Ascending, dropLast_append_cons_cons, List.pairwise_append, List.pairwise_cons] at asc
  obtain ⟨_, ⟨later, _⟩, earlier⟩ := asc
  constructor
  · intro a mem
    have inside := (uppers_sublist fun d inL => nonempty d (by simp [inL])).subset mem
    exact (earlier a inside f.key (by simp)).le
  · intro occupied
    obtain ⟨d, R', rfl⟩ := List.exists_cons_of_ne_nil (show R ≠ [] from fun empty => occupied (by rw [empty]; rfl))
    have filled : rowKeys (d :: R') ≠ [] := by
      have := nonempty d (by simp)
      simp [this]
    apply later _
    rw [← List.cons_append, List.dropLast_append_of_ne_nil filled,
      lastKey_append_cons (X := [f]) (by simpa using items)]
    apply List.mem_append_left _
    cases last : (K.map Index.key).getLast? with
    | none => simp
    | some k => exact List.mem_cons_of_mem _ (by simpa using List.mem_of_getLast? last)

theorem findIndex_first {f g : Index} {K : List Index} (at_ : Listed L c R L₂ p R₂ X e Y)
    (asc : Ascending (rowKeys (L ++ c :: R))) (items : c.items = f :: g :: K)
    (nonempty : ∀ d ∈ L ++ c :: R, d.items ≠ []) (nonempty₂ : ∀ d ∈ L₂ ++ p :: R₂, d.items ≠ [])
    (next prev : Offset) : findIndex (p.node next prev) f.key = X.length :=
  (Routes.level (routes_first asc nonempty items) (by simpa using asc.uppers nonempty) at_.items
    nonempty₂ at_.keysL at_.keyHere at_.keysR next prev).1

end Listed

/-- A climb that faults only by overrun, keeps the row below, and leaves a tower
when it meets no defect. -/
structure Climbed [NodeType α] (run : Except Fault BPlusTree) (defects : List Defect)
    (t : BPlusTree) (lower : List (Cell α)) (bounds : List Key)
    (levels : List (List (Cell Index))) : Prop where
  fault : .overrun ∈ defects → run = .error .bounds
  fine : .overrun ∉ defects → ∃ t' lower', run = .ok t' ∧ Kept t t' lower lower' (levelOffs levels) ∧
    (defects = [] → ∃ levels', Thinned t t' lower' bounds levels levels')

theorem Climbed.of_ok [NodeType α] {t t' : BPlusTree} {lower lower' : List (Cell α)}
    (clean : .overrun ∉ defects) (ok : run = .ok t') (kept : Kept t t' lower lower' (levelOffs levels))
    (thin : defects = [] → ∃ levels', Thinned t t' lower' bounds levels levels') :
    Climbed run defects t lower bounds levels :=
  ⟨fun mem => absurd mem clean, fun _ => ⟨t', lower', ok, kept, thin⟩⟩

/-- The cell `c` in memory with its slots `K` after the deletion, and on disk as
before. `healthy` says that the last key of the level is still right. -/
structure Short [NodeType α] (t : BPlusTree) (lower : List (Cell α)) (L : List (Cell Index))
    (c : Cell Index) (R : List (Cell Index)) (K : List Index) (rest : List (List (Cell Index)))
    (below : Nat) (healthy : Prop) (bounds : List Key) : Prop where
  linked : LinkedRow t.file lower
  linkedUp : LinkedRow t.file (L ++ c :: R)
  listed : ids lower = kids L ++ (slotKids c.off K ++ kids R)
  len : K.length + 1 = c.items.length
  two : 2 ≤ c.items.length
  keyed : healthy → SameInit (rowKeys L ++ (K.map Index.key ++ rowKeys R)) bounds
  lastKept : healthy → R ≠ [] → lastKey ⟨c.off, c.parent, K⟩ = lastKey c
  ascending : Ascending (rowKeys (L ++ c :: R))
  sized : Sized (rest = []) (L ++ c :: R)
  upper : Tower t.file t.info.rootOffset (ids (L ++ c :: R)) (uppers (L ++ c :: R)) rest
  placed : Placed t.info.slot (offsets lower ++ (offsets (L ++ c :: R) ++ levelOffs rest))
  order : t.info.order = bpOrder
  count : t.info.internalNodeNum = (L ++ c :: R).length + countNodes rest + below
  deep : t.info.height = 1 ↔ below = 0 ∧ rest = []

theorem Losing.short [NodeType α] {t : BPlusTree} {lower : List (Cell α)}
    (losing : Losing t lower L c R X ex ey Y rest below) (end_ : lastGone = true → Y = []) :
    Short t lower L c R (keptSlots lastGone X ex ey Y) rest below (¬ (lastGone = true ∧ R ≠ []))
      (thinKeys L X ey Y R) := by
  refine ⟨losing.linked, losing.linkedUp, by rw [slotKids_kept]; exact losing.listed,
    by rw [length_kept, losing.items], by simp [losing.items]; omega, ?_, ?_, losing.ascending,
    losing.sized, losing.upper, losing.placed, losing.order, losing.count, losing.deep⟩
  · intro healthy
    cases lastGone with
    | false => simpa [keptSlots, thinKeys] using SameInit.refl _
    | true =>
      obtain rfl := end_ rfl
      obtain rfl : R = [] := by simpa using healthy
      have last : SameInit ((rowKeys L ++ X.map Index.key) ++ ex.key :: [])
          ((rowKeys L ++ X.map Index.key) ++ ey.key :: []) :=
        SameInit.append_cons rfl (by simp) (.refl _)
      simpa [keptSlots, thinKeys] using last
  · intro healthy filled
    obtain rfl : lastGone = false := by simpa [filled] using healthy
    rw [lastKey_append_cons (c := c) (X := X ++ [ex]) (e := ey) (Y := Y) (by simp [losing.items]),
      lastKey_append_cons (c := ⟨c.off, c.parent, keptSlots false X ex ey Y⟩) (X := X) (Y := Y) rfl]

namespace Short

variable [NodeType α] {t : BPlusTree} {lower : List (Cell α)} {L R : List (Cell Index)}
  {c : Cell Index} {K : List Index} {rest : List (List (Cell Index))} {below : Nat} {healthy : Prop}
  {bounds : List Key}

theorem done (short : Short t lower L c R K rest below healthy bounds)
    (enough : rest ≠ [] → bpOrder / 2 ≤ K.length) :
    Kept t (t.unmap ((⟨c.off, c.parent, K⟩ : Cell Index).node (firstOff R) (lastOff L)) c.off) lower
        lower (levelOffs ((L ++ c :: R) :: rest)) ∧
      (healthy → ∃ levels', Thinned t
        (t.unmap ((⟨c.off, c.parent, K⟩ : Cell Index).node (firstOff R) (lastOff L)) c.off) lower
        bounds ((L ++ c :: R) :: rest) levels') := by
  have inRow : c.off ∈ offsets (L ++ c :: R) := by simp
  have inUp : c.off ∈ offsets (L ++ c :: R) ++ levelOffs rest := List.mem_append_left _ inRow
  have len := short.len
  have two := short.two
  have atMost := short.sized.atMost c (by simp)
  constructor
  · refine ⟨linked_frame (fun o mem => BPlusTree.get_unmap_ne _ _ ?_) short.linked, rfl, rfl, rfl,
      rfl, rfl, fun o outside => BPlusTree.get_unmap_ne _ _ fun same => outside ?_⟩
    · exact ne_of_mem_of_not_mem mem (short.placed.apart' inUp)
    · rw [same]
      exact List.mem_append_right _ inUp
  · intro ok
    refine ⟨(L ++ ⟨c.off, c.parent, K⟩ :: R) :: rest, ?_, by simp, by simp, by simp, rfl, by simp⟩
    refine Tower.refill (BPlusTree.unmap_row short.linkedUp short.placed.right.left.distinct K)
      short.listed.symm (short.keyed ok) (short.sized.refill ?_ ?_ enough) (short.lastKept ok) ?_
    · exact List.length_pos_iff.mp (by show 0 < K.length; omega)
    · show K.length ≤ bpOrder
      omega
    · refine short.upper.frame fun o mem => BPlusTree.get_unmap_ne _ _ ?_
      exact ne_of_mem_of_not_mem mem (short.placed.right.apart inRow)

variable {L₂ R₂ : List (Cell Index)} {p : Cell Index} {X Y : List Index} {e : Index}
  {rest₂ : List (List (Cell Index))}

theorem kept_of_info {t' : BPlusTree} {lower' : List (Cell α)} (info : t'.info = t.info)
    (row : LinkedRow t'.file lower') (same : bodies lower' = bodies lower)
    (frame : ∀ o ∉ offsets lower ++ offs, t'.file.get o = t.file.get o) :
    Kept t t' lower lower' offs :=
  ⟨row, same, by rw [info], by rw [info], by rw [info], by rw [info], frame⟩

/-- The left neighbour lends its last slot. The slot of `c` in the parent is
searched with the first key of the lender and is the lender's. -/
theorem borrowLeft {d : Cell Index}
    (short : Short t lower (L ++ [d]) c R K ((L₂ ++ p :: R₂) :: rest₂) below healthy bounds)
    (at_ : Listed L d (c :: R) L₂ p R₂ X e Y) (more : bpOrder / 2 < d.items.length)
    (less : K.length < bpOrder / 2) :
    ∃ I before lent t' node' lower', d.items = I ++ [before, lent] ∧ t.borrowIndex false
        ((⟨c.off, c.parent, K⟩ : Cell Index).node (firstOff R) (lastOff (L ++ [d]))) c.off =
          .ok (true, t', node') ∧ (t'.unmap node' c.off).info = t.info ∧
      Kept t (t'.unmap node' c.off) lower lower'
        (levelOffs (((L ++ [d]) ++ c :: R) :: (L₂ ++ p :: R₂) :: rest₂)) ∧
      ids lower' = kids L ++ (slotKids d.off (I ++ [before]) ++ (slotKids c.off (lent :: K) ++ kids R)) ∧
      LinkedRow (t'.unmap node' c.off).file (L ++ ⟨d.off, d.parent, I ++ [before]⟩ ::
        ⟨c.off, c.parent, lent :: K.modify 0 fun x => { x with key := e.key }⟩ :: R) ∧
      LinkedRow (t'.unmap node' c.off).file
        (L₂ ++ ⟨p.off, p.parent, X ++ { e with key := before.key } :: Y⟩ :: R₂) ∧
      ∀ o ∈ levelOffs rest₂, (t'.unmap node' c.off).file.get o = t.file.get o := by
  obtain ⟨linkedTop, _, _, sizedTop, _⟩ := short.upper.level_inv
  have shape : (L ++ [d]) ++ c :: R = L ++ d :: c :: R := by simp
  have two : 2 ≤ d.items.length := le_trans (by decide) more
  obtain ⟨I, before, lent, items⟩ := exists_append_pair two
  obtain ⟨f, g, F, head⟩ := exists_cons_cons two
  have place := at_.findIndex_first (shape ▸ short.ascending) head (shape ▸ short.sized.nonempty)
    sizedTop.nonempty
  have placed := short.placed
  rw [← levelOffs_cons, append_levelOffs, shape] at placed
  obtain ⟨t', node', lower', run, info, row, same, listed', linkedUp', linkedTop', frame⟩ :=
    BPlusTree.borrowIndex_left (L := L) (R := R) (c := c) (d := d) (K := K) (i := f) short.linked
      (shape ▸ short.linkedUp) linkedTop items (by rw [head]; rfl) (by rw [short.listed]; simp)
      placed.left at_.owner.symm at_.items place short.order more less
  refine ⟨I, before, lent, t', node', lower', items, by rw [lastOff_concat]; exact run, info,
    kept_of_info info row same ?_, listed', linkedUp', linkedTop',
    fun o mem => frame o (placed.apart' mem)⟩
  intro o outside
  rw [append_levelOffs, shape] at outside
  exact frame o fun mem => outside (List.mem_append_left _ mem)

theorem place_last (short : Short t lower L c R K ((L₂ ++ p :: R₂) :: rest₂) below healthy bounds)
    (at_ : Listed L c R L₂ p R₂ X e Y) (ne : Y ≠ []) {K₀ : List Index} {z : Index}
    (last : K = K₀ ++ [z]) :
    ∃ Z e' W, p.items = Z ++ e' :: W ∧
      lowerBound (p.items.dropLast.map Index.key) z.key = Z.length ∧
      (healthy → Z = X ∧ e' = e ∧ W = Y) := by
  obtain ⟨_, _, keyed₂, sizedTop, _⟩ := short.upper.level_inv
  by_cases ok : healthy
  · refine ⟨X, e, Y, at_.items, ?_, fun _ => ⟨rfl, rfl, rfl⟩⟩
    obtain ⟨d, R', g, Y', rfl, rfl, -, -, -⟩ := at_.right ne
    have here : z.key = e.key := by
      rw [at_.keyHere (by simp), ← short.lastKept ok (by simp), last]
      simp [lastKey]
    have asc : Ascending (rowKeys (L₂ ++ p :: R₂)) :=
      (short.ascending.uppers short.sized.nonempty).of_sameInit keyed₂
    have slots : p.items.dropLast = X ++ e :: (g :: Y').dropLast := by
      rw [at_.items, dropLast_append_cons_cons]
    rw [lowerBound, slots, List.map_append, ← @List.length_map _ _ X Index.key]
    apply findIdx_boundary
    · intro k mem
      have keys : rowKeys (L₂ ++ p :: R₂) = (rowKeys L₂ ++ X.map Index.key) ++
          e.key :: g.key :: (Y'.map Index.key ++ rowKeys R₂) := by simp [at_.items]
      rw [keys, Ascending, dropLast_append_cons_cons, List.pairwise_append] at asc
      have less := asc.2.2 k (List.mem_append_right _ mem) e.key (by simp)
      simpa [keycmp_neg, here] using less
    · simp [keycmp_neg, here]
  · obtain ⟨Z, e', W, split, len⟩ := exists_split_of_le (sizedTop.nonempty p (by simp))
      ((lowerBound_le (p.items.dropLast.map Index.key) z.key).trans_eq (List.length_map _))
    exact ⟨Z, e', W, split, len.symm, fun yes => absurd yes ok⟩

/-- The right neighbour lends its first slot. -/
theorem lendRight {d : Cell Index}
    (short : Short t lower L c (d :: R) K ((L₂ ++ p :: R₂) :: rest₂) below healthy bounds)
    (at_ : Listed L c (d :: R) L₂ p R₂ X e Y) (ne : Y ≠ []) (more : bpOrder / 2 < d.items.length)
    (len : K.length + 1 = bpOrder / 2) :
    ∃ lent J Z e' W t' node' lower', d.items = lent :: J ∧ p.items = Z ++ e' :: W ∧
      (healthy → Z = X ∧ e' = e ∧ W = Y) ∧ t.borrowIndex true
        ((⟨c.off, c.parent, K⟩ : Cell Index).node (firstOff (d :: R)) (lastOff L)) c.off =
          .ok (true, t', node') ∧ (t'.unmap node' c.off).info = t.info ∧
      Kept t (t'.unmap node' c.off) lower lower'
        (levelOffs ((L ++ c :: d :: R) :: (L₂ ++ p :: R₂) :: rest₂)) ∧
      ids lower' = kids L ++ (slotKids c.off (K ++ [lent]) ++ (slotKids d.off J ++ kids R)) ∧
      LinkedRow (t'.unmap node' c.off).file
        (L ++ ⟨c.off, c.parent, K ++ [lent]⟩ :: ⟨d.off, d.parent, J⟩ :: R) ∧
      LinkedRow (t'.unmap node' c.off).file
        (L₂ ++ ⟨p.off, p.parent, Z ++ { e' with key := lent.key } :: W⟩ :: R₂) ∧
      ∀ o ∈ levelOffs rest₂, (t'.unmap node' c.off).file.get o = t.file.get o := by
  obtain ⟨linkedTop, _, _, _, _⟩ := short.upper.level_inv
  have filled : K ≠ [] := fun empty => by simp [empty, bpOrder] at len
  obtain ⟨K₀, z, rfl⟩ := (List.eq_nil_or_concat' K).resolve_left filled
  obtain ⟨lent, J, items⟩ := List.exists_cons_of_ne_nil
    (show d.items ≠ [] from fun empty => by simp [empty] at more)
  obtain ⟨Z, e', W, slots, place, same_⟩ := short.place_last at_ ne rfl
  have placed := short.placed
  rw [← levelOffs_cons, append_levelOffs] at placed
  obtain ⟨t', node', lower', run, info, row, same, listed', linkedUp', linkedTop', frame⟩ :=
    BPlusTree.borrowIndex_right (I := K₀) (z := z) short.linked short.linkedUp linkedTop items
      (by rw [short.listed]; simp) placed.left at_.owner.symm slots place
      short.order more (by omega)
  refine ⟨lent, J, Z, e', W, t', node', lower', items, slots, same_, run, info,
    kept_of_info info row same ?_, listed', linkedUp', linkedTop',
    fun o mem => frame o (placed.apart' mem)⟩
  intro o outside
  rw [append_levelOffs] at outside
  exact frame o fun mem => outside (List.mem_append_left _ mem)

/-- Where the last key of the level is right, borrowing from the right leaves a tower. -/
theorem borrowRight {d : Cell Index}
    (short : Short t lower L c (d :: R) K ((L₂ ++ p :: R₂) :: rest₂) below healthy bounds)
    (at_ : Listed L c (d :: R) L₂ p R₂ X e Y) (ne : Y ≠ []) (more : bpOrder / 2 < d.items.length)
    (len : K.length + 1 = bpOrder / 2) :
    ∃ t' node' lower', t.borrowIndex true
        ((⟨c.off, c.parent, K⟩ : Cell Index).node (firstOff (d :: R)) (lastOff L)) c.off =
          .ok (true, t', node') ∧
      Kept t (t'.unmap node' c.off) lower lower'
        (levelOffs ((L ++ c :: d :: R) :: (L₂ ++ p :: R₂) :: rest₂)) ∧
      (healthy → ∃ levels', Thinned t (t'.unmap node' c.off) lower' bounds
        ((L ++ c :: d :: R) :: (L₂ ++ p :: R₂) :: rest₂) levels') := by
  obtain ⟨lent, J, Z, e', W, t', node', lower', items, slots, same_, run, info, kept, listed', linkedUp',
    linkedTop', frame⟩ := short.lendRight at_ ne more len
  refine ⟨t', node', lower', run, kept, fun ok => ?_⟩
  obtain ⟨rfl, rfl, rfl⟩ := same_ ok
  obtain ⟨_, listedTop, _, sizedTop, upper₂⟩ := short.upper.level_inv
  have lenJ : d.items.length = J.length + 1 := by simp [items]
  have filledJ : J ≠ [] := fun empty => by simp [lenJ, empty, bpOrder] at more
  have keyD : lastKey ⟨d.off, d.parent, J⟩ = lastKey d := by
    obtain ⟨J', j, rfl⟩ := (List.eq_nil_or_concat' J).resolve_left filledJ
    rw [lastKey_concat (c := d) (Z := lent :: J') items,
      lastKey_concat (c := ⟨d.off, d.parent, J' ++ [j]⟩) rfl]
  have top : Tower (t'.unmap node' c.off).file (t'.unmap node' c.off).info.rootOffset
      (ids (L ++ ⟨c.off, c.parent, K ++ [lent]⟩ :: ⟨d.off, d.parent, J⟩ :: R))
      (uppers (L ++ ⟨c.off, c.parent, K ++ [lent]⟩ :: ⟨d.off, d.parent, J⟩ :: R))
      ((L₂ ++ ⟨p.off, p.parent, Z ++ { e' with key := lent.key } :: W⟩ :: R₂) :: rest₂) := by
    rw [info]
    refine Tower.refill linkedTop' ?_ ?_ (sizedTop.refill (by simp) ?_ ?_) ?_ (upper₂.frame frame)
    · have same : ids (L ++ ⟨c.off, c.parent, K ++ [lent]⟩ :: ⟨d.off, d.parent, J⟩ :: R) =
          ids (L ++ c :: d :: R) := by simp
      rw [same, ← listedTop]
      simp [slots]
    · have after := at_.keysR
      rw [uppers_cons, ← keyD] at after
      have cut : lastKey ⟨c.off, c.parent, K ++ [lent]⟩ = lent.key := lastKey_concat rfl
      rw [uppers_append, uppers_cons, uppers_cons, cut]
      simp only [List.map_append, List.map_cons, List.append_assoc, List.cons_append]
      rw [← List.append_assoc]
      exact SameInit.append_cons at_.keysL.symm (fun _ => rfl) after
    · have := sizedTop.atMost p (by simp)
      simpa [slots] using this
    · intro low
      have := sizedTop.atLeast low p (by simp)
      simpa [slots] using this
    · intro _
      obtain ⟨W', w, rfl⟩ := (List.eq_nil_or_concat' W).resolve_left ne
      rw [lastKey_append_cons (c := p) slots,
        lastKey_append_cons (c := ⟨p.off, p.parent, Z ++ { e' with key := lent.key } :: (W' ++ [w])⟩)
          (X := Z) (Y := W' ++ [w]) rfl]
      simp
  refine ⟨_, ⟨.level linkedUp' ?_ ?_ ?_ top, by simp, by simp, by simp, by rw [info], ?_⟩⟩
  · rw [listed']
    simp
  · have keys := short.keyed ok
    simpa [items] using keys
  · have halfD := short.sized.atMost d (by simp)
    have first := short.sized.refill (c := c) (d := ⟨c.off, c.parent, K ++ [lent]⟩)
      (by simp) (by simp only [List.length_append, List.length_singleton]; rw [len]; decide)
      (by intro _; simp only [List.length_append, List.length_singleton]; omega)
    have second := Sized.refill (L := L ++ [⟨c.off, c.parent, K ++ [lent]⟩]) (R := R)
      (c := d) (d := ⟨d.off, d.parent, J⟩) (by simpa using first) filledJ (by show J.length ≤ _; omega)
      (by intro _; show _ ≤ J.length; omega)
    simpa using second
  · rw [info]
    simp

end Short

end Fdfs2qq.Bpt
