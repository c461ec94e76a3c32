import Fdfs2qq.Bpt.Separators
import Fdfs2qq.Bpt.CallProofs

/-! The boundary between two neighbouring leaves, whose parents may differ. It is
a separator of their lowest common ancestor, and the key in the last slot of
every node below it on the side of the left leaf. A record that moves from one
leaf to the other moves this boundary and no other. -/
namespace Fdfs2qq.Bpt
open Lib

/-- `x`, a child of `p`, stands before `y`, a child of `q`. The path has the slots
with the key between them, from `p` up to the node above both. -/
inductive MeetsAt (f : File) : Offset → Offset → Offset → Offset → List (Offset × Nat) → Prop where
  | here : f.get p = some ⟨h, .internal (X ++ e :: e' :: Y)⟩ →
      MeetsAt f e.child p e'.child p [(p, X.length)]
  | up : f.get p = some ⟨h, .internal (X ++ [e])⟩ → f.get q = some ⟨h', .internal (e' :: Y)⟩ →
      MeetsAt f p h.parent q h'.parent path → MeetsAt f e.child p e'.child q ((p, X.length) :: path)

def Block.rekey (n : Key) : Option Nat → Block → Block
  | some i, ⟨h, .internal slots⟩ => ⟨h, .internal (slots.modify i fun slot => { slot with key := n })⟩
  | _, b => b

theorem Block.rekey_none (n : Key) (b : Option Block) : b.map (Block.rekey n none) = b := by
  cases b <;> rfl

namespace BPlusTree

/-- The nodes `change_parent_child(parent, o, n)` maps, one after the other. -/
def changedParents (t : BPlusTree) (parent : Offset) (o n : Key) : Nat → List Offset
  | 0 => []
  | fuel + 1 => parent ::
    match t.map Index parent with
    | .error _ => []
    | .ok node =>
      let w := findIndex node o
      match assertSlot node.children w with
      | .error _ => []
      | .ok slot =>
        let t := t.unmap { node with children := node.children.set w { slot with key := n } } parent
        if w = node.children.length - 1 then t.changedParents node.parent o n fuel else []

end BPlusTree

/-- The path a climb with the key `o` takes from `p`: up while it ends at a last slot. -/
inductive Climbs (f : File) (o : Key) : Offset → List (Offset × Nat) → Prop where
  | stop {c : Cell Index} : c.Holds f next prev → c.items = X ++ e :: Y → Y ≠ [] →
      findIndex (c.node next prev) o = X.length → Climbs f o c.off [(c.off, X.length)]
  | up {c : Cell Index} : c.Holds f next prev → c.items = X ++ [e] →
      findIndex (c.node next prev) o = X.length → Climbs f o c.parent path →
      Climbs f o c.off ((c.off, X.length) :: path)

theorem Climbs.frame (climbs : Climbs f o p path) (same : ∀ s ∈ path, f'.get s.1 = f.get s.1) :
    Climbs f' o p path := by
  induction climbs with
  | stop held items more found => exact .stop (held.of_get_eq (same _ List.mem_cons_self)) items more found
  | up held items found _ ih =>
    exact .up (held.of_get_eq (same _ List.mem_cons_self)) items found
      (ih fun s mem => same s (List.mem_cons_of_mem _ mem))

namespace BPlusTree

theorem changedParents_step {t : BPlusTree} {c : Cell Index} {X Y : List Index} {e : Index}
    (held : c.Holds t.file next prev) (items : c.items = X ++ e :: Y)
    (found : findIndex (c.node next prev) o = X.length) (n : Key) (fuel : Nat) :
    t.changedParents c.off o n (fuel + 1) = c.off ::
      if Y = [] then (t.unmap ((⟨c.off, c.parent, X ++ { e with key := n } :: Y⟩ : Cell Index).node
        next prev) c.off).changedParents c.parent o n fuel
      else [] := by
  obtain ⟨last, here, there⟩ := rekeyed items n
  simp only [changedParents, held.map, found]
  simp only [Cell.node, here, there, last]

theorem get_rekey {t : BPlusTree} {c : Cell Index} {X Y : List Index} {e : Index}
    (held : c.Holds t.file next prev) (items : c.items = X ++ e :: Y) (n : Key) (off : Offset) :
    (t.unmap ((⟨c.off, c.parent, X ++ { e with key := n } :: Y⟩ : Cell Index).node next prev)
      c.off).file.get off = (t.file.get off).map (Block.rekey n ([(c.off, X.length)].lookup off)) := by
  by_cases here : off = c.off
  · subst here
    have block : t.file.get c.off = some ⟨⟨c.parent, next, prev⟩, .internal (X ++ e :: Y)⟩ := items ▸ held
    rw [get_unmap_self, block]
    simp [Cell.node, Block.rekey, NodeType.body]
  · have other : [(c.off, X.length)].lookup off = none := by simp [here]
    rw [get_unmap_ne _ _ here, other, Block.rekey_none]

/-- The climb rewrites the slots of its path and nothing else. -/
theorem changeParentChild_climbs {t : BPlusTree} {path : List (Offset × Nat)} (n : Key)
    (climbs : Climbs t.file o p path) (distinct : (path.map Prod.fst).Nodup) (enough : path.length ≤ fuel) :
    ∃ t', t.changeParentChild p o n fuel = .ok t' ∧ t.changedParents p o n fuel = path.map Prod.fst ∧
      ∀ off, t'.file.get off = (t.file.get off).map (Block.rekey n (path.lookup off)) := by
  induction path generalizing t p fuel with
  | nil => cases climbs
  | cons s path ih =>
    obtain ⟨m, rfl⟩ : ∃ m, fuel = m + 1 := ⟨fuel - 1, by simp only [List.length_cons] at enough; omega⟩
    cases climbs with
    | stop held items more found =>
      rw [changeParentChild_step held items found, changedParents_step held items found, if_neg more,
        if_neg more]
      exact ⟨_, rfl, rfl, get_rekey held items n⟩
    | @up _ _ X _ _ c held items found above =>
      obtain ⟨apart, distinct⟩ := List.nodup_cons.mp distinct
      have written := get_rekey held items n
      have alone : ∀ off ≠ c.off, [(c.off, X.length)].lookup off = none := fun off ne => by simp [ne]
      obtain ⟨t', run, visited, changed⟩ := ih (above.frame fun s mem => by
        have ne : s.1 ≠ c.off := fun same => apart (List.mem_map.mpr ⟨s, mem, same⟩)
        rw [written, alone _ ne, Block.rekey_none]) distinct (Nat.le_of_succ_le_succ enough)
      rw [changeParentChild_step held items found, changedParents_step held items found, if_pos rfl,
        if_pos rfl]
      refine ⟨t', run, by rw [visited]; rfl, fun off => ?_⟩
      rw [changed, written]
      by_cases here : off = c.off
      · subst here
        have above : path.lookup c.off = none := by
          rw [List.lookup_eq_none_iff]
          exact fun s mem => bne_iff_ne.mpr fun same => apart (List.mem_map.mpr ⟨s, mem, same.symm⟩)
        rw [above, Block.rekey_none]
        simp
      · rw [alone off here, Block.rekey_none, List.lookup_cons, beq_false_of_ne here]

end BPlusTree

/-- Two neighbours of a row meet in the levels above it, and a key that is routed to
the first of them climbs along their boundary. -/
theorem Tower.meets {f : File} {root : Offset} {lower A B : List (Offset × Offset)}
    {bounds U V : List Key} {u o : Key} {levels : List (List (Cell Index))} {x p y q : Offset}
    (tower : Tower f root lower bounds levels) (place : lower = A ++ (x, p) :: (y, q) :: B)
    (fences : bounds = U ++ u :: V) (len : U.length = A.length) (asc : Ascending bounds)
    (route : Routes o U u V) : ∃ path, MeetsAt f x p y q path ∧ Climbs f o p path ∧
      (path.map Prod.fst).Sublist (levelOffs levels) := by
  induction tower generalizing A B U V x p y q u with
  | top =>
    have alone := congrArg List.length place
    simp only [List.length_append, List.length_cons, List.length_nil] at alone
    omega
  | @level row lower bounds rest linked listed keyed sized upper ih =>
    subst place fences
    obtain ⟨L, c, R, X, e, Y, rfl, items, rfl, rfl, before, after, keysU, here, keysV⟩ :=
      level_split listed keyed len
    obtain ⟨found, up⟩ := route.level asc items sized.nonempty keysU here keysV (firstOff R) (lastOff L)
    obtain ⟨_, held, right⟩ := LinkedRow.at_iff.mp linked
    have block : f.get c.off = some ⟨⟨c.parent, firstOff R, lastOff L⟩, .internal c.items⟩ := held
    rw [items] at block
    have own : [c.off].Sublist (offsets (L ++ c :: R)) :=
      List.singleton_sublist.mpr (mem_offsets (by simp))
    cases Y with
    | cons e' Y =>
      simp only [slotKids_cons, List.cons_append, List.cons.injEq, Prod.mk.injEq] at after
      obtain ⟨⟨rfl, rfl⟩, -⟩ := after
      refine ⟨_, .here block, .stop held items (List.cons_ne_nil e' Y) found, ?_⟩
      exact own.trans (List.sublist_append_left _ _)
    | nil =>
      -- the right neighbour is the first child of the next cell
      cases R with
      | nil => simp at after
      | cons d R =>
        obtain ⟨e', Y, itemsD⟩ := List.exists_cons_of_ne_nil (sized.nonempty d (by simp))
        obtain ⟨heldD, -⟩ := right
        have blockD : f.get d.off = some ⟨⟨d.parent, firstOff R, c.off⟩, .internal d.items⟩ := heldD
        simp only [slotKids_nil, List.nil_append, kids_cons, itemsD, slotKids_cons, List.cons_append,
          List.cons.injEq, Prod.mk.injEq] at after
        obtain ⟨⟨rfl, rfl⟩, -⟩ := after
        obtain ⟨path, meets, climbs, sub⟩ := ih (ids_append L (c :: d :: R)) (uppers_append L (c :: d :: R))
          (by simp) ((asc.of_sameInit keyed).uppers sized.nonempty) up
        rw [itemsD] at blockD
        exact ⟨_, .up block blockD meets, .up held items found climbs, own.append sub⟩

theorem mem_levelOffs_rowsAbove {t : BPlusTree} (mem : off ∈ levelOffs (rowsAbove t n)) :
    ∃ d < n, off ∈ (t.row d).map Place.off := by
  induction n with
  | zero => cases mem
  | succ n ih =>
    rw [rowsAbove, levelOffs_cons, List.mem_append] at mem
    rcases mem with here | above
    · rw [offsets, List.map_map] at here
      exact ⟨n, Nat.lt_succ_self n, here⟩
    · obtain ⟨d, less, mem⟩ := ih above
      exact ⟨d, Nat.lt_succ_of_lt less, mem⟩

namespace BPlusTree

/-- Every record is found in the leaf that has it. -/
theorem WellFormed.routed {t : BPlusTree} (wf : t.WellFormed) (mem : p ∈ t.row t.info.height)
    (inside : r ∈ t.file.leafRecords p.off) : t.searchLeaf r.key = .ok p.off := by
  have separated : t.SeparatedBelow ⟨t.info.rootOffset, 0, none, none⟩ t.info.height := by
    intro d less q inRow
    rw [← row_eq_placesBelow] at inRow
    obtain ⟨next, prev, slots, read, -, fits, -⟩ := (wf.internal d less q inRow).cell
    apply (separatedAt_iff (map_of_get read)).mpr
    exact ⟨fits.nonempty, fits.sorted, fits.inside⟩
  have takes : p.Takes r.key := by
    obtain ⟨next, prev, records, read, -, -, takes, -⟩ := (wf.leaf p mem).cell
    rw [File.leafRecords, read] at inside
    exact takes r inside
  have reached := searchIndexFrom_of_takes separated (row_eq_placesBelow t _ ▸ mem) takes
  obtain ⟨m, height⟩ : ∃ m, t.info.height = m + 1 := ⟨t.info.height - 1, by have := wf.tall; omega⟩
  rw [height, searchIndexFrom_last] at reached
  rw [searchLeaf, searchIndex, height]
  exact reached

/-- A record moved between the neighbouring leaves `left` and `right`, and the
boundary between them with it. The climb started at the parent of the left leaf,
which had these records. -/
structure Reshares (t done : BPlusTree) (left right : Place) (records : List Record) : Prop where
  wellFormed : done.WellFormed
  routed : ∀ p ∈ done.row done.info.height, ∀ r ∈ done.file.leafRecords p.off, done.searchLeaf r.key = .ok p.off
  boundary : ∃ path o first, records.head?.map Record.key = some o ∧
    (done.file.leafRecords right.off).head?.map Record.key = some first ∧
    MeetsAt t.file left.off left.parent right.off right.parent path ∧
    t.changedParents left.parent o first t.climbFuel = path.map Prod.fst ∧
    (∀ s ∈ path, s.1 ≠ 0 ∧ ∃ d < t.info.height, s.1 ∈ (t.row d).map Place.off) ∧
    ∀ off, off ≠ left.off → off ≠ right.off →
      done.file.get off = (t.file.get off).map (Block.rekey first (path.lookup off))

end BPlusTree

section Resharing

variable {t t₁ done : BPlusTree} {A B : List (Cell Record)} {left right : Place} {U V bounds : List Key}
  {u w : Key} {I K : List Record}

theorem Shape.reshares {first : Key} {o : Record} {levels : List (List (Cell Index))}
    (shape : Shape t (A ++ leafCell t.file left :: leafCell t.file right :: B) (U ++ w :: u :: V)
      (rowsAbove t t.info.height))
    (len : U.length = A.length) (head : K.head? = some o) (routed : Routes o.key U w (u :: V))
    (run : t.changeParentChild left.parent o.key first t.climbFuel = .ok t₁)
    (shape' : Shape done (A ++ ⟨left.off, left.parent, I⟩ :: ⟨right.off, right.parent, J⟩ :: B) bounds levels)
    (lead : J.head?.map Record.key = some first)
    (same : ∀ off, off ≠ left.off → off ≠ right.off → done.file.get off = t₁.file.get off)
    (laid : done.EndToEnd) : BPlusTree.Reshares t done left right K := by
  obtain ⟨path, meets, climbs, sub⟩ := shape.tower.meets (x := left.off) (p := left.parent) (y := right.off)
    (q := right.parent) (ids_append A _) rfl (by simpa using len) shape.fenced.ascending routed
  have distinct := shape.placed.right.distinct.sublist sub
  have enough := File.length_le_blocks distinct fun off mem => shape.tower.written off (sub.subset mem)
  rw [List.length_map] at enough
  obtain ⟨t', run', visited, changed⟩ := BPlusTree.changeParentChild_climbs first climbs distinct
    (show path.length ≤ t.climbFuel from enough.trans (Nat.le_succ _))
  obtain rfl := Except.ok.inj (run.symm.trans run')
  have wf := shape'.wellFormed laid
  refine ⟨wf, fun p mem r inside => wf.routed mem inside, path, o.key, first, by rw [head]; rfl, ?_, meets,
    visited, fun s mem => ?_, fun off notLeft notRight => ?_⟩
  · rw [shape'.leafRecords_eq ⟨right.off, right.parent, J⟩ (by simp), lead]
  · have above := sub.subset (List.mem_map_of_mem mem)
    exact ⟨ne_of_mem_of_not_mem above shape.placed.right.positive, mem_levelOffs_rowsAbove above⟩
  · rw [same off notLeft notRight, changed]

theorem BPlusTree.WellFormed.neighbours (wf : t.WellFormed) {before after : List Place}
    (row : t.row t.info.height = before ++ left :: right :: after) :
    ∃ A B U w u V, U.length = A.length ∧ Shape t (A ++ leafCell t.file left :: leafCell t.file right :: B)
      (U ++ w :: u :: V) (rowsAbove t t.info.height) := by
  obtain ⟨bounds, shape⟩ := wf.shape
  rw [row, List.map_append, List.map_cons, List.map_cons] at shape
  have lens := shape.fenced.len
  simp only [List.length_append, List.length_cons] at lens
  obtain ⟨U, w, W, rfl, lenU⟩ := exists_split_of_le (i := (before.map (leafCell t.file)).length)
    shape.bounds_ne_nil (by rw [List.length_dropLast]; omega)
  rw [List.length_append, List.length_cons] at lens
  obtain ⟨u, V, rfl⟩ := List.exists_cons_of_ne_nil (show W ≠ [] from fun empty => by
    rw [empty, List.length_nil] at lens
    omega)
  exact ⟨_, _, U, w, u, V, lenU, shape⟩

end Resharing

namespace BPlusTree

/-- A leaf that is one record short after a deletion takes a record from a neighbour
that has more than it needs, whoever the parents of the two are. -/
theorem borrowRecord_reshares (t : BPlusTree) (fromRight : Bool) (before after : List Place)
    (left right : Place) (leaf lender : Node Record) (i : Nat) (wf : t.WellFormed)
    (row : t.row t.info.height = before ++ left :: right :: after)
    (read : t.map Record (if fromRight then left else right).off = .ok leaf)
    (read' : t.map Record (if fromRight then right else left).off = .ok lender)
    (inside : i < leaf.children.length) (short : (leaf.children.eraseIdx i).length < bpOrder / 2)
    (more : bpOrder / 2 < lender.children.length) : ∃ t' leaf' done,
    t.borrowRecord fromRight { leaf with children := leaf.children.eraseIdx i } = .ok (true, t', leaf') ∧
      done = t'.unmap leaf' (if fromRight then left else right).off ∧
      Reshares t done left right (if fromRight then leaf.children.eraseIdx i else lender.children) ∧
      ∃ P S, t.records = P ++ leaf.children ++ S ∧ done.records = P ++ leaf.children.eraseIdx i ++ S := by
  obtain ⟨A, B, U, w, u, V, len, shape⟩ := wf.neighbours row
  have pair := shape.fenced.pair len
  obtain ⟨_, heldL, heldR, _⟩ := LinkedRow.at_iff.mp shape.linked
  have atLeast := shape.filled.atLeast (by simp only [List.length_append, List.length_cons]; omega)
  have whole := shape.records_eq
  have sub := List.eraseIdx_sublist leaf.children i
  cases fromRight with
  | true =>
    obtain rfl := Except.ok.inj (read.symm.trans heldL.map)
    obtain rfl := Except.ok.inj (read'.symm.trans heldR.map)
    have short' : (leafCell t.file left).items.length - 1 < bpOrder / 2 := by
      rwa [List.length_eraseIdx_of_lt inside] at short
    have enough := atLeast (leafCell t.file left) (by simp)
    obtain ⟨lent, rest, split⟩ := List.exists_cons_of_ne_nil
      (show (leafCell t.file right).items ≠ [] from List.ne_nil_of_length_pos (Nat.zero_lt_of_lt more))
    obtain ⟨j, J, rfl⟩ := List.exists_cons_of_ne_nil
      (show rest ≠ [] from fun empty => by simp [Cell.node, split, empty, bpOrder] at more)
    obtain ⟨k, t₁, levels', head, run, borrowed, shape'⟩ := borrowRecord_right shape len split more sub
      (by rw [List.length_eraseIdx_of_lt inside]; simp only [Cell.node]; omega)
    have routed := pair.first k (sub.subset (List.mem_of_mem_head? head))
    refine ⟨_, _, _, borrowed, rfl, shape.reshares len head routed run shape' rfl ?_
      (wf.laid.borrowRecord read _ borrowed), contents A, lent :: j :: J ++ contents B, ?_, ?_⟩
    · intro off notLeft notRight
      exact (get_unmap_ne _ _ notLeft).trans (get_unmap_ne _ _ notRight)
    · rw [whole, contents_append, contents_cons, contents_cons, split, List.append_assoc]
      rfl
    · apply shape'.records_eq.trans
      simp [Cell.node]
  | false =>
    obtain rfl := Except.ok.inj (read.symm.trans heldR.map)
    obtain rfl := Except.ok.inj (read'.symm.trans heldL.map)
    have short' : (leafCell t.file right).items.length - 1 < bpOrder / 2 := by
      rwa [List.length_eraseIdx_of_lt inside] at short
    have enough := atLeast (leafCell t.file right) (by simp)
    obtain ⟨I, lent, split⟩ := (List.eq_nil_or_concat' (leafCell t.file left).items).resolve_left
      (List.ne_nil_of_length_pos (Nat.zero_lt_of_lt more))
    obtain ⟨o, t₁, levels', head, run, borrowed, shape'⟩ := borrowRecord_left shape len split more sub
      (by rw [List.length_eraseIdx_of_lt inside]; simp only [Cell.node]; omega)
    have routed := pair.first o (List.mem_of_mem_head? head)
    refine ⟨_, _, _, borrowed, rfl, shape.reshares len head routed run shape' rfl ?_
      (wf.laid.borrowRecord read _ borrowed), contents A ++ (leafCell t.file left).items, contents B, ?_, ?_⟩
    · intro off notLeft notRight
      exact (get_unmap_ne _ _ notRight).trans (get_unmap_ne _ _ notLeft)
    · rw [whole, contents_append, contents_cons, contents_cons]
      simp [Cell.node]
    · apply shape'.records_eq.trans
      simp [Cell.node, split]

end BPlusTree

namespace Grown

def shortLeaf : Node Record :=
  ⟨⟨72, 16856, 14072⟩, (List.range 10).map fun j => ⟨Packed.number (110 + j), 0⟩⟩

def longLeaf : Node Record :=
  ⟨⟨30776, 18248, 15464⟩, (List.range 11).map fun j => ⟨Packed.number (121 + j), 0⟩⟩

def trimmed : BPlusTree := tree.unmap shortLeaf 15464

def left : Place := ⟨15464, 72, some (Packed.number 110), some (Packed.number 121)⟩

def right : Place := ⟨16856, 30776, some (Packed.number 121), some (Packed.number 132)⟩

end Grown

namespace BPlusTree

/-- The leaves have different parents. -/
theorem borrowRecord_reshares_grown : ∃ t' leaf' done, Grown.trimmed.borrowRecord true
      { Grown.shortLeaf with children := Grown.shortLeaf.children.eraseIdx 0 } = .ok (true, t', leaf') ∧
    Grown.trimmed.Reshares done Grown.left Grown.right (Grown.shortLeaf.children.eraseIdx 0) := by
  obtain ⟨t', leaf', done, run, -, reshares, -⟩ := borrowRecord_reshares Grown.trimmed true
    ((Grown.trimmed.row 2).take 10) ((Grown.trimmed.row 2).drop 12) Grown.left Grown.right
    Grown.shortLeaf Grown.longLeaf 0 (by decide +kernel) (by decide +kernel) (by decide +kernel)
    (by decide +kernel) (by decide) (by decide) (by decide)
  exact ⟨t', leaf', done, run, reshares⟩

example : Grown.trimmed.changedParents 72 (Packed.number 111) (Packed.number 122)
    Grown.trimmed.climbFuel = [72, 32248] := by decide +kernel

end BPlusTree
end Fdfs2qq.Bpt
