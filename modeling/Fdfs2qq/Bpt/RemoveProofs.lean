import Fdfs2qq.Bpt.LeafProofs

/-! `remove` on a tree with given rows. Two leaves are merged under one parent,
and the climb of `remove_from_index` starts there. -/
namespace Fdfs2qq.Bpt
open Lib

/-- What `remove` leaves of the records `P ++ r :: S`, with the defects `remove_defects`
predicts. -/
structure Removed (run : Except Fault (Int × BPlusTree)) (defects : List Defect)
    (leaves : List (Cell Record)) (P S : List Record) : Prop where
  fault : .overrun ∈ defects → run = .error .bounds
  fine : .overrun ∉ defects → ∃ t' leaves', run = .ok (0, t') ∧ LinkedRow t'.file leaves' ∧
    (offsets leaves').Sublist (offsets leaves) ∧ t'.info.leafOffset = firstOff leaves' ∧
    contents leaves' = P ++ S ∧ (defects = [] → ∃ bounds' levels', Shape t' leaves' bounds' levels')

theorem Removed.of_shape {leaves leaves' : List (Cell Record)} (ok : run = .ok (0, t'))
    (shape : Shape t' leaves' bounds' levels') (same : offsets leaves' = offsets leaves)
    (eq : contents leaves' = P ++ S) : Removed run [] leaves P S :=
  ⟨by simp, fun _ => ⟨t', leaves', ok, shape.linked, same ▸ List.Sublist.refl _, shape.leafOffset, eq,
    fun _ => ⟨bounds', levels', shape⟩⟩⟩

variable {t t' : BPlusTree} {A B : List (Cell Record)} {a b x : Cell Record} {U V : List Key}
  {u w k : Key} {L R : List (Cell Index)} {c : Cell Index} {X Y : List Index} {e ea eb : Index}
  {rest : List (List (Cell Index))} {items P S : List Record} {r : Record}

/-- `c` lists the neighbouring leaves `a` and `b` in the slots `ea` and `eb`. -/
structure Twins (A : List (Cell Record)) (a b : Cell Record) (B : List (Cell Record)) (U : List Key)
    (w u : Key) (V : List Key) (L : List (Cell Index)) (c : Cell Index) (R : List (Cell Index))
    (X : List Index) (ea eb : Index) (Y : List Index) : Prop extends LeafPair A a b B U w u V where
  slots : c.items = X ++ ea :: eb :: Y
  child : ea.child = a.off
  owner : a.parent = c.off
  before : ids A = kids L ++ slotKids c.off X
  after : ids B = slotKids c.off Y ++ kids R
  keysU : U = rowKeys L ++ X.map Index.key
  bound : ea.key = w
  keysV : SameInit ((eb :: Y).map Index.key ++ rowKeys R) (u :: V)

theorem Located.twins_right (at_ : Located t k A x B U u V L c R X e Y) (ne : Y ≠ [])
    (fenced : Fenced (A ++ x :: B) (U ++ u :: V)) :
    ∃ b B' v V' g Y', B = b :: B' ∧ V = v :: V' ∧ Y = g :: Y' ∧ b.parent = c.off ∧
      Twins A x b B' U u v V' L c R X e g Y' := by
  obtain ⟨g, Y', rfl⟩ := List.exists_cons_of_ne_nil ne
  have after := at_.listedB
  rw [slotKids_cons, List.cons_append] at after
  obtain ⟨b, B', rfl, pair, hB⟩ := List.map_eq_cons_iff.mp after
  have lenB := at_.around.lenB
  obtain ⟨v, V', rfl⟩ := List.exists_cons_of_ne_nil (show V ≠ [] from fun empty => by simp [empty] at lenB)
  refine ⟨b, B', v, V', g, Y', rfl, rfl, rfl, (Prod.mk.inj pair).2, fenced.pair at_.around.lenA,
    at_.items, at_.child, at_.owner.symm, at_.listedA, hB, at_.keysU, at_.keyHere (by simp), at_.keysV⟩

theorem Located.twins_left (at_ : Located t k A x B U u V L c R X e Y) (ne : X ≠ [])
    (fenced : Fenced (A ++ x :: B) (U ++ u :: V)) :
    ∃ A' a U' w X' f, A = A' ++ [a] ∧ U = U' ++ [w] ∧ X = X' ++ [f] ∧ a.parent = c.off ∧
      Twins A' a x B U' w u V L c R X' f e Y := by
  obtain ⟨X', f, rfl⟩ := (List.eq_nil_or_concat' X).resolve_left ne
  have before := at_.listedA
  rw [slotKids_append, ← List.append_assoc] at before
  obtain ⟨A', D, rfl, hA, hD⟩ := List.map_eq_append_iff.mp before
  obtain ⟨a, rest', rfl, pair, alone⟩ := List.map_eq_cons_iff.mp hD
  obtain rfl := List.map_eq_nil_iff.mp alone
  obtain ⟨child, parent⟩ := Prod.mk.inj pair
  have keysU := at_.keysU
  simp only [List.map_append, List.map_cons, List.map_nil] at keysU
  rw [← List.append_assoc] at keysU
  have lenA := at_.around.lenA
  simp only [keysU, List.length_append, List.length_singleton (a := f.key),
    List.length_singleton (a := a)] at lenA
  subst keysU
  refine ⟨A', a, rowKeys L ++ X'.map Index.key, f.key, X', f, rfl, rfl, rfl, parent, ?_, ?_,
    child.symm, parent, hA, at_.listedB, rfl, rfl, ?_⟩
  · exact Fenced.pair (by simpa using fenced) (by simp only [List.length_append]; omega)
  · simp [at_.items]
  · exact SameInit.append_cons (A := []) rfl
      (fun filled => at_.keyHere fun empty => filled (at_.keysV.nil_iff.mpr empty)) at_.keysV

/-- Two leaves became `a` with these records, and a separator of `r` goes next. -/
structure Joined (t t' : BPlusTree) (A : List (Cell Record)) (a b : Cell Record)
    (B : List (Cell Record)) (items : List Record) (r : Record) : Prop where
  info : t'.info = (t.unalloc Record).info
  linked : LinkedRow t'.file (A ++ ⟨a.off, a.parent, items⟩ :: B)
  frame : ∀ o ∉ offsets (A ++ a :: b :: B), t'.file.get o = t.file.get o
  mem : r ∈ a.items
  sub : items.Sublist (a.items ++ b.items)
  atMost : items.length ≤ bpOrder
  atLeast : bpOrder / 2 ≤ items.length

namespace Twins

theorem keys (twins : Twins A a b B U w u V L c R X ea eb Y) :
    SameInit (thinKeys L X eb Y R) (U ++ u :: V) := by
  have joined := twins.keysV.append_left U
  rw [twins.keysU] at joined ⊢
  simpa only [thinKeys, List.map_append, List.append_assoc] using joined

theorem findIndex (twins : Twins A a b B U w u V L c R X ea eb Y)
    (nonempty : ∀ d ∈ L ++ c :: R, d.items ≠ []) (mem : r ∈ a.items) (next prev : Offset) :
    findIndex (c.node next prev) r.key = X.length :=
  (Routes.level (twins.first r mem) twins.ascending twins.slots nonempty twins.keysU
    (fun _ => twins.bound) twins.keysV next prev).1

theorem stepping (twins : Twins A a b B U w u V L c R X ea eb Y)
    (shape : Shape t (A ++ a :: b :: B) (U ++ w :: u :: V) ((L ++ c :: R) :: rest))
    (joined : Joined t t' A a b B items r) :
    Stepping t t' (A ++ ⟨a.off, a.parent, items⟩ :: B) L c R X ea eb Y rest 0 false r.key := by
  obtain ⟨info, linked, frame, mem, -⟩ := joined
  obtain ⟨linkedUp, _, keyed, sized, upper⟩ := shape.tower.level_inv
  have root : t'.info.rootOffset = t.info.rootOffset := by rw [info]; rfl
  have high : t'.info.height = t.info.height := by rw [info]; rfl
  have kept : ∀ o ∈ offsets (L ++ c :: R) ++ levelOffs rest, t'.file.get o = t.file.get o :=
    fun o mem => frame o (shape.placed.apart' mem)
  refine ⟨⟨linked, ?_, twins.slots, ?_, shape.fenced.ascending.of_sameInit keyed, sized, ?_, ?_, ?_, ?_,
    ?_⟩, by simp, ?_, fun o mem => (kept o mem).symm, root.symm, high.symm⟩
  · exact linked_frame (fun o mem => kept o (List.mem_append_left _ mem)) linkedUp
  · simp [twins.before, twins.after, twins.child, twins.owner]
  · rw [root]
    exact upper.frame fun o mem => kept o (List.mem_append_right _ mem)
  · rw [show t'.info.slot = t.info.slot by rw [info]; rfl]
    refine shape.placed.sublist (List.Sublist.append ?_ (List.Sublist.refl _))
    simp
  · rw [info]
    exact shape.order
  · rw [info]
    exact shape.internalNodeNum
  · rw [high, shape.height]
    simp
  · rw [twins.findIndex sized.nonempty mem]
    simp

theorem firstOff_merged (b : Cell Record) {lower' : List (Cell Record)}
    (same : bodies lower' = bodies (A ++ ⟨a.off, p, items⟩ :: B)) :
    firstOff lower' = firstOff (A ++ a :: b :: B) := by
  have first : firstOff lower' = firstOff (A ++ ⟨a.off, p, items⟩ :: B) :=
    firstAddr_map (offsets_of_bodies same)
  rw [first]
  cases A <;> rfl

theorem shape {t'' : BPlusTree} {lower' : List (Cell Record)} {levels' : List (List (Cell Index))}
    (twins : Twins A a b B U w u V L c R X ea eb Y)
    (shape : Shape t (A ++ a :: b :: B) (U ++ w :: u :: V) ((L ++ c :: R) :: rest))
    (joined : Joined t t' A a b B items r)
    (kept : Kept t' t'' (A ++ ⟨a.off, a.parent, items⟩ :: B) lower' (levelOffs ((L ++ c :: R) :: rest)))
    (thinned : Thinned t' t'' lower' (thinKeys L X eb Y R) ((L ++ c :: R) :: rest) levels') :
    Shape t'' lower' (U ++ u :: V) levels' := by
  obtain ⟨info, -, -, -, sub, atMost, atLeast⟩ := joined
  have order : t'.info.order = t.info.order := by rw [info]; rfl
  have height : t'.info.height = t.info.height := by rw [info]; rfl
  have leafNodeNum : t'.info.leafNodeNum = t.info.leafNodeNum - 1 := by rw [info]; rfl
  have internalNodeNum : t'.info.internalNodeNum = t.info.internalNodeNum := by rw [info]; rfl
  have leafOffset : t'.info.leafOffset = t.info.leafOffset := by rw [info]; rfl
  have slot : t'.info.slot = t.info.slot := by rw [info]; rfl
  have count := length_of_bodies kept.same
  simp only [List.length_append, List.length_cons] at count
  refine ⟨kept.row, thinned.tower.of_sameInit twins.keys, thinned.indexed, ?_,
    LeafSized.of_bodies kept.same.symm ⟨fun d mem => ?_, fun many d mem => ?_⟩, ?_, ?_, ?_, ?_, ?_, ?_⟩
  · refine Fenced.of_bodies kept.same.symm (twins.around.fill (M := [⟨a.off, a.parent, items⟩]) (W := [])
      ⟨rfl, ?_, ?_, ?_⟩ ?_ twins.ascending.skip)
    · intro d mem
      obtain rfl := List.mem_singleton.mp mem
      exact twins.sorted.sublist sub
    · exact List.Pairwise.nil
    · exact List.pairwise_singleton _ _
    · simpa using fun s mem => twins.routed s (sub.subset mem)
  · simp only [List.mem_append, List.mem_cons] at mem
    rcases mem with mem | rfl | mem
    · exact shape.filled.atMost d (by simp [mem])
    · exact atMost
    · exact shape.filled.atMost d (by simp [mem])
  · simp only [List.mem_append, List.mem_cons] at mem
    rcases mem with mem | rfl | mem
    · exact shape.filled.atLeast (by simp only [List.length_append, List.length_cons]; omega) d
        (by simp [mem])
    · exact atLeast
    · exact shape.filled.atLeast (by simp only [List.length_append, List.length_cons]; omega) d
        (by simp [mem])
  · rw [kept.slot, slot, offsets_of_bodies kept.same]
    exact shape.placed.sublist (List.Sublist.append (by simp) thinned.sub)
  · rw [kept.order, order]
    exact shape.order
  · rw [thinned.height, height, shape.height, thinned.len]
  · rw [kept.leafNodeNum, leafNodeNum, shape.leafNodeNum]
    simp only [List.length_append, List.length_cons]
    omega
  · have := thinned.nodes
    have := shape.internalNodeNum
    omega
  · rw [kept.leafOffset, leafOffset, shape.leafOffset, firstOff_merged b kept.same]

theorem fuel (twins : Twins A a b B U w u V L c R X ea eb Y)
    (shape : Shape t (A ++ a :: b :: B) (U ++ w :: u :: V) ((L ++ c :: R) :: rest))
    (joined : Joined t t' A a b B items r) :
    rest.length ≤ t'.file.blocks.length ∧ rest.length ≤ t.file.blocks.length := by
  have st := twins.stepping shape joined
  refine ⟨st.upper.length_le_blocks st.placed.right.right.distinct, ?_⟩
  have := shape.height_le_fuel
  simp only [List.length_cons] at this
  omega

theorem removed (twins : Twins A a b B U w u V L c R X ea eb Y)
    (shape : Shape t (A ++ a :: b :: B) (U ++ w :: u :: V) ((L ++ c :: R) :: rest))
    (joined : Joined t t' A a b B items r)
    (merged : run = (t'.removeFromIndex c.off (c.node (firstOff R) (lastOff L)) r.key
      t'.climbFuel).map fun t => (0, t))
    (split : contents A ++ (items ++ contents B) = P ++ S) :
    Removed run (t.lossDefects c.off false t.climbFuel) (A ++ a :: b :: B) P S := by
  have st := twins.stepping shape joined
  obtain ⟨fuel, fuel₀⟩ := twins.fuel shape joined
  have climbed := st.climbsThrough rest fuel fuel₀
  constructor
  · intro mem
    rw [merged, BPlusTree.climbFuel_eq, climbed.fault mem]
    rfl
  · intro clean
    obtain ⟨t'', lower', ok, kept, thin⟩ := climbed.fine clean
    refine ⟨t'', lower', ?_, kept.row, ?_, ?_, ?_, fun empty => ?_⟩
    · rw [merged, BPlusTree.climbFuel_eq, ok]
      rfl
    · rw [offsets_of_bodies kept.same]
      simp
    · have leafOffset : t'.info.leafOffset = t.info.leafOffset := by rw [joined.info]; rfl
      rw [kept.leafOffset, leafOffset, shape.leafOffset, firstOff_merged b kept.same]
    · rw [contents_of_bodies kept.same]
      simpa using split
    · obtain ⟨levels', thinned⟩ := thin empty
      exact ⟨_, levels', twins.shape shape joined kept thinned⟩

end Twins

/-- The repair of a short leaf inside `remove`. -/
def BPlusTree.repairLeaf (t : BPlusTree) (leaf : Node Record) (offset parentOff : Offset)
    (parent : Node Index) (isLast : Bool) : Except Fault (Int × BPlusTree) := do
  let (borrowed, t, leaf) ← t.borrowFromNeighbours leaf
  if borrowed then return (0, t.unmap leaf offset)
  else
    let (t, indexKey) ← t.mergeLeaf leaf offset isLast
    return (0, ← t.removeFromIndex parentOff parent indexKey t.climbFuel)

theorem BPlusTree.repairLeaf_borrowed {leaf leaf' : Node Record}
    (borrowed : t.borrowFromNeighbours leaf = .ok (true, t', leaf')) (offset parentOff : Offset)
    (parent : Node Index) (isLast : Bool) :
    t.repairLeaf leaf offset parentOff parent isLast = .ok (0, t'.unmap leaf' offset) := by
  rw [repairLeaf, borrowed]
  rfl

theorem BPlusTree.repairLeaf_merged {leaf : Node Record} {offset : Offset} {isLast : Bool}
    (kept : t.borrowFromNeighbours leaf = .ok (false, t, leaf))
    (merged : t.mergeLeaf leaf offset isLast = .ok (t', indexKey)) (parentOff : Offset)
    (parent : Node Index) :
    t.repairLeaf leaf offset parentOff parent isLast =
      (t'.removeFromIndex parentOff parent indexKey t'.climbFuel).map fun t => (0, t) := by
  simp only [repairLeaf, kept, bind, Except.bind, Bool.false_eq_true, if_false, merged]
  cases t'.removeFromIndex parentOff parent indexKey t'.climbFuel <;> rfl

namespace Located

theorem removeDefects (at_ : Located t k A x B U u V L c R X e Y) :
    t.removeDefects k =
      if binarySearch (x.node (firstOff B) (lastOff A)) k = true ∧
          t.leafRepairs (x.node (firstOff B) (lastOff A)) = true ∧
          t.leafMerges (x.node (firstOff B) (lastOff A)) = true then
        t.lossDefects c.off false t.climbFuel
      else [] := by
  simp only [BPlusTree.removeDefects, at_.searchIndex, at_.searchLeafFrom, at_.leaf.map]

theorem remove_absent (at_ : Located t k A x B U u V L c R X e Y) (items : x.items = P ++ S)
    (gap : RecordGap k P S) : t.remove k = .ok (-1, t) := by
  have absent := binarySearch_absent (x.node (firstOff B) (lastOff A)) items gap
  have here : slotAt c.items X.length = .ok e := by rw [at_.items, slotAt_append_length]
  simp only [BPlusTree.remove, at_.searchIndex, at_.held.map, at_.found, bind, Except.bind]
  simp only [Cell.node, here, at_.child] at absent ⊢
  have read := at_.leaf.map
  simp only [Cell.node] at read
  simp only [read, absent, Bool.false_eq_true, if_false, pure, Except.pure]

/-- The leaf without the record, before it is repaired. -/
theorem remove_found (at_ : Located t k A x B U u V L c R X e Y) (items : x.items = P ++ r :: S)
    (found : r.key = k) (gap : RecordGap k P S) (order : t.info.order = bpOrder) {minN : Nat}
    (least : (if t.info.leafNodeNum = 1 then 0 else bpOrder / 2) = minN) (enough : minN ≤ x.items.length)
    (atMost : x.items.length ≤ bpOrder) :
    t.remove k =
      if (P ++ S).length < minN then
        t.repairLeaf ((⟨x.off, x.parent, P ++ S⟩ : Cell Record).node (firstOff B) (lastOff A)) x.off
          c.off (c.node (firstOff R) (lastOff L)) (Y = [])
      else .ok (0, t.unmap ((⟨x.off, x.parent, P ++ S⟩ : Cell Record).node (firstOff B) (lastOff A))
        x.off) := by
  subst found
  have present := binarySearch_found (x.node (firstOff B) (lastOff A)) items gap
  have place := findRecord_found (x.node (firstOff B) (lastOff A)) items gap
  have here : slotAt c.items X.length = .ok e := by rw [at_.items, slotAt_append_length]
  have erased : x.items.eraseIdx P.length = P ++ S := by rw [items, eraseIdx_append_length]
  have last : (X.length = c.items.length - 1) = (Y = []) := by
    rw [at_.items, ← List.length_eq_zero_iff]
    simp only [List.length_append, List.length_cons, eq_iff_iff]
    omega
  have read := at_.leaf.map
  simp only [Cell.node] at read present place
  simp only [BPlusTree.remove, at_.searchIndex, at_.held.map, at_.found, bind, Except.bind]
  simp only [Cell.node, here, at_.child, read, present, if_true, order, least, enough, atMost, and_self,
    place, erased, last, BPlusTree.repairLeaf]
  rfl

theorem not_alone (at_ : Located t k A x B U u V L c R X e Y)
    (shape : Shape t (A ++ x :: B) (U ++ u :: V) ((L ++ c :: R) :: rest)) (many : t.info.leafNodeNum ≠ 1)
    (last : Y = []) : X ≠ [] := by
  subst last
  rintro rfl
  obtain ⟨_, _, _, sized, upper⟩ := shape.tower.level_inv
  by_cases top : rest = []
  · subst top
    obtain ⟨rfl, rfl⟩ := upper.single
    have before := congrArg List.length at_.listedA
    have after := congrArg List.length at_.listedB
    simp only [length_ids, kids_nil, slotKids_nil, List.append_nil, List.length_nil] at before after
    rw [shape.leafNodeNum] at many
    simp only [List.length_append, List.length_cons] at many
    omega
  · have := sized.atLeast top c (by simp)
    rw [at_.items] at this
    simp [bpOrder] at this

end Located

namespace Shape

theorem leafMerges_iff {next prev : Offset}
    (shape : Shape t (A ++ x :: B) bounds levels) (next_ : next = firstOff B) (prev_ : prev = lastOff A) :
    t.leafMerges (x.node next prev) = true ↔
      (∀ A' a, A = A' ++ [a] → a.items.length ≤ bpOrder / 2) ∧
        ∀ b B', B = b :: B' → b.items.length ≤ bpOrder / 2 := by
  subst next_ prev_
  have placed := shape.placed.left
  simp only [BPlusTree.leafMerges, Cell.node, decide_eq_true_eq, not_and, not_lt]
  refine and_congr ⟨fun low A' a same => ?_, fun low filled => ?_⟩
    ⟨fun low b B' same => ?_, fun low nonempty => ?_⟩
  · subst same
    obtain ⟨_, held, _⟩ := LinkedRow.at_iff.mp
      (show LinkedRow t.file (A' ++ a :: x :: B) by simpa using shape.linked)
    rw [lastOff_concat, BPlusTree.slotCount_of_holds held] at low
    exact low fun zero => placed.positive (by simp [zero])
  · obtain ⟨A', a, rfl⟩ := (List.eq_nil_or_concat' A).resolve_left fun empty => filled (by rw [empty]; rfl)
    obtain ⟨_, held, _⟩ := LinkedRow.at_iff.mp
      (show LinkedRow t.file (A' ++ a :: x :: B) by simpa using shape.linked)
    rw [lastOff_concat, BPlusTree.slotCount_of_holds held]
    exact low A' a rfl
  · subst same
    obtain ⟨_, _, held, _⟩ := LinkedRow.at_iff.mp shape.linked
    rw [show firstOff (b :: B') = b.off from rfl, BPlusTree.slotCount_of_holds held] at low
    exact low fun zero => placed.positive (by simp [zero])
  · obtain ⟨b, B', rfl⟩ := List.exists_cons_of_ne_nil (show B ≠ [] from fun empty => nonempty (by rw [empty]; rfl))
    obtain ⟨_, _, held, _⟩ := LinkedRow.at_iff.mp shape.linked
    rw [show firstOff (b :: B') = b.off from rfl, BPlusTree.slotCount_of_holds held]
    exact low b B' rfl

theorem left_minimal (shape : Shape t (A ++ x :: B) bounds levels)
    (minimal : ∀ A' a, A = A' ++ [a] → a.items.length ≤ bpOrder / 2) {leaf : Node Record}
    (prev : leaf.prev = lastOff A) :
    leaf.prev = 0 ∨ t.borrowRecord false leaf = .ok (false, t, leaf) := by
  rcases List.eq_nil_or_concat' A with rfl | ⟨A', a, rfl⟩
  · exact Or.inl prev
  · have linked : LinkedRow t.file (A' ++ a :: x :: B) := by simpa using shape.linked
    refine Or.inr (BPlusTree.borrowRecord_none (LinkedRow.at_iff.mp linked).2.1
      (prev.trans (lastOff_concat A' a)) shape.order (le_antisymm (minimal A' a rfl) ?_))
    exact shape.filled.atLeast (by simp only [List.length_append, List.length_cons]; omega) a (by simp)

theorem right_minimal (shape : Shape t (A ++ x :: B) bounds levels)
    (minimal : ∀ b B', B = b :: B' → b.items.length ≤ bpOrder / 2) {leaf : Node Record}
    (next : leaf.next = firstOff B) :
    leaf.next = 0 ∨ t.borrowRecord true leaf = .ok (false, t, leaf) := by
  cases B with
  | nil => exact Or.inl next
  | cons b B' =>
    refine Or.inr (BPlusTree.borrowRecord_none (LinkedRow.at_iff.mp shape.linked).2.2.1
      next shape.order (le_antisymm (minimal b B' rfl) ?_))
    exact shape.filled.atLeast (by simp only [List.length_append, List.length_cons]; omega) b (by simp)

end Shape

namespace Located

theorem removed_left (at_ : Located t k (A ++ [a]) x B (U ++ [w]) u V L c R X e Y)
    (shape : Shape t ((A ++ [a]) ++ x :: B) ((U ++ [w]) ++ u :: V) ((L ++ c :: R) :: rest))
    (items : x.items = P ++ r :: S) (more : bpOrder / 2 < a.items.length)
    (short : (P ++ S).length + 1 = bpOrder / 2)
    (run : t.remove k = t.repairLeaf ((⟨x.off, x.parent, P ++ S⟩ : Cell Record).node (firstOff B)
      (lastOff (A ++ [a]))) x.off c.off (c.node (firstOff R) (lastOff L)) (Y = [])) :
    Removed (t.remove k) [] ((A ++ [a]) ++ x :: B) (contents (A ++ [a]) ++ P) (S ++ contents B) := by
  obtain ⟨I, lent, split⟩ := (List.eq_nil_or_concat' a.items).resolve_left
    fun empty => by simp [empty] at more
  have nonzero : a.off ≠ 0 := fun zero => shape.placed.positive (by simp [zero])
  have shape₁ : Shape t (A ++ a :: x :: B) (U ++ w :: u :: V) ((L ++ c :: R) :: rest) := by
    simpa using shape
  have lenA : U.length = A.length := by simpa using at_.around.lenA
  obtain ⟨_, _, levels', -, -, borrowed, shape'⟩ := BPlusTree.borrowRecord_left shape₁ lenA split more
    (K := P ++ S) (by simp [items]) short
  have repaired := BPlusTree.borrowFromNeighbours_left
    (show ((⟨x.off, x.parent, P ++ S⟩ : Cell Record).node (firstOff B) a.off).prev ≠ 0 from nonzero)
    borrowed
  refine .of_shape ?_ shape' (by simp) (by simp [split])
  rw [run, lastOff_concat, BPlusTree.repairLeaf_borrowed repaired]

theorem removed_right (at_ : Located t k A x (b :: B) U u (v :: V) L c R X e Y)
    (shape : Shape t (A ++ x :: b :: B) (U ++ u :: v :: V) ((L ++ c :: R) :: rest))
    (items : x.items = P ++ r :: S) (more : bpOrder / 2 < b.items.length)
    (short : (P ++ S).length + 1 = bpOrder / 2)
    (left : ∀ A' a, A = A' ++ [a] → a.items.length ≤ bpOrder / 2)
    (run : t.remove k = t.repairLeaf ((⟨x.off, x.parent, P ++ S⟩ : Cell Record).node (firstOff (b :: B))
      (lastOff A)) x.off c.off (c.node (firstOff R) (lastOff L)) (Y = [])) :
    Removed (t.remove k) [] (A ++ x :: b :: B) (contents A ++ P) (S ++ contents (b :: B)) := by
  obtain ⟨lent, J, split⟩ := List.exists_cons_of_ne_nil
    (show b.items ≠ [] from fun empty => by simp [empty] at more)
  obtain ⟨j, J', rfl⟩ := List.exists_cons_of_ne_nil
    (show J ≠ [] from fun vacant => by simp [split, vacant, bpOrder] at more)
  have nonzero : b.off ≠ 0 := fun zero => shape.placed.positive (by simp [zero])
  obtain ⟨_, _, levels', -, -, borrowed, shape'⟩ := BPlusTree.borrowRecord_right shape at_.around.lenA
    split more (K := P ++ S) (by simp [items]) short
  have repaired := BPlusTree.borrowFromNeighbours_right
    (shape.left_minimal left rfl)
    (show ((⟨x.off, x.parent, P ++ S⟩ : Cell Record).node (firstOff (b :: B)) (lastOff A)).next ≠ 0 from
      nonzero) borrowed
  refine .of_shape ?_ shape' (by simp) (by simp [split])
  rw [run, BPlusTree.repairLeaf_borrowed repaired]

theorem joined (at_ : Located t k A x B U u V L c R X e Y)
    (shape : Shape t (A ++ x :: B) (U ++ u :: V) ((L ++ c :: R) :: rest))
    (items : x.items = P ++ r :: S) (short : (P ++ S).length + 1 = bpOrder / 2)
    (many : t.info.leafNodeNum ≠ 1) (left : ∀ A' a, A = A' ++ [a] → a.items.length ≤ bpOrder / 2)
    (right : ∀ b B', B = b :: B' → b.items.length ≤ bpOrder / 2)
    (run : t.remove k = t.repairLeaf ((⟨x.off, x.parent, P ++ S⟩ : Cell Record).node (firstOff B)
      (lastOff A)) x.off c.off (c.node (firstOff R) (lastOff L)) (Y = [])) :
    ∃ A' a b B' U' w u' V' X' ea eb Y' items' r' t', A ++ x :: B = A' ++ a :: b :: B' ∧
      U ++ u :: V = U' ++ w :: u' :: V' ∧ Twins A' a b B' U' w u' V' L c R X' ea eb Y' ∧
      Joined t t' A' a b B' items' r' ∧
      contents A' ++ (items' ++ contents B') = (contents A ++ P) ++ (S ++ contents B) ∧
      t.remove k = (t'.removeFromIndex c.off (c.node (firstOff R) (lastOff L)) r'.key
        t'.climbFuel).map fun t => (0, t) := by
  let leaf := (⟨x.off, x.parent, P ++ S⟩ : Cell Record).node (firstOff B) (lastOff A)
  have kept : t.borrowFromNeighbours leaf = .ok (false, t, leaf) :=
    BPlusTree.borrowFromNeighbours_none (shape.left_minimal left rfl) (shape.right_minimal right rfl)
  by_cases last : Y = []
  · obtain ⟨A', a, U', w, X', f, rfl, rfl, rfl, owner, twins⟩ := at_.twins_left
      (at_.not_alone shape many last) shape.fenced
    have shape₁ : Shape t (A' ++ a :: x :: B) (U' ++ w :: u :: V) ((L ++ c :: R) :: rest) := by
      simpa using shape
    have least := shape₁.filled.atLeast
      (by simp only [List.length_append, List.length_cons]; omega) a (by simp)
    have minimal := left A' a rfl
    obtain ⟨i, I, split⟩ := List.exists_cons_of_ne_nil
      (show a.items ≠ [] from fun empty => by simp [empty, bpOrder] at least)
    obtain ⟨t', merged, info, linked, frame⟩ := BPlusTree.mergeLeaf_left (K := P ++ S) shape₁.linked
      shape₁.placed.left split (by rw [bpOrder] at *; omega)
    refine ⟨A', a, x, B, U', w, u, V, X', f, e, Y, a.items ++ (P ++ S), i, t', by simp, by simp, twins,
      ⟨info, linked, frame, by simp [split], (List.Sublist.refl _).append (by simp [items]),
        by rw [List.length_append]; rw [bpOrder] at *; omega, by rw [List.length_append]; omega⟩,
      by simp, ?_⟩
    simp only [leaf, lastOff_concat] at kept run
    rw [run, decide_eq_true last, BPlusTree.repairLeaf_merged kept merged]
  · obtain ⟨b, B', v, V', g, Y', rfl, rfl, rfl, owner, twins⟩ := at_.twins_right last shape.fenced
    have least := shape.filled.atLeast
      (by simp only [List.length_append, List.length_cons]; omega) b (by simp)
    have minimal := right b B' rfl
    obtain ⟨i, I, split⟩ := List.exists_cons_of_ne_nil
      (show P ++ S ≠ [] from fun vacant => by simp [vacant, bpOrder] at short)
    obtain ⟨t', merged, info, linked, frame⟩ := BPlusTree.mergeLeaf_right shape.linked
      shape.placed.left split (by rw [bpOrder] at *; omega)
    have sub : (P ++ S).Sublist x.items := by simp [items]
    refine ⟨A, x, b, B', U, u, v, V', X, e, g, Y', (P ++ S) ++ b.items, i, t', rfl, rfl, twins,
      ⟨info, linked, frame, sub.subset (by simp [split]), sub.append (List.Sublist.refl _),
        by rw [List.length_append]; rw [bpOrder] at *; omega, by rw [List.length_append]; omega⟩,
      by simp, ?_⟩
    rw [run, decide_eq_false last, BPlusTree.repairLeaf_merged kept merged]

theorem remove_short (at_ : Located t k A x B U u V L c R X e Y)
    (shape : Shape t (A ++ x :: B) (U ++ u :: V) ((L ++ c :: R) :: rest))
    (items : x.items = P ++ r :: S) (found : r.key = k) (gap : RecordGap k P S)
    (repairs : t.leafRepairs (x.node (firstOff B) (lastOff A)) = true) :
    t.info.leafNodeNum ≠ 1 ∧ (P ++ S).length + 1 = bpOrder / 2 ∧
      t.remove k = t.repairLeaf ((⟨x.off, x.parent, P ++ S⟩ : Cell Record).node (firstOff B)
        (lastOff A)) x.off c.off (c.node (firstOff R) (lastOff L)) (Y = []) := by
  obtain ⟨many, low⟩ : t.info.leafNodeNum ≠ 1 ∧ x.items.length ≤ bpOrder / 2 :=
    of_decide_eq_true repairs
  have len : x.items.length = (P ++ S).length + 1 := by simp [items]; omega
  have least : bpOrder / 2 ≤ x.items.length := by
    have nonempty := List.length_pos_iff.mpr shape.leaves_ne_nil
    have leaves := shape.leafNodeNum
    exact shape.filled.atLeast (by omega) x (by simp)
  have run := at_.remove_found items found gap shape.order (if_neg many) least
    (shape.filled.atMost x (by simp))
  rw [if_pos (by omega)] at run
  exact ⟨many, by omega, run⟩

theorem removed_kept (at_ : Located t k A x B U u V L c R X e Y)
    (shape : Shape t (A ++ x :: B) (U ++ u :: V) ((L ++ c :: R) :: rest))
    (items : x.items = P ++ r :: S) (found : r.key = k) (gap : RecordGap k P S)
    (stays : ¬ t.leafRepairs (x.node (firstOff B) (lastOff A)) = true) :
    Removed (t.remove k) [] (A ++ x :: B) (contents A ++ P) (S ++ contents B) := by
  have len : x.items.length = (P ++ S).length + 1 := by simp [items]; omega
  have atMost := shape.filled.atMost x (by simp)
  have enough : t.info.leafNodeNum ≠ 1 → bpOrder / 2 < x.items.length := fun many =>
    not_le.mp fun low => stays (decide_eq_true ⟨many, low⟩)
  have least : (if t.info.leafNodeNum = 1 then 0 else bpOrder / 2) ≤ (P ++ S).length := by
    split
    · exact Nat.zero_le _
    · have := enough ‹_›
      omega
  have run := at_.remove_found items found gap shape.order rfl (by omega) atMost
  rw [if_neg (not_lt.mpr least)] at run
  have sub : (P ++ S).Sublist x.items := by simp [items]
  refine .of_shape run (shape.refillLeaf at_.around (P ++ S) (at_.sorted.sublist sub)
    (fun s mem => at_.routed s (sub.subset mem)) (by omega) fun many => ?_) (by simp) (by simp)
  rw [shape.leafNodeNum] at enough
  have := enough (by omega)
  omega

end Located

theorem Shape.remove_spec (shape : Shape t leaves bounds levels) (k : Key) :
    (∃ P S, contents leaves = P ++ S ∧ RecordGap k P S ∧ t.remove k = .ok (-1, t) ∧
        t.removeDefects k = []) ∨
      ∃ P r S, contents leaves = P ++ r :: S ∧ r.key = k ∧ RecordGap k P S ∧
        Removed (t.remove k) (t.removeDefects k) leaves P S := by
  obtain ⟨A, x, B, U, u, V, L, c, R, rest, X, e, Y, rfl, rfl, rfl, at_⟩ := shape.locate k
  rcases at_.cases with ⟨P, r, S, items, found, gap⟩ | ⟨P, S, items, gap⟩
  · right
    refine ⟨contents A ++ P, r, S ++ contents B, by simp [items], found, at_.gap gap, ?_⟩
    have present : binarySearch (x.node (firstOff B) (lastOff A)) k = true :=
      found ▸ binarySearch_found (x.node (firstOff B) (lastOff A)) items (found.symm ▸ gap)
    have merges := shape.leafMerges_iff (x := x) rfl rfl
    rw [at_.removeDefects]
    by_cases repairs : t.leafRepairs (x.node (firstOff B) (lastOff A)) = true
    · obtain ⟨many, short, run⟩ := at_.remove_short shape items found gap repairs
      by_cases left : ∀ A' a, A = A' ++ [a] → a.items.length ≤ bpOrder / 2
      · by_cases right : ∀ b B', B = b :: B' → b.items.length ≤ bpOrder / 2
        · rw [if_pos ⟨present, repairs, merges.mpr ⟨left, right⟩⟩]
          obtain ⟨A', a, b, B', U', w, u', V', X', ea, eb, Y', items', r', t', leaves_, bounds_, twins,
            joined, records, ran⟩ := at_.joined shape items short many left right run
          rw [leaves_, bounds_] at shape
          rw [leaves_]
          exact twins.removed shape joined ran records
        · rw [if_neg fun all => right (merges.mp all.2.2).2]
          simp only [not_forall, not_le] at right
          obtain ⟨b, B', rfl, more⟩ := right
          have lenB := at_.around.lenB
          obtain ⟨v, V', rfl⟩ := List.exists_cons_of_ne_nil
            (show V ≠ [] from fun empty => by simp [empty] at lenB)
          exact at_.removed_right shape items more short left run
      · rw [if_neg fun all => left (merges.mp all.2.2).1]
        simp only [not_forall, not_le] at left
        obtain ⟨A', a, rfl, more⟩ := left
        have lenA := at_.around.lenA
        obtain ⟨U', w, rfl⟩ := (List.eq_nil_or_concat' U).resolve_left
          fun vacant => by simp [vacant] at lenA
        exact at_.removed_left shape items more short run
    · rw [if_neg fun all => repairs all.2.1]
      exact at_.removed_kept shape items found gap repairs
  · left
    refine ⟨contents A ++ P, S ++ contents B, by simp [items], at_.gap gap,
      at_.remove_absent items gap, ?_⟩
    have absent := binarySearch_absent (x.node (firstOff B) (lastOff A)) items gap
    rw [at_.removeDefects, if_neg (by simp [absent])]

/-- A defect needs a climb: the leaf is merged with its neighbour first. -/
theorem Shape.remove_climbs (shape : Shape t leaves bounds levels) (k : Key)
    (filled : t.removeDefects k ≠ []) :
    ∃ A a b B L c R rest X ea eb Y items r t', Stepping t t' (A ++ ⟨a.off, a.parent, items⟩ :: B) L c R
        X ea eb Y rest 0 false r.key ∧ Joined t t' A a b B items r ∧ levels = (L ++ c :: R) :: rest ∧
      rest.length ≤ t'.file.blocks.length ∧ rest.length ≤ t.file.blocks.length ∧
      t.searchIndex k = .ok c.off ∧ t.removeDefects k = t.lossDefects c.off false t.climbFuel ∧
      t.remove k = (t'.removeFromIndex c.off (c.node (firstOff R) (lastOff L)) r.key
        t'.climbFuel).map fun t => (0, t) := by
  obtain ⟨A, x, B, U, u, V, L, c, R, rest, X, e, Y, rfl, rfl, rfl, at_⟩ := shape.locate k
  have defects := at_.removeDefects
  split at defects
  case isFalse => exact absurd defects filled
  case isTrue merges =>
  obtain ⟨present, repairs, merges⟩ := merges
  obtain ⟨left, right⟩ := (shape.leafMerges_iff (x := x) rfl rfl).mp merges
  rcases at_.cases with ⟨P, r, S, items, found, gap⟩ | ⟨P, S, items, gap⟩
  · obtain ⟨many, short, run⟩ := at_.remove_short shape items found gap repairs
    obtain ⟨A', a, b, B', U', w, u', V', X', ea, eb, Y', items', r', t', leaves_, bounds_, twins, joined,
      -, ran⟩ := at_.joined shape items short many left right run
    rw [leaves_, bounds_] at shape
    obtain ⟨fuel, fuel₀⟩ := twins.fuel shape joined
    exact ⟨A', a, b, B', L, c, R, rest, X', ea, eb, Y', items', r', t', twins.stepping shape joined, joined,
      rfl, fuel, fuel₀, at_.searchIndex, defects, ran⟩
  · have absent := binarySearch_absent (x.node (firstOff B) (lastOff A)) items gap
    exact absurd present (by simp [absent])

end Fdfs2qq.Bpt
