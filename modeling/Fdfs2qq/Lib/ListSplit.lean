import Mathlib.Data.List.Basic
import Mathlib.Data.List.InsertIdx

/-! Lists taken apart at an element: positions counted by the length of the part
before, concatenations of segments, and lists that agree up to their last entry. -/
namespace Lib

variable {α β : Type*}

@[simp] theorem getElem?_append_length_cons (A : List α) (x : α) (B : List α) :
    (A ++ x :: B)[A.length]? = some x := by simp

@[simp] theorem insertIdx_append_length (A B : List α) (x : α) :
    (A ++ B).insertIdx A.length x = A ++ x :: B := by
  induction A with
  | nil => simp
  | cons a A ih => simp [ih]

@[simp] theorem eraseIdx_append_length (A : List α) (x : α) (B : List α) :
    (A ++ x :: B).eraseIdx A.length = A ++ B := by
  induction A with
  | nil => simp
  | cons a A ih => simp [ih]

@[simp] theorem set_append_length (A : List α) (x y : α) (B : List α) :
    (A ++ x :: B).set A.length y = A ++ y :: B := by
  induction A with
  | nil => simp
  | cons a A ih => simp [ih]

@[simp] theorem modify_append_length (A : List α) (x : α) (B : List α) (f : α → α) :
    (A ++ x :: B).modify A.length f = A ++ f x :: B := by
  induction A with
  | nil => simp
  | cons a A ih => simp [ih]

@[simp] theorem modify_append_length_succ (A : List α) (x y : α) (B : List α) (f : α → α) :
    (A ++ x :: y :: B).modify (A.length + 1) f = A ++ x :: f y :: B := by
  induction A with
  | nil => simp
  | cons a A ih => simp [ih]

theorem modify_length (l : List α) (f : α → α) : l.modify l.length f = l := by
  induction l with
  | nil => rfl
  | cons a l ih => simp [ih]

theorem exists_cons_cons : ∀ {l : List α}, 2 ≤ l.length → ∃ a b rest, l = a :: b :: rest
  | a :: b :: rest, _ => ⟨a, b, rest, rfl⟩

theorem exists_append_pair {l : List α} (two : 2 ≤ l.length) : ∃ init a b, l = init ++ [a, b] := by
  obtain ⟨b, a, rest, eq⟩ := exists_cons_cons (l := l.reverse) (by simpa using two)
  exact ⟨rest.reverse, a, b, by rw [← l.reverse_reverse, eq]; simp⟩

/-- The search of a partitioned list stops at the boundary. -/
theorem findIdx_boundary {p : α → Bool} {A B : List α} (before : ∀ a ∈ A, p a = false)
    (after : ∀ b ∈ B.head?, p b = true) : (A ++ B).findIdx p = A.length := by
  induction A with
  | nil =>
    cases B with
    | nil => rfl
    | cons b B => simp [List.findIdx_cons, after b (by simp)]
  | cons a A ih =>
    rw [List.cons_append, List.findIdx_cons, before a (by simp),
      ih (fun x hx => before x (by simp [hx]))]
    simp

theorem flatMap_split {f : α → List β} {l : List α} {A B : List β} {x : β}
    (split : l.flatMap f = A ++ x :: B) :
    ∃ L c R X Y, l = L ++ c :: R ∧ f c = X ++ x :: Y ∧
      A = L.flatMap f ++ X ∧ B = Y ++ R.flatMap f := by
  induction l generalizing A with
  | nil => simp at split
  | cons c l ih =>
    rw [List.flatMap_cons, List.append_eq_append_iff] at split
    rcases split with ⟨rest, rfl, tail⟩ | ⟨rest, head, tail⟩
    · obtain ⟨L, d, R, X, Y, rfl, seg, rfl, rfl⟩ := ih tail
      exact ⟨c :: L, d, R, X, Y, rfl, seg, by simp, rfl⟩
    · cases rest with
      | nil =>
        obtain ⟨L, d, R, X, Y, rfl, seg, before, rfl⟩ := ih (A := []) (by simpa using tail.symm)
        refine ⟨c :: L, d, R, X, Y, rfl, seg, ?_, rfl⟩
        simp only [List.append_nil] at head
        rw [List.flatMap_cons, head, List.append_assoc, ← before, List.append_nil]
      | cons y rest =>
        rw [List.cons_append, List.cons.injEq] at tail
        obtain ⟨rfl, rfl⟩ := tail
        exact ⟨[], c, l, A, rest, rfl, head, by simp, rfl⟩

theorem dropLast_append_cons_cons (A : List α) (x y : α) (B : List α) :
    (A ++ x :: y :: B).dropLast = A ++ x :: (y :: B).dropLast := by
  rw [List.dropLast_append_of_ne_nil (List.cons_ne_nil _ _), List.dropLast_cons_cons]

/-- Lists of one length that may differ in the last entry only. -/
def SameInit (xs ys : List α) : Prop := xs.length = ys.length ∧ xs.dropLast = ys.dropLast

theorem SameInit.refl (xs : List α) : SameInit xs xs := ⟨rfl, rfl⟩

theorem SameInit.symm {xs ys : List α} (same : SameInit xs ys) : SameInit ys xs :=
  ⟨same.1.symm, same.2.symm⟩

theorem SameInit.trans {xs ys zs : List α} (first : SameInit xs ys) (second : SameInit ys zs) :
    SameInit xs zs := ⟨first.1.trans second.1, first.2.trans second.2⟩

theorem SameInit.append_cons {A A' B B' : List α} {x y : α} (before : A = A')
    (at_ : B ≠ [] → x = y) (after : SameInit B B') : SameInit (A ++ x :: B) (A' ++ y :: B') := by
  subst before
  obtain ⟨len, init⟩ := after
  refine ⟨by simp [len], ?_⟩
  cases B with
  | nil =>
    obtain rfl : B' = [] := List.length_eq_zero_iff.mp len.symm
    simp
  | cons b B =>
    cases B' with
    | nil => simp at len
    | cons b' B' =>
      rw [dropLast_append_cons_cons, dropLast_append_cons_cons, at_ (by simp), init]

theorem SameInit.append_left (A : List α) {xs ys : List α} (same : SameInit xs ys) :
    SameInit (A ++ xs) (A ++ ys) := by
  obtain ⟨len, init⟩ := same
  refine ⟨by simp [len], ?_⟩
  cases xs with
  | nil => rw [List.length_eq_zero_iff.mp len.symm]
  | cons x xs =>
    have filled : ys ≠ [] := fun empty => by simp [empty] at len
    rw [List.dropLast_append_of_ne_nil (List.cons_ne_nil _ _),
      List.dropLast_append_of_ne_nil filled, init]

theorem SameInit.split {A A' B B' : List α} {x y : α} (same : SameInit (A ++ x :: B) (A' ++ y :: B'))
    (len : A.length = A'.length) : A = A' ∧ (B ≠ [] → x = y) ∧ SameInit B B' := by
  obtain ⟨total, init⟩ := same
  have rest : B.length = B'.length := by
    simp only [List.length_append, List.length_cons] at total
    omega
  cases B with
  | nil =>
    obtain rfl : B' = [] := List.length_eq_zero_iff.mp rest.symm
    simp only [List.dropLast_concat] at init
    exact ⟨init, by simp, .refl _⟩
  | cons b B =>
    cases B' with
    | nil => simp at rest
    | cons b' B' =>
      rw [dropLast_append_cons_cons, dropLast_append_cons_cons] at init
      obtain ⟨before, after⟩ := List.append_inj init len
      rw [List.cons.injEq] at after
      exact ⟨before, fun _ => after.1, rest, after.2⟩

theorem SameInit.nil_iff {xs ys : List α} (same : SameInit xs ys) : xs = [] ↔ ys = [] := by
  rw [← List.length_eq_zero_iff, ← List.length_eq_zero_iff, same.1]

end Lib
