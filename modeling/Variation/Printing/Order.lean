/-!
# Putting lines in order

Sorting by insertion from the end of the list. The sort is stable: elements that may stand in either
order keep the one they had, and a list that is in order already is left as it is.
-/

namespace Variation.Printing

variable {α : Type}

/-- Puts an element in front of the first one that need not come before it. -/
def insertInOrder (before : α → α → Bool) (x : α) : List α → List α
  | [] => [x]
  | y :: ys => if before x y then x :: y :: ys else y :: insertInOrder before x ys

/-- The elements in order. -/
def inOrder (before : α → α → Bool) (xs : List α) : List α := xs.foldr (insertInOrder before) []

theorem insertInOrder_perm (before : α → α → Bool) (x : α) (ys : List α) :
    (insertInOrder before x ys).Perm (x :: ys) := by
  induction ys with
  | nil => exact .refl _
  | cons y ys ih =>
    unfold insertInOrder
    split
    · exact .refl _
    · exact (ih.cons y).trans (.swap x y ys)

/-- Nothing is lost and nothing is added. -/
theorem inOrder_perm (before : α → α → Bool) (xs : List α) : (inOrder before xs).Perm xs := by
  induction xs with
  | nil => exact .refl _
  | cons x xs ih => exact (insertInOrder_perm before x _).trans (ih.cons x)

/-- What is in order stays as it is. -/
theorem inOrder_eq_self {before : α → α → Bool} {xs : List α}
    (h : xs.Pairwise fun x y => before x y = true) : inOrder before xs = xs := by
  induction xs with
  | nil => rfl
  | cons x xs ih =>
    obtain ⟨hx, hxs⟩ := List.pairwise_cons.1 h
    have step : inOrder before (x :: xs) = insertInOrder before x (inOrder before xs) := rfl
    rw [step, ih hxs]
    cases xs with
    | nil => rfl
    | cons y ys => simp [insertInOrder, hx y (by simp)]

/-- Inserting keeps the order if it is total and transitive. -/
theorem pairwise_insertInOrder {before : α → α → Bool}
    (total : ∀ x y, before x y = true ∨ before y x = true)
    (trans : ∀ x y z, before x y = true → before y z = true → before x z = true)
    (x : α) {ys : List α} (h : ys.Pairwise fun x y => before x y = true) :
    (insertInOrder before x ys).Pairwise fun x y => before x y = true := by
  induction ys with
  | nil => simp [insertInOrder]
  | cons y ys ih =>
    obtain ⟨hy, hys⟩ := List.pairwise_cons.1 h
    unfold insertInOrder
    split
    · next hxy =>
      refine List.pairwise_cons.2 ⟨fun z hz => ?_, h⟩
      rcases List.mem_cons.1 hz with rfl | hz
      · exact hxy
      · exact trans x y z hxy (hy z hz)
    · next hxy =>
      refine List.pairwise_cons.2 ⟨fun z hz => ?_, ih hys⟩
      rcases List.mem_cons.1 ((insertInOrder_perm before x ys).mem_iff.1 hz) with rfl | hz
      · exact (total y z).resolve_right hxy
      · exact hy z hz

/-- The result is in order if the order is total and transitive. -/
theorem pairwise_inOrder {before : α → α → Bool}
    (total : ∀ x y, before x y = true ∨ before y x = true)
    (trans : ∀ x y z, before x y = true → before y z = true → before x z = true) (xs : List α) :
    (inOrder before xs).Pairwise fun x y => before x y = true := by
  induction xs with
  | nil => exact .nil
  | cons x xs ih => exact pairwise_insertInOrder total trans x ih

end Variation.Printing
