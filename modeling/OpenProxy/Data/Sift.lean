import Mathlib.Data.List.Basic

/-!
# Loops that delete items

A loop over a list that deletes some of its items decides about each of them in a state that it carries along.  `sift`
lists the items with the decisions.  Two such loops, of which the second one runs over what the first one has kept, are
one loop whose state has the states of both (`sift_both`).
-/

namespace OpenProxy

section

variable {σ τ α : Type}

/-- The items of a list, each with whether the loop keeps it. -/
def sift (step : σ → α → σ × Bool) : σ → List α → List (α × Bool)
  | _, [] => []
  | s, a :: as => (a, (step s a).2) :: sift step (step s a).1 as

/-- The items that are kept. -/
def kept (marks : List (α × Bool)) : List α := (marks.filter (·.2)).map (·.1)

/-- The items that are deleted. -/
def deleted (marks : List (α × Bool)) : List α := (marks.filter (!·.2)).map (·.1)

/-- The decisions of a loop over what an earlier loop has kept, for all items of the earlier one. -/
def withLater : List (α × Bool) → List (α × Bool) → List (α × Bool)
  | (a, false) :: marks, later => (a, false) :: withLater marks later
  | (a, true) :: marks, later => (a, later.head?.any (·.2)) :: withLater marks later.tail
  | [], _ => []

/-- The step of two loops of which the second one sees what the first one keeps. -/
def both (step : σ → α → σ × Bool) (step' : τ → α → τ × Bool) (s : σ × τ) (a : α) : (σ × τ) × Bool :=
  if (step s.1 a).2 then (((step s.1 a).1, (step' s.2 a).1), (step' s.2 a).2) else (((step s.1 a).1, s.2), false)

variable {step : σ → α → σ × Bool} {step' : τ → α → τ × Bool}

@[simp] theorem kept_nil : kept ([] : List (α × Bool)) = [] := rfl

@[simp] theorem kept_cons_true (a : α) (marks : List (α × Bool)) : kept ((a, true) :: marks) = a :: kept marks := rfl

@[simp] theorem kept_cons_false (a : α) (marks : List (α × Bool)) : kept ((a, false) :: marks) = kept marks := rfl

theorem map_fst_sift (s : σ) (as : List α) : (sift step s as).map (·.1) = as := by
  induction as generalizing s with
  | nil => rfl
  | cons a as ih => simp [sift, ih]

/-- Two loops one after the other make the decisions of one loop. -/
theorem sift_both (s : σ) (t : τ) (as : List α) :
    withLater (sift step s as) (sift step' t (kept (sift step s as))) = sift (both step step') (s, t) as := by
  induction as generalizing s t with
  | nil => rfl
  | cons a as ih =>
    cases h : (step s a).2 with
    | false => simp only [sift, withLater, kept_cons_false, both, h, ih, Bool.false_eq_true, if_false]
    | true => simp [sift, withLater, both, h, ih]

theorem kept_withLater (s : σ) (t : τ) (as : List α) :
    kept (withLater (sift step s as) (sift step' t (kept (sift step s as)))) =
      kept (sift step' t (kept (sift step s as))) := by
  induction as generalizing s t with
  | nil => rfl
  | cons a as ih =>
    cases h : (step s a).2 with
    | false => simp only [sift, withLater, kept_cons_false, h, ih]
    | true =>
      simp only [sift, withLater, kept_cons_true, h, List.head?_cons, Option.any_some, List.tail_cons]
      cases h' : (step' t a).2 with
      | false => simp only [kept_cons_false, ih]
      | true => simp only [kept_cons_true, ih]

end

end OpenProxy
