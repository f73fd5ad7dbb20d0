import Mathlib.Data.List.Basic

/-!
# Walks of a relation

`Walk r n a b` says that `n` steps of `r` lead from `a` to `b`.  Adding one step `c → s` to a relation makes new walks only
through that step, so a cycle that is new is no shorter than the walk from `s` back to `c` that it contains
(`walk_insert`, `closed_walk_insert`).
-/

namespace OpenProxy

inductive Walk {α : Type} (r : α → α → Prop) : Nat → α → α → Prop
  | nil (a : α) : Walk r 0 a a
  | cons {n : Nat} {a b c : α} (hab : r a b) (h : Walk r n b c) : Walk r (n + 1) a c

variable {α : Type} {r r' : α → α → Prop} {m n : Nat} {a b c s : α}

namespace Walk

theorem mono (hr : ∀ a b, r a b → r' a b) (h : Walk r n a b) : Walk r' n a b := by
  induction h with
  | nil a => exact .nil a
  | cons hab _ ih => exact .cons (hr _ _ hab) ih

theorem trans (hab : Walk r m a b) (hbc : Walk r n b c) : Walk r (m + n) a c := by
  induction hab with
  | nil a =>
    rw [Nat.zero_add]
    exact hbc
  | cons h _ ih =>
    rw [Nat.add_right_comm]
    exact .cons h (ih hbc)

theorem single (hab : r a b) : Walk r 1 a b := .cons hab (.nil b)

/-- The beginning of a walk. -/
theorem take (h : Walk r n a b) (hm : m ≤ n) : ∃ c, Walk r m a c := by
  induction h generalizing m with
  | nil a =>
    obtain rfl := Nat.le_zero.mp hm
    exact ⟨a, .nil a⟩
  | @cons n a b' b hab _ ih =>
    cases m with
    | zero => exact ⟨a, .nil a⟩
    | succ m =>
      obtain ⟨c, hc⟩ := ih (Nat.le_of_succ_le_succ hm)
      exact ⟨c, .cons hab hc⟩

theorem succ_iff : Walk r (n + 1) a c ↔ ∃ b, r a b ∧ Walk r n b c := by
  constructor
  · rintro (_ | ⟨hab, h⟩)
    exact ⟨_, hab, h⟩
  · rintro ⟨b, hab, h⟩
    exact .cons hab h

end Walk

/-- A walk with one more step `c → s` at its disposal avoids it, or it reaches `c` and goes on from `s`. -/
theorem walk_insert (hr : ∀ a b, r' a b → r a b ∨ a = c ∧ b = s) (h : Walk r' n a b) :
    Walk r n a b ∨ ∃ j k, j + k < n ∧ Walk r j a c ∧ Walk r k s b := by
  induction h with
  | nil a => exact .inl (.nil a)
  | @cons n a b' b hab _ ih =>
    rcases hr a b' hab with hold | ⟨rfl, rfl⟩
    · rcases ih with hw | ⟨j, k, hjk, hj, hk⟩
      · exact .inl (.cons hold hw)
      · exact .inr ⟨j + 1, k, by omega, .cons hold hj, hk⟩
    · -- the step is the new one: the walk from `s` starts here or later
      rcases ih with hw | ⟨j, k, hjk, -, hk⟩
      · exact .inr ⟨0, n, by omega, .nil _, hw⟩
      · exact .inr ⟨0, k, by omega, .nil _, hk⟩

/-- A cycle that needs the step `c → s` contains a walk from `s` to `c`, which is shorter by one step at least. -/
theorem closed_walk_insert (hr : ∀ a b, r' a b → r a b ∨ a = c ∧ b = s) (h : Walk r' n a a) :
    Walk r n a a ∨ ∃ k < n, Walk r k s c := by
  rcases walk_insert hr h with hw | ⟨j, k, hjk, hj, hk⟩
  · exact .inl hw
  · exact .inr ⟨k + j, by omega, hk.trans hj⟩

end OpenProxy
