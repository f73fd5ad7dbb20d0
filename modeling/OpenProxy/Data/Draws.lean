import Mathlib.Data.List.Perm.Basic
import Mathlib.Data.List.Count
import Mathlib.Data.Rat.Defs

/-!
# Random draws

What a random number generator returns to a program that asks for numbers in ranges, and what a program does to a list
with them: exchange two items, and move one item to the head.
-/

namespace OpenProxy

/-- The outcomes of the draws of a run, whatever they are. -/
structure Draws where
  /-- A number from 0 up to 1. -/
  unit : ℚ
  /-- The number below the bound that the draw with this index gives. -/
  below : Nat → Nat → Nat
  below_lt : ∀ k n, 0 < n → below k n < n
  /-- The exchanges by which a list is shuffled in place. -/
  swaps : List (Nat × Nat)

section Reorder

variable {α : Type}

/-- `slice::swap`, inside of the list. -/
def swapAt (l : List α) (swap : Nat × Nat) : List α :=
  match l[swap.1]?, l[swap.2]? with
  | some a, some b => (l.set swap.1 b).set swap.2 a
  | _, _ => l

/-- The list after some exchanges. -/
def shuffleBy (l : List α) (swaps : List (Nat × Nat)) : List α := swaps.foldl swapAt l

/-- `[..=idx].rotate_right(1)`. -/
def moveToHead (l : List α) (idx : Nat) : List α := (l.take (idx + 1)).rotateRight 1 ++ l.drop (idx + 1)

theorem swapAt_perm (l : List α) (swap : Nat × Nat) : (swapAt l swap).Perm l := by
  unfold swapAt
  split
  · rename_i a b ha hb
    obtain ⟨hi, rfl⟩ := List.getElem?_eq_some_iff.1 ha
    obtain ⟨hj, rfl⟩ := List.getElem?_eq_some_iff.1 hb
    exact List.set_set_perm hi hj
  · exact List.Perm.refl l

theorem shuffleBy_perm (l : List α) (swaps : List (Nat × Nat)) : (shuffleBy l swaps).Perm l := by
  induction swaps generalizing l with
  | nil => exact List.Perm.refl l
  | cons swap swaps ih => exact (ih (swapAt l swap)).trans (swapAt_perm l swap)

theorem rotateRight_perm (l : List α) (n : Nat) : (l.rotateRight n).Perm l := by
  unfold List.rotateRight
  dsimp only
  split
  · exact List.Perm.refl l
  · exact List.perm_append_comm.trans (by rw [List.take_append_drop])

theorem rotateLeft_perm (l : List α) (n : Nat) : (l.rotateLeft n).Perm l := by
  unfold List.rotateLeft
  dsimp only
  split
  · exact List.Perm.refl l
  · exact List.perm_append_comm.trans (by rw [List.take_append_drop])

theorem moveToHead_perm (l : List α) (idx : Nat) : (moveToHead l idx).Perm l := by
  have h := (rotateRight_perm (l.take (idx + 1)) 1).append_right (l.drop (idx + 1))
  rwa [List.take_append_drop] at h

/-- One item comes first, and the others stay in their order. -/
theorem moveToHead_eq {l : List α} {idx : Nat} (h : idx < l.length) : moveToHead l idx = l[idx] :: l.eraseIdx idx := by
  have hrotate : (l.take (idx + 1)).rotateRight 1 = l[idx] :: l.take idx := by
    rw [List.take_succ_eq_append_getElem h]
    have hlen : (l.take idx ++ [l[idx]]).length = idx + 1 := by simp; omega
    unfold List.rotateRight
    rw [hlen]
    dsimp only
    split
    · obtain rfl : idx = 0 := by omega
      rfl
    · have hmod : idx + 1 - 1 % (idx + 1) = (l.take idx).length := by
        rw [Nat.mod_eq_of_lt (by omega), List.length_take_of_le h.le]
        omega
      rw [hmod, List.drop_left, List.take_left]
      rfl
  unfold moveToHead
  rw [hrotate, List.cons_append, List.eraseIdx_eq_take_drop_succ]

end Reorder

end OpenProxy
