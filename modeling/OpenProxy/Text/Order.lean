import OpenProxy.Text.Basic
import Mathlib.Data.Char

/-!
# The order of texts

Texts are compared character by character.  A family of texts of one length is ordered by a numeric key
(`OrderedBy`) when it is put together from fixed-width decimal numbers, as times are.
-/

namespace OpenProxy

/-- `<` on strings. -/
@[grind =] def textLt : Text → Text → Bool
  | _, [] => false
  | [], _ :: _ => true
  | a :: s, b :: t => decide (a < b) || (a == b && textLt s t)

/-- The last `w` decimal digits of a number, with leading zeros. -/
def digits : Nat → Nat → Text
  | 0, _ => []
  | w + 1, n => digits w (n / 10) ++ [(n % 10).digitChar]

theorem textLt_irrefl (s : Text) : textLt s s = false := by
  induction s with
  | nil => rfl
  | cons c s ih => simp [textLt, ih]

theorem textLt_trans {a b c : Text} (hab : textLt a b = true) (hbc : textLt b c = true) : textLt a c = true := by
  induction a generalizing b c with
  | nil =>
    cases c with
    | nil => simp [textLt] at hbc
    | cons z c => rfl
  | cons x a ih =>
    cases b with
    | nil => simp [textLt] at hab
    | cons y b =>
      cases c with
      | nil => simp [textLt] at hbc
      | cons z c =>
        simp only [textLt, Bool.or_eq_true, decide_eq_true_eq, Bool.and_eq_true, beq_iff_eq] at hab hbc ⊢
        rcases hab with hxy | ⟨rfl, hab⟩
        · rcases hbc with hyz | ⟨rfl, -⟩
          · exact Or.inl (lt_trans hxy hyz)
          · exact Or.inl hxy
        · rcases hbc with hyz | ⟨rfl, hbc⟩
          · exact Or.inl hyz
          · exact Or.inr ⟨rfl, ih hab hbc⟩

theorem textLt_trichotomy (a b : Text) : textLt a b = true ∨ a = b ∨ textLt b a = true := by
  induction a generalizing b with
  | nil =>
    cases b with
    | nil => exact Or.inr (Or.inl rfl)
    | cons y b => exact Or.inl rfl
  | cons x a ih =>
    cases b with
    | nil => exact Or.inr (Or.inr rfl)
    | cons y b =>
      simp only [textLt, Bool.or_eq_true, decide_eq_true_eq, Bool.and_eq_true, beq_iff_eq, List.cons.injEq]
      rcases lt_trichotomy x y with hxy | rfl | hxy
      · exact Or.inl (Or.inl hxy)
      · rcases ih b with h | rfl | h
        · exact Or.inl (Or.inr ⟨rfl, h⟩)
        · exact Or.inr (Or.inl ⟨rfl, rfl⟩)
        · exact Or.inr (Or.inr (Or.inr ⟨rfl, h⟩))
      · exact Or.inr (Or.inr (Or.inl hxy))

/-- Texts are compared at the first of two parts at which they differ. -/
theorem textLt_append {a b : Text} (h : a.length = b.length) (s t : Text) :
    textLt (a ++ s) (b ++ t) = (textLt a b || (a == b && textLt s t)) := by
  induction a generalizing b with
  | nil =>
    cases b with
    | nil => simp [textLt]
    | cons d b => simp at h
  | cons c a ih =>
    cases b with
    | nil => simp at h
    | cons d b =>
      simp only [List.cons_append, textLt, ih (by simpa using h)]
      by_cases hcd : c = d
      · subst hcd
        simp
      · have hne : (c == d) = false := by simpa using hcd
        have hne' : (c :: a == d :: b) = false := by simp [hcd]
        simp [hne, hne']

/-- The texts of a family have one length, and are ordered as their keys are. -/
structure OrderedBy {α : Type} (text : α → Text) (key : α → Nat) : Prop where
  length : ∀ a b, (text a).length = (text b).length
  lt : ∀ a b, textLt (text a) (text b) = true ↔ key a < key b
  eq : ∀ a b, text a = text b ↔ key a = key b

namespace OrderedBy

variable {α : Type}

theorem const (s : Text) : OrderedBy (fun _ : α => s) fun _ => 0 where
  length := fun _ _ => rfl
  lt := fun _ _ => by simp [textLt_irrefl]
  eq := fun _ _ => by simp

/-- Two parts, the second of which has keys below `bound`. -/
theorem append {f g : α → Text} {k l : α → Nat} (hf : OrderedBy f k) (hg : OrderedBy g l) (bound : Nat)
    (hl : ∀ a, l a < bound) : OrderedBy (fun a => f a ++ g a) fun a => k a * bound + l a where
  length := fun a b => by simp [hf.length a b, hg.length a b]
  lt := by
    intro a b
    rw [textLt_append (hf.length a b), Bool.or_eq_true, Bool.and_eq_true, beq_iff_eq, hf.lt, hf.eq, hg.lt]
    have ha := hl a
    have hb := hl b
    constructor
    · rintro (h | ⟨h, h'⟩)
      · have := Nat.mul_le_mul_right bound (show k a + 1 ≤ k b by omega)
        rw [Nat.add_mul] at this
        omega
      · rw [h]
        omega
    · intro h
      by_cases hk : k a = k b
      · refine Or.inr ⟨hk, ?_⟩
        rw [hk] at h
        omega
      · refine Or.inl ?_
        by_contra hlt
        have := Nat.mul_le_mul_right bound (show k b + 1 ≤ k a by omega)
        rw [Nat.add_mul] at this
        omega
  eq := by
    intro a b
    have ha := hl a
    have hb := hl b
    constructor
    · intro h
      obtain ⟨h1, h2⟩ := List.append_inj h (hf.length a b)
      rw [(hf.eq a b).mp h1, (hg.eq a b).mp h2]
    · intro h
      have hk : k a = k b := by
        have h1 : (k a * bound + l a) / bound = k a := by
          rw [Nat.mul_comm, Nat.mul_add_div (by omega), Nat.div_eq_of_lt ha, Nat.add_zero]
        have h2 : (k b * bound + l b) / bound = k b := by
          rw [Nat.mul_comm, Nat.mul_add_div (by omega), Nat.div_eq_of_lt hb, Nat.add_zero]
        rw [← h1, ← h2, h]
      rw [(hf.eq a b).mpr hk, (hg.eq a b).mpr (by rw [hk] at h; omega)]

theorem of_key_eq {f : α → Text} {k l : α → Nat} (h : OrderedBy f k) (hkl : ∀ a, k a = l a) : OrderedBy f l := by
  have : k = l := funext hkl
  rwa [← this]

private theorem digitChar_lt {m n : Nat} (hm : m < 10) (hn : n < 10) : m.digitChar < n.digitChar ↔ m < n := by
  have h : ∀ m n : Fin 10, m.val.digitChar < n.val.digitChar ↔ m.val < n.val := by decide
  exact h ⟨m, hm⟩ ⟨n, hn⟩

private theorem digitChar_eq {m n : Nat} (hm : m < 10) (hn : n < 10) : m.digitChar = n.digitChar ↔ m = n := by
  have h : ∀ m n : Fin 10, m.val.digitChar = n.val.digitChar ↔ m.val = n.val := by decide
  exact h ⟨m, hm⟩ ⟨n, hn⟩

/-- A single decimal digit. -/
theorem digit {n : α → Nat} (h : ∀ a, n a < 10) : OrderedBy (fun a => [(n a).digitChar]) n where
  length := fun _ _ => rfl
  lt := by
    intro a b
    simp [textLt, digitChar_lt (h a) (h b)]
  eq := by
    intro a b
    simp [digitChar_eq (h a) (h b)]

/-- Decimal numbers of one width. -/
theorem digits {w : Nat} {n : α → Nat} (h : ∀ a, n a < 10 ^ w) : OrderedBy (fun a => OpenProxy.digits w (n a)) n := by
  induction w generalizing n with
  | zero =>
    refine (const []).of_key_eq ?_
    intro a
    have := h a
    simp only [Nat.pow_zero] at this
    omega
  | succ w ih =>
    have hdiv : ∀ a, n a / 10 < 10 ^ w := by
      intro a
      have := h a
      rw [Nat.pow_succ] at this
      omega
    refine ((ih hdiv).append (digit (n := fun a => n a % 10) fun a => Nat.mod_lt _ (by omega))
      10 fun a => Nat.mod_lt _ (by omega)).of_key_eq ?_
    intro a
    omega

end OrderedBy

end OpenProxy
