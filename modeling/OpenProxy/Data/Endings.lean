import Mathlib.Data.List.Infix

/-!
# Taking endings off a list

`trimEndMatches p` takes `p` off the end of a list as often as it is there, `rsplitOnce sep` splits a list at the last
occurrence of `sep`, and a fold runs through several such steps, each of which is made once.  Such a fold only shortens
the list, so it changes nothing exactly where none of its steps does (`foldl_eq_self_iff`).
-/

namespace OpenProxy

section Endings

variable {α β : Type}

/-! ### Several steps, one after the other -/

section Steps

variable {step : List α → β → List α} {bs : List β}

theorem foldl_isPrefix (shortens : ∀ b ∈ bs, ∀ l, step l b <+: l) (l : List α) : bs.foldl step l <+: l := by
  induction bs generalizing l with
  | nil => exact List.prefix_refl l
  | cons b bs ih =>
    obtain ⟨hb, hbs⟩ := List.forall_mem_cons.1 shortens
    exact (ih hbs (step l b)).trans (hb l)

/-- A fold that changes nothing leaves the list alone at every step. -/
theorem foldl_eq_self_iff (shortens : ∀ b ∈ bs, ∀ l, step l b <+: l) (l : List α) :
    bs.foldl step l = l ↔ ∀ b ∈ bs, step l b = l := by
  induction bs with
  | nil => simp
  | cons b bs ih =>
    obtain ⟨hb, hbs⟩ := List.forall_mem_cons.1 shortens
    rw [List.foldl_cons, List.forall_mem_cons]
    constructor
    · intro h
      have hle : l.length ≤ (step l b).length := by
        have hfold := (foldl_isPrefix hbs (step l b)).length_le
        rwa [h] at hfold
      have hfirst : step l b = l := (hb l).eq_of_length_le hle
      rw [hfirst] at h
      exact ⟨hfirst, (ih hbs).1 h⟩
    · rintro ⟨hfirst, hrest⟩
      rw [hfirst]
      exact (ih hbs).2 hrest

/-- The steps that change nothing may be left out at the front. -/
theorem foldl_append_of_fixed {l : List α} (hbs : ∀ b ∈ bs, step l b = l) (cs : List β) :
    (bs ++ cs).foldl step l = cs.foldl step l := by
  induction bs with
  | nil => rfl
  | cons b bs ih =>
    obtain ⟨hb, hbs⟩ := List.forall_mem_cons.1 hbs
    rw [List.cons_append, List.foldl_cons, hb, ih hbs]

theorem length_foldl_lt (shortens : ∀ b ∈ bs, ∀ l, step l b <+: l) {l : List α} (h : ∃ b ∈ bs, step l b ≠ l) :
    (bs.foldl step l).length < l.length := by
  obtain ⟨b, hb, hne⟩ := h
  have hshort := foldl_isPrefix shortens l
  have hfold : bs.foldl step l ≠ l := fun he => hne ((foldl_eq_self_iff shortens l).1 he b hb)
  have hlen : (bs.foldl step l).length ≠ l.length := fun he => hfold (hshort.eq_of_length he)
  have hle := hshort.length_le
  omega

end Steps

variable [DecidableEq α]

/-! ### One ending, as often as it is there -/

/-- At most `n` times. -/
def trimTimes (p : List α) : Nat → List α → List α
  | 0, l => l
  | n + 1, l => if p <:+ l then trimTimes p n (l.take (l.length - p.length)) else l

/-- `str::trim_end_matches`. -/
def trimEndMatches (p l : List α) : List α := trimTimes p l.length l

theorem trimTimes_isPrefix (p : List α) (n : Nat) (l : List α) : trimTimes p n l <+: l := by
  induction n generalizing l with
  | zero => exact List.prefix_refl l
  | succ n ih =>
    unfold trimTimes
    split
    · exact (ih _).trans (List.take_prefix _ l)
    · exact List.prefix_refl l

theorem trimEndMatches_isPrefix (p l : List α) : trimEndMatches p l <+: l := trimTimes_isPrefix p l.length l

/-- Where the counter suffices, its value does not matter. -/
theorem trimTimes_eq {p : List α} (hp : p ≠ []) {n m : Nat} {l : List α} (hn : l.length ≤ n) (hm : l.length ≤ m) :
    trimTimes p n l = trimTimes p m l := by
  have hpos : 0 < p.length := List.length_pos_iff.2 hp
  induction n generalizing m l with
  | zero =>
    have hl : l = [] := List.length_eq_zero_iff.1 (by omega)
    subst hl
    cases m with
    | zero => rfl
    | succ m => simp [trimTimes, hp]
  | succ n ih =>
    cases m with
    | zero =>
      have hl : l = [] := List.length_eq_zero_iff.1 (by omega)
      subst hl
      simp [trimTimes, hp]
    | succ m =>
      unfold trimTimes
      split
      · rename_i hs
        have hle := hs.length_le
        apply ih <;> rw [List.length_take] <;> omega
      · rfl

theorem trimEndMatches_eq_self_iff {p : List α} (hp : p ≠ []) {l : List α} :
    trimEndMatches p l = l ↔ ¬ p <:+ l := by
  have hpos : 0 < p.length := List.length_pos_iff.2 hp
  constructor
  · intro h hs
    have hle := hs.length_le
    obtain ⟨n, hn⟩ : ∃ n, l.length = n + 1 := ⟨l.length - 1, by omega⟩
    unfold trimEndMatches at h
    rw [hn] at h
    simp only [trimTimes, if_pos hs] at h
    have hlen := (trimTimes_isPrefix p n (l.take (l.length - p.length))).length_le
    rw [h, List.length_take] at hlen
    omega
  · intro hs
    unfold trimEndMatches
    cases l.length with
    | zero => rfl
    | succ n => simp [trimTimes, hs]

/-- One more copy of the ending makes no difference. -/
theorem trimEndMatches_append {p : List α} (hp : p ≠ []) (l : List α) :
    trimEndMatches p (l ++ p) = trimEndMatches p l := by
  have hpos : 0 < p.length := List.length_pos_iff.2 hp
  obtain ⟨n, hn⟩ : ∃ n, (l ++ p).length = n + 1 := ⟨l.length + p.length - 1, by rw [List.length_append]; omega⟩
  have htake : (l ++ p).take ((l ++ p).length - p.length) = l := by simp
  unfold trimEndMatches
  rw [hn, trimTimes, if_pos (List.suffix_append l p), htake]
  rw [List.length_append] at hn
  exact trimTimes_eq hp (by omega) (Nat.le_refl _)

/-! ### The last occurrence of a separator -/

/-- `str::rsplit_once`, for a separator that is not empty. -/
def rsplitOnce (sep : List α) : List α → Option (List α × List α)
  | [] => none
  | x :: l =>
    match rsplitOnce sep l with
    | some (before, after) => some (x :: before, after)
    | none => if sep <+: x :: l then some ([], (x :: l).drop sep.length) else none

theorem rsplitOnce_eq_none {sep : List α} (hsep : sep ≠ []) {l : List α} :
    rsplitOnce sep l = none ↔ ¬ sep <:+: l := by
  induction l with
  | nil => simp [rsplitOnce, hsep]
  | cons x l ih =>
    rw [List.infix_cons_iff, not_or, ← ih, rsplitOnce]
    cases rsplitOnce sep l with
    | none => simp
    | some parts => simp

theorem append_of_rsplitOnce {sep l before after : List α} (h : rsplitOnce sep l = some (before, after)) :
    l = before ++ sep ++ after := by
  induction l generalizing before with
  | nil => cases h
  | cons x l ih =>
    rw [rsplitOnce] at h
    split at h
    · rename_i before' after' hl
      obtain ⟨rfl, rfl⟩ := Prod.mk.inj (Option.some.inj h)
      rw [ih hl]
      rfl
    · split at h
      · rename_i hs
        obtain ⟨rfl, rfl⟩ := Prod.mk.inj (Option.some.inj h)
        obtain ⟨rest, hrest⟩ := hs
        rw [← hrest]
        simp
      · cases h

/-- Where the separator does not come again, not even inside of its own occurrence, the list is split there. -/
theorem rsplitOnce_append {sep after : List α} (hsep : sep ≠ []) (h : ¬ sep <:+: (sep ++ after).tail)
    (before : List α) : rsplitOnce sep (before ++ (sep ++ after)) = some (before, after) := by
  induction before with
  | nil =>
    obtain ⟨x, l, hxl⟩ : ∃ x l, sep ++ after = x :: l := by
      cases sep with
      | nil => exact absurd rfl hsep
      | cons x sep => exact ⟨x, sep ++ after, rfl⟩
    have hnone : rsplitOnce sep l = none := by
      rw [hxl] at h
      exact (rsplitOnce_eq_none hsep).2 h
    have hpre : sep <+: x :: l := hxl ▸ List.prefix_append sep after
    rw [List.nil_append, hxl, rsplitOnce, hnone]
    simp only [if_pos hpre, Option.some.injEq, Prod.mk.injEq, true_and]
    rw [← hxl, List.drop_left]
  | cons x before ih => rw [List.cons_append, rsplitOnce, ih]

/-- What comes after the last occurrence of an item does not contain it. -/
theorem notMem_of_rsplitOnce {x : α} {l before after : List α} (h : rsplitOnce [x] l = some (before, after)) :
    x ∉ after := by
  induction l generalizing before with
  | nil => cases h
  | cons y l ih =>
    rw [rsplitOnce] at h
    split at h
    · rename_i before' after' hl
      obtain ⟨-, rfl⟩ := Prod.mk.inj (Option.some.inj h)
      exact ih hl
    · rename_i hl
      split at h
      · obtain ⟨-, rfl⟩ := Prod.mk.inj (Option.some.inj h)
        intro hx
        apply (rsplitOnce_eq_none (List.cons_ne_nil x [])).1 hl
        exact (List.singleton_infix_iff x l).2 hx
      · cases h

end Endings

end OpenProxy
