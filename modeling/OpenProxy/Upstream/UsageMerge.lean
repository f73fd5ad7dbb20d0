import OpenProxy.Upstream.Anthropic
import Mathlib.Order.Lattice.Nat

/-!
# Merging usages in any order

The prompt, the completion and the cached counts of the usage that `set_usage` accumulates are the largest ones that have
been reported, in whatever order and how often the snapshots come (`accumulatedUsage_maxima`).  The total is not: it is
kept from a snapshot that reported one, and does not follow a count that grows later.
-/

namespace OpenProxy

section

variable {α β : Type} (merge : α → α → α)

/-- The first value is stored, later ones are merged into it. -/
def store (stored : Option α) (new : α) : Option α :=
  match stored with
  | some existing => some (merge existing new)
  | none => some new

variable {merge}

theorem foldl_store_some (x : α) (xs : List α) : xs.foldl (store merge) (some x) = some (xs.foldl merge x) := by
  induction xs generalizing x with
  | nil => rfl
  | cons y xs ih => exact ih (merge x y)

theorem foldl_store_cons (x : α) (xs : List α) :
    (x :: xs).foldl (store merge) none = some (xs.foldl merge x) := foldl_store_some x xs

/-- What merging makes the maximum of is the maximum of all the values. -/
theorem map_foldl_store [LinearOrder β] {f : α → β} (h : ∀ x y, f (merge x y) = max (f x) (f y)) (xs : List α) :
    (xs.foldl (store merge) none).map f = (xs.map f).max? := by
  cases xs with
  | nil => rfl
  | cons x xs =>
    rw [foldl_store_cons, List.map_cons, List.max?_cons', Option.map_some, List.foldl_map]
    congr 1
    exact (List.foldl_hom f fun x y => (h x y).symm).symm

theorem max?_congr [LinearOrder β] {xs ys : List β} (h : ∀ x, x ∈ xs ↔ x ∈ ys) : xs.max? = ys.max? := by
  cases hys : ys.max? with
  | none =>
    rw [List.max?_eq_none_iff] at hys ⊢
    subst hys
    exact List.eq_nil_iff_forall_not_mem.mpr fun x hx => List.not_mem_nil ((h x).mp hx)
  | some y =>
    rw [List.max?_eq_some_iff] at hys ⊢
    exact ⟨(h y).mpr hys.1, fun x hx => hys.2 x ((h x).mp hx)⟩

end

namespace Upstream

/-- `ResponseAccumulator::set_usage`. -/
def setUsage (usage : Option OpenAIUsage) (new : OpenAIUsage) : Option OpenAIUsage := store mergeUsage usage new

/-- The usage after a sequence of snapshots. -/
def accumulatedUsage (snapshots : List OpenAIUsage) : Option OpenAIUsage := snapshots.foldl setUsage none

/-- The cached count of a snapshot; a count that is not reported is below all others. -/
def OpenAIUsage.cachedTokens (u : OpenAIUsage) : WithBot Nat := u.promptTokensDetails.join

/-- The total of a snapshot is not reported, or it covers the prompt and the completion. -/
def OpenAIUsage.Plausible (u : OpenAIUsage) : Prop :=
  u.totalTokens = 0 ∨ satAdd32 u.promptTokens u.completionTokens ≤ u.totalTokens

instance (u : OpenAIUsage) : Decidable u.Plausible := inferInstanceAs (Decidable (_ ∨ _))

theorem maxOptional_eq_max (a b : WithBot Nat) : maxOptional a b = max a b := by
  cases a with
  | bot =>
    rw [max_eq_right bot_le]
    rfl
  | coe a =>
    cases b with
    | bot =>
      rw [max_eq_left bot_le]
      rfl
    | coe b => exact WithBot.coe_max a b

theorem cachedTokens_mergeUsage (u v : OpenAIUsage) :
    (mergeUsage u v).cachedTokens = max u.cachedTokens v.cachedTokens := by
  have hoptional : (mergeUsage u v).cachedTokens = maxOptional u.cachedTokens v.cachedTokens := by
    unfold OpenAIUsage.cachedTokens mergeUsage
    cases u.promptTokensDetails with
    | none => rfl
    | some a =>
      cases v.promptTokensDetails with
      | none =>
        cases a with
        | none => rfl
        | some a => rfl
      | some b => rfl
  rw [hoptional, maxOptional_eq_max]

/-- A total that has been reported is kept. -/
theorem le_totalTokens_mergeUsage (u v : OpenAIUsage) : max u.totalTokens v.totalTokens ≤ (mergeUsage u v).totalTokens := by
  show _ ≤ (if 0 < v.totalTokens then max u.totalTokens v.totalTokens
    else if 0 < u.totalTokens then u.totalTokens else satAdd32 u.promptTokens u.completionTokens)
  split
  · exact Nat.le_refl _
  · split
    · omega
    · omega

theorem totalTokens_mergeUsage {u : OpenAIUsage} (hu : 0 < u.totalTokens) (v : OpenAIUsage) :
    (mergeUsage u v).totalTokens = max u.totalTokens v.totalTokens := by
  show (if 0 < v.totalTokens then max u.totalTokens v.totalTokens
    else if 0 < u.totalTokens then u.totalTokens else satAdd32 u.promptTokens u.completionTokens) = _
  by_cases hv : 0 < v.totalTokens
  · rw [if_pos hv]
  · rw [if_neg hv, if_pos hu]
    omega

theorem le_totalTokens_foldl (u : OpenAIUsage) (us : List OpenAIUsage) :
    ∀ v ∈ u :: us, v.totalTokens ≤ (us.foldl mergeUsage u).totalTokens := by
  induction us generalizing u with
  | nil =>
    intro v hv
    rw [List.mem_singleton.mp hv]
    rfl
  | cons w us ih =>
    have hmerged := le_totalTokens_mergeUsage u w
    have hrest := ih (mergeUsage u w)
    have hhead := hrest _ List.mem_cons_self
    intro v hv
    rw [List.foldl_cons]
    rcases List.mem_cons.mp hv with rfl | hv
    · omega
    · rcases List.mem_cons.mp hv with rfl | hv
      · omega
      · exact hrest v (List.mem_cons_of_mem _ hv)

theorem totalTokens_foldl {u : OpenAIUsage} (hu : 0 < u.totalTokens) (us : List OpenAIUsage) :
    some (us.foldl mergeUsage u).totalTokens = ((u :: us).map OpenAIUsage.totalTokens).max? := by
  induction us generalizing u with
  | nil => rfl
  | cons v us ih =>
    have hmerged := totalTokens_mergeUsage hu v
    have hpos : 0 < (mergeUsage u v).totalTokens := by omega
    rw [List.foldl_cons, ih hpos, List.map_cons, List.map_cons, List.map_cons, List.max?_cons', List.max?_cons',
      List.foldl_cons, hmerged]

/-- In whatever order and how often the snapshots come, the prompt, the completion and the cached counts are the largest
ones reported.  The total is not less than any that has been reported, and so covers each snapshot that reported one; it
is the largest of them if the first snapshot reports one. -/
theorem accumulatedUsage_maxima {snapshots order : List OpenAIUsage} (hsame : ∀ u, u ∈ order ↔ u ∈ snapshots)
    (hsnapshots : ∀ u ∈ snapshots, u.Plausible) :
    (accumulatedUsage order).map OpenAIUsage.promptTokens = (snapshots.map OpenAIUsage.promptTokens).max? ∧
      (accumulatedUsage order).map OpenAIUsage.completionTokens = (snapshots.map OpenAIUsage.completionTokens).max? ∧
      (accumulatedUsage order).map OpenAIUsage.cachedTokens = (snapshots.map OpenAIUsage.cachedTokens).max? ∧
      (∀ u ∈ accumulatedUsage order, ∀ v ∈ snapshots,
        v.totalTokens ≤ u.totalTokens ∧
          (0 < v.totalTokens → satAdd32 v.promptTokens v.completionTokens ≤ u.totalTokens)) ∧
      (∀ v ∈ order.head?, 0 < v.totalTokens →
        (accumulatedUsage order).map OpenAIUsage.totalTokens = (snapshots.map OpenAIUsage.totalTokens).max?) := by
  have hmap : ∀ {β : Type} [LinearOrder β] (f : OpenAIUsage → β),
      (order.map f).max? = (snapshots.map f).max? := by
    intro β _ f
    apply max?_congr
    intro x
    simp only [List.mem_map, hsame]
  refine ⟨?_, ?_, ?_, ?_, ?_⟩
  · rw [← hmap]
    exact map_foldl_store promptTokens_mergeUsage order
  · rw [← hmap]
    exact map_foldl_store (fun _ _ => rfl) order
  · rw [← hmap]
    exact map_foldl_store cachedTokens_mergeUsage order
  · intro u hu v hv
    cases order with
    | nil => cases hu
    | cons first order =>
      have hfold : order.foldl mergeUsage first = u :=
        Option.some.inj ((foldl_store_cons first order).symm.trans hu)
      have hle := le_totalTokens_foldl first order v ((hsame v).mpr hv)
      rw [hfold] at hle
      refine ⟨hle, ?_⟩
      intro hpos
      rcases hsnapshots v hv with hzero | hcovers
      · omega
      · omega
  · intro v hv hpos
    cases order with
    | nil => cases hv
    | cons first order =>
      have hfirst : first = v := Option.some.inj hv
      rw [← hmap, accumulatedUsage]
      unfold setUsage
      rw [foldl_store_cons]
      exact totalTokens_foldl (hfirst ▸ hpos) order

/-- The usage of `message_start`, and one of `message_delta` that repeats neither the prompt nor the total. -/
def messageStartUsage : OpenAIUsage := ⟨622, 2, 624, some (some 100)⟩

def deltaUsage : OpenAIUsage := ⟨0, 89, 0, none⟩

theorem accumulatedUsage_maxima_repeated :
    (accumulatedUsage [messageStartUsage, deltaUsage, messageStartUsage]).map OpenAIUsage.completionTokens = some 89 ∧
      (accumulatedUsage [messageStartUsage, deltaUsage, messageStartUsage]).map OpenAIUsage.totalTokens = some 624 := by
  have hsame : ∀ u, u ∈ [messageStartUsage, deltaUsage, messageStartUsage] ↔ u ∈ [deltaUsage, messageStartUsage] := by
    intro u
    simp only [List.mem_cons, List.not_mem_nil, or_false]
    tauto
  obtain ⟨-, hcompletion, -, -, htotal⟩ := accumulatedUsage_maxima hsame (by decide)
  exact ⟨hcompletion, htotal messageStartUsage rfl (by decide)⟩

/-- The total of the first event is kept, and does not cover the completion of the last one. -/
theorem accumulatedUsage_total_stale :
    (∀ u ∈ [messageStartUsage, deltaUsage], u.Plausible) ∧
      ∃ u, accumulatedUsage [messageStartUsage, deltaUsage] = some u ∧
        u.totalTokens < satAdd32 u.promptTokens u.completionTokens :=
  ⟨by decide, ⟨622, 89, 624, some (some 100)⟩, rfl, by decide⟩

end Upstream

end OpenProxy
