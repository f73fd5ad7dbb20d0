import Mathlib.Data.List.Dedup
import Mathlib.Data.List.TakeWhile
import Mathlib.Data.List.Induction

/-!
# The first of each key

`keepFirst key` goes through a list and keeps the items whose key has not come before.  Where no two items have the same
key, an item is among the first `n` kept ones exactly where fewer than `n` different items come before it
(`mem_take_keepFirst`).

A reader that gives each new key the next number knows the same items (`firsts_eq_keepFirst`).  The items of a key are the
first one and those that arrive later (`ofKey_firsts`).
-/

namespace OpenProxy

section KeepFirst

variable {α β : Type} [DecidableEq β] (key : α → β)

/-- The items with a key that is not in `seen` and not that of an earlier item. -/
@[simp] def keepFirst : List β → List α → List α
  | _, [] => []
  | seen, x :: xs => if key x ∈ seen then keepFirst seen xs else x :: keepFirst (key x :: seen) xs

variable {key}

theorem keepFirst_sublist (seen : List β) (xs : List α) : (keepFirst key seen xs).Sublist xs := by
  induction xs generalizing seen with
  | nil => exact List.Sublist.refl []
  | cons x xs ih =>
    unfold keepFirst
    split
    · exact (ih seen).cons x
    · exact (ih _).cons_cons x

theorem notMem_seen_of_mem_keepFirst {seen : List β} {xs : List α} {x : α} (h : x ∈ keepFirst key seen xs) :
    key x ∉ seen := by
  induction xs generalizing seen with
  | nil => simp [keepFirst] at h
  | cons y xs ih =>
    unfold keepFirst at h
    split at h
    · exact ih h
    · rename_i hy
      rcases List.mem_cons.1 h with rfl | h
      · exact hy
      · exact fun hx => ih h (List.mem_cons_of_mem _ hx)

theorem nodup_map_keepFirst (seen : List β) (xs : List α) : ((keepFirst key seen xs).map key).Nodup := by
  induction xs generalizing seen with
  | nil => exact List.nodup_nil
  | cons x xs ih =>
    unfold keepFirst
    split
    · exact ih seen
    · rw [List.map_cons, List.nodup_cons]
      refine ⟨fun hx => ?_, ih _⟩
      obtain ⟨y, hy, hkey⟩ := List.mem_map.1 hx
      exact notMem_seen_of_mem_keepFirst hy (by simp [hkey])

theorem mem_map_keepFirst {seen : List β} {xs : List α} {k : β} :
    k ∈ (keepFirst key seen xs).map key ↔ k ∈ xs.map key ∧ k ∉ seen := by
  induction xs generalizing seen with
  | nil => simp [keepFirst]
  | cons x xs ih =>
    unfold keepFirst
    split
    · rename_i hx
      rw [ih, List.map_cons, List.mem_cons]
      constructor
      · exact fun h => ⟨Or.inr h.1, h.2⟩
      · rintro ⟨rfl | h, hk⟩
        · exact absurd hx hk
        · exact ⟨h, hk⟩
    · rename_i hx
      rw [List.map_cons, List.mem_cons, ih, List.map_cons, List.mem_cons, List.mem_cons, not_or]
      by_cases hk : k = key x
      · simp [hk, hx]
      · simp [hk]

theorem keepFirst_append {seen : List β} {xs ys : List α} :
    ∃ seen', keepFirst key seen (xs ++ ys) = keepFirst key seen xs ++ keepFirst key seen' ys ∧
      ∀ k, k ∈ seen' ↔ k ∈ seen ∨ k ∈ xs.map key := by
  induction xs generalizing seen with
  | nil => exact ⟨seen, rfl, by simp⟩
  | cons x xs ih =>
    rw [List.cons_append, keepFirst.eq_2, keepFirst.eq_2]
    split
    · rename_i hx
      obtain ⟨seen', heq, hmem⟩ := @ih seen
      refine ⟨seen', heq, fun k => ?_⟩
      rw [hmem, List.map_cons, List.mem_cons]
      constructor
      · rintro (h | h)
        · exact Or.inl h
        · exact Or.inr (Or.inr h)
      · rintro (h | rfl | h)
        · exact Or.inl h
        · exact Or.inl hx
        · exact Or.inr h
    · obtain ⟨seen', heq, hmem⟩ := @ih (key x :: seen)
      refine ⟨seen', by rw [heq, List.cons_append], fun k => ?_⟩
      rw [hmem, List.map_cons, List.mem_cons, List.mem_cons, or_comm (a := k = key x), or_assoc]

theorem nodup_keepFirst (seen : List β) (xs : List α) : (keepFirst key seen xs).Nodup :=
  (nodup_map_keepFirst seen xs).of_map key

theorem mem_keepFirst (hkey : Function.Injective key) {xs : List α} {x : α} : x ∈ keepFirst key [] xs ↔ x ∈ xs := by
  have h := @mem_map_keepFirst α β _ key [] xs (key x)
  rwa [List.mem_map_of_injective hkey, List.mem_map_of_injective hkey, and_iff_left List.not_mem_nil] at h

section Count

variable [DecidableEq α]

/-- As many items are kept as there are different ones. -/
theorem length_keepFirst (hkey : Function.Injective key) (xs : List α) :
    (keepFirst key [] xs).length = xs.dedup.length := by
  apply List.Perm.length_eq
  rw [List.perm_ext_iff_of_nodup (nodup_keepFirst [] xs) (List.nodup_dedup xs)]
  intro x
  rw [mem_keepFirst hkey, List.mem_dedup]

/-- The first occurrence of an item splits the list. -/
private theorem takeWhile_ne_split {xs : List α} {x : α} (h : x ∈ xs) :
    ∃ rest, xs = xs.takeWhile (fun y => decide (y ≠ x)) ++ x :: rest := by
  induction xs with
  | nil => exact absurd h List.not_mem_nil
  | cons y xs ih =>
    by_cases hy : y = x
    · subst hy
      exact ⟨xs, by simp⟩
    · obtain ⟨rest, hrest⟩ := ih ((List.mem_cons.1 h).resolve_left (Ne.symm hy))
      refine ⟨rest, ?_⟩
      rw [List.takeWhile_cons_of_pos (by simpa using hy), List.cons_append, ← hrest]

/-- An item is among the first `n` kept ones where fewer than `n` different ones come before it. -/
theorem mem_take_keepFirst (hkey : Function.Injective key) {xs : List α} {x : α} (h : x ∈ xs) (n : Nat) :
    x ∈ (keepFirst key [] xs).take n ↔ (xs.takeWhile fun y => decide (y ≠ x)).dedup.length < n := by
  obtain ⟨rest, hsplit⟩ := takeWhile_ne_split h
  have hbefore : x ∉ xs.takeWhile fun y => decide (y ≠ x) := by
    intro hx
    have hne := List.mem_takeWhile_imp hx
    simp at hne
  generalize xs.takeWhile (fun y => decide (y ≠ x)) = before at hsplit hbefore
  obtain ⟨seen, heq, hseen⟩ := @keepFirst_append α β _ key [] before (x :: rest)
  have hx : key x ∉ seen := by
    rw [hseen, List.mem_map_of_injective hkey]
    exact fun hx => hx.elim List.not_mem_nil hbefore
  have hkept : keepFirst key [] xs = keepFirst key [] before ++ x :: keepFirst key (key x :: seen) rest := by
    rw [hsplit, heq, keepFirst.eq_2, if_neg hx]
  have hnodup := @nodup_keepFirst α β _ key [] xs
  rw [hkept, List.nodup_append] at hnodup
  rw [hkept, ← length_keepFirst hkey before]
  have hnot : x ∉ keepFirst key [] before := fun hx => hbefore ((mem_keepFirst hkey).1 hx)
  rw [List.take_append, List.mem_append]
  constructor
  · rintro (hx | hx)
    · exact absurd (List.mem_of_mem_take hx) hnot
    · by_contra hle
      rw [Nat.sub_eq_zero_of_le (by omega), List.take_zero] at hx
      exact List.not_mem_nil hx
  · intro hlt
    obtain ⟨m, hm⟩ : ∃ m, n - (keepFirst key [] before).length = m + 1 := ⟨n - (keepFirst key [] before).length - 1, by omega⟩
    rw [hm, List.take_succ_cons]
    exact Or.inr List.mem_cons_self

end Count

end KeepFirst

/-! ### First arrivals -/

section

variable {α κ : Type} [DecidableEq κ] (key : α → κ)

/-- The elements that are the first ones of their keys. -/
def firsts (l : List α) : List α := l.foldl (fun fs a => if key a ∈ fs.map key then fs else fs ++ [a]) []

/-- The elements of a key. -/
def ofKey (l : List α) (k : κ) : List α := l.filter fun a => key a = k

theorem firsts_concat (l : List α) (a : α) :
    firsts key (l ++ [a]) = if key a ∈ (firsts key l).map key then firsts key l else firsts key l ++ [a] := by
  unfold firsts
  rw [List.foldl_append, List.foldl_cons, List.foldl_nil]

theorem ofKey_concat (l : List α) (a : α) (k : κ) :
    ofKey key (l ++ [a]) k = if key a = k then ofKey key l k ++ [a] else ofKey key l k := by
  unfold ofKey
  rw [List.filter_append]
  by_cases h : key a = k
  · rw [if_pos h, List.filter_cons_of_pos (by simpa using h), List.filter_nil]
  · rw [if_neg h, List.filter_cons_of_neg (by simpa using h), List.filter_nil, List.append_nil]

/-- They are what is kept of the list. -/
theorem firsts_eq_keepFirst (l : List α) : firsts key l = keepFirst key [] l := by
  induction l using List.reverseRecOn with
  | nil => rfl
  | append_singleton l a ih =>
    obtain ⟨seen, happend, hseen⟩ : ∃ seen, keepFirst key [] (l ++ [a]) = keepFirst key [] l ++ keepFirst key seen [a] ∧
        ∀ k, k ∈ seen ↔ k ∈ [] ∨ k ∈ l.map key := keepFirst_append
    have hmem : key a ∈ (keepFirst key [] l).map key ↔ key a ∈ seen := by
      rw [mem_map_keepFirst, hseen, and_iff_left List.not_mem_nil, or_iff_right List.not_mem_nil]
    rw [firsts_concat, ih, happend, if_congr hmem rfl rfl, keepFirst, keepFirst]
    split
    · exact (List.append_nil _).symm
    · rfl

theorem mem_keys_firsts {l : List α} {k : κ} : k ∈ (firsts key l).map key ↔ ∃ a ∈ l, key a = k := by
  rw [firsts_eq_keepFirst, mem_map_keepFirst, and_iff_left List.not_mem_nil, List.mem_map]

theorem nodup_keys_firsts (l : List α) : ((firsts key l).map key).Nodup := by
  rw [firsts_eq_keepFirst]
  exact nodup_map_keepFirst [] l

theorem ofKey_eq_nil {l : List α} {k : κ} (h : k ∉ (firsts key l).map key) : ofKey key l k = [] := by
  rw [mem_keys_firsts] at h
  unfold ofKey
  rw [List.filter_eq_nil_iff]
  intro a ha hk
  exact h ⟨a, ha, of_decide_eq_true hk⟩

/-- The first element of a key stands before the other ones. -/
theorem ofKey_firsts {l : List α} {a : α} (h : a ∈ firsts key l) : ofKey key l (key a) = a :: (ofKey key l (key a)).tail := by
  induction l using List.reverseRecOn with
  | nil => cases h
  | append_singleton l b ih =>
    have hold : a ∈ firsts key l → ofKey key (l ++ [b]) (key a) = a :: (ofKey key (l ++ [b]) (key a)).tail := by
      intro ha
      have hl := ih ha
      rw [ofKey_concat]
      split
      · rw [hl]
        rfl
      · exact hl
    rw [firsts_concat] at h
    split at h
    · exact hold h
    · rename_i hmem
      rcases List.mem_append.mp h with ha | ha
      · exact hold ha
      · rw [List.mem_singleton] at ha
        rw [ofKey_concat, ha, if_pos rfl, ofKey_eq_nil key hmem]
        rfl

/-- Two elements that are the first ones of one key are equal. -/
theorem eq_of_mem_firsts {l : List α} {a b : α} (ha : a ∈ firsts key l) (hb : b ∈ firsts key l) (h : key a = key b) :
    a = b := by
  have hfirst := ofKey_firsts key ha
  rw [h, ofKey_firsts key hb] at hfirst
  exact (List.cons.inj hfirst).1.symm

theorem mem_of_mem_firsts {l : List α} {a : α} (h : a ∈ firsts key l) : a ∈ l := by
  rw [firsts_eq_keepFirst] at h
  exact (keepFirst_sublist [] l).mem h

/-- What is the first element of its key remains so. -/
theorem mem_firsts_concat {l : List α} {a : α} (b : α) (h : a ∈ firsts key l) : a ∈ firsts key (l ++ [b]) := by
  rw [firsts_concat]
  split
  · exact h
  · exact List.mem_append_left _ h

end

end OpenProxy
