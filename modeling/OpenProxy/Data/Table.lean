import Mathlib.Data.List.AList
import Mathlib.Data.List.Sort

/-!
# Hash maps, and sorted rows

A hash map is a list of entries with distinct keys.  The three ways in which a map is filled from a list of rows (the
last row of a key wins, the first one wins, or the rows of a key are collected in order) are described by what a lookup
then returns.  The last section is about sorting rows whose order keys are distinct: filtering and sorting commute.
-/

namespace OpenProxy

/-- A hash map, as the list of its entries. -/
abbrev Table (α β : Type) := AList fun _ : α => β

namespace Table

variable {α β ρ : Type} [DecidableEq α]

/-- `entry(key).or_insert(value)`: an existing value stays. -/
def orInsert (t : Table α β) (a : α) (b : β) : Table α β := if (t.lookup a).isSome then t else t.insert a b

/-- `entry(key).or_default().push(value)`. -/
def push (t : Table α (List β)) (a : α) (b : β) : Table α (List β) := t.insert a ((t.lookup a).getD [] ++ [b])

/-- `iter_mut`: every value is replaced. -/
def mapValues (t : Table α β) (f : α → β → β) : Table α β where
  entries := t.entries.map fun e => ⟨e.1, f e.1 e.2⟩
  nodupKeys := by
    have h : (t.entries.map fun e => (⟨e.1, f e.1 e.2⟩ : Σ _ : α, β)).keys = t.entries.keys := by
      simp [List.keys, Function.comp_def]
    rw [List.NodupKeys, h]
    exact t.nodupKeys

/-- `retain`. -/
def retain (t : Table α β) (keep : α → β → Bool) : Table α β where
  entries := t.entries.filter fun e => keep e.1 e.2
  nodupKeys := t.nodupKeys.sublist List.filter_sublist

/-- `remove` for some keys, one after the other. -/
def removeAll (t : Table α β) (keys : List α) : Table α β := keys.foldl (fun t key => t.erase key) t

theorem lookup_mapValues (t : Table α β) (f : α → β → β) (a : α) :
    (t.mapValues f).lookup a = (t.lookup a).map (f a) := by
  have h : ∀ entries : List (Σ _ : α, β),
      (entries.map fun e => (⟨e.1, f e.1 e.2⟩ : Σ _ : α, β)).dlookup a = (entries.dlookup a).map (f a) := by
    intro entries
    induction entries with
    | nil => rfl
    | cons e entries ih =>
      obtain ⟨k, v⟩ := e
      by_cases hak : a = k
      · subst hak
        simp
      · rw [List.map_cons, List.dlookup_cons_ne _ _ hak, List.dlookup_cons_ne _ _ hak, ih]
  exact h t.entries

theorem lookup_retain (t : Table α β) (keep : α → β → Bool) (a : α) :
    (t.retain keep).lookup a = (t.lookup a).filter (keep a) := by
  ext b
  rw [← Option.mem_def, AList.mem_lookup_iff, Option.filter_eq_some_iff, ← Option.mem_def, AList.mem_lookup_iff]
  exact List.mem_filter

theorem lookup_removeAll (t : Table α β) (keys : List α) (a : α) :
    (t.removeAll keys).lookup a = if a ∈ keys then none else t.lookup a := by
  unfold removeAll
  induction keys generalizing t with
  | nil => simp
  | cons key keys ih =>
    rw [List.foldl_cons, ih]
    by_cases h : a = key
    · subst h
      rw [AList.lookup_erase, if_pos List.mem_cons_self, ite_self]
    · rw [AList.lookup_erase_ne h]
      simp only [List.mem_cons, h, false_or]

theorem mem_entries_removeAll {t : Table α β} {keys : List α} {e : Σ _ : α, β} :
    e ∈ (t.removeAll keys).entries ↔ e ∈ t.entries ∧ e.1 ∉ keys := by
  obtain ⟨a, b⟩ := e
  rw [← AList.mem_lookup_iff, lookup_removeAll, ← AList.mem_lookup_iff]
  by_cases h : a ∈ keys
  · simp [h]
  · simp [h]

omit [DecidableEq α] in
theorem length_entries (t : Table α β) : t.entries.length = t.keys.length := by
  rw [AList.keys, List.keys, List.length_map]

theorem length_removeAll_le (t : Table α β) (keys : List α) : (t.removeAll keys).entries.length ≤ t.entries.length := by
  unfold removeAll
  induction keys generalizing t with
  | nil => exact le_rfl
  | cons key keys ih =>
    refine (ih _).trans ?_
    rw [length_entries, length_entries, AList.keys_erase]
    exact List.length_erase_le

/-- A key that is there is removed. -/
theorem length_removeAll_lt {t : Table α β} {keys : List α} {a : α} (h : a ∈ keys) (ha : a ∈ t) :
    (t.removeAll keys).entries.length < t.entries.length := by
  unfold removeAll
  induction keys generalizing t with
  | nil => cases h
  | cons key keys ih =>
    have hle : (t.erase key).entries.length ≤ t.entries.length := by
      rw [length_entries, length_entries, AList.keys_erase]
      exact List.length_erase_le
    by_cases heq : a = key
    · subst heq
      refine (length_removeAll_le (t.erase a) keys).trans_lt ?_
      rw [length_entries, length_entries, AList.keys_erase, List.length_erase_of_mem (AList.mem_keys.mp ha)]
      exact Nat.sub_one_lt (List.length_pos_of_mem (AList.mem_keys.mp ha)).ne'
    · refine (ih ((List.mem_cons.mp h).resolve_left heq) ?_).trans_le hle
      rw [AList.mem_erase]
      exact ⟨heq, ha⟩

/-- The entries with one key. -/
theorem filterMap_entries {γ : Type} (t : Table α β) (a : α) (f : β → Option γ) :
    t.entries.filterMap (fun e => if e.1 = a then f e.2 else none) = ((t.lookup a).bind f).toList := by
  have h : ∀ entries : List (Σ _ : α, β), entries.NodupKeys →
      entries.filterMap (fun e => if e.1 = a then f e.2 else none) = ((entries.dlookup a).bind f).toList := by
    intro entries hnodup
    induction entries with
    | nil => rfl
    | cons e entries ih =>
      obtain ⟨k, v⟩ := e
      rw [List.nodupKeys_cons] at hnodup
      by_cases hak : a = k
      · subst hak
        have hnone : entries.dlookup a = none := List.dlookup_eq_none.mpr hnodup.1
        have hrest := ih hnodup.2
        rw [hnone] at hrest
        rw [List.filterMap_cons, if_pos rfl, hrest, List.dlookup_cons_eq, Option.bind_some]
        cases f v with
        | none => simp
        | some w => simp
      · rw [List.filterMap_cons, if_neg (Ne.symm hak), List.dlookup_cons_ne _ _ hak, ih hnodup.2]
  exact h t.entries t.nodupKeys

theorem lookup_insert_eq (t : Table α β) (a a' : α) (b : β) :
    (t.insert a b).lookup a' = if a' = a then some b else t.lookup a' := by
  split
  · rename_i h
    rw [h, AList.lookup_insert]
  · rename_i h
    rw [AList.lookup_insert_ne h]

theorem lookup_orInsert (t : Table α β) (a a' : α) (b : β) :
    (t.orInsert a b).lookup a' = if a' = a then some ((t.lookup a).getD b) else t.lookup a' := by
  unfold orInsert
  split
  · rename_i h
    obtain ⟨v, hv⟩ := Option.isSome_iff_exists.mp h
    split
    · rename_i h'
      rw [h', hv]
      rfl
    · rfl
  · rename_i h
    rw [Bool.not_eq_true, Option.isSome_eq_false_iff, Option.isNone_iff_eq_none] at h
    rw [lookup_insert_eq, h]
    rfl

theorem lookup_push (t : Table α (List β)) (a a' : α) (b : β) :
    (t.push a b).lookup a' = if a' = a then some ((t.lookup a).getD [] ++ [b]) else t.lookup a' :=
  lookup_insert_eq _ _ _ _

variable (key : ρ → α) (value : ρ → β)

/-- With `or_insert`, the first row of a key wins. -/
theorem lookup_foldl_orInsert (rows : List ρ) (t : Table α β) (a : α) :
    (rows.foldl (fun t r => t.orInsert (key r) (value r)) t).lookup a =
      (t.lookup a).or ((rows.find? fun r => key r = a).map value) := by
  induction rows generalizing t with
  | nil => simp
  | cons r rows ih =>
    rw [List.foldl_cons, ih, lookup_orInsert]
    by_cases h : key r = a
    · subst h
      rw [List.find?_cons_of_pos (by simp), if_pos rfl]
      cases t.lookup (key r) <;> simp
    · rw [List.find?_cons_of_neg (by simpa using h), if_neg (fun e => h e.symm)]

/-- With `insert`, and rows of distinct keys, a lookup finds the row of the key. -/
theorem lookup_foldl_insert (rows : List ρ) (hkeys : (rows.map key).Nodup) (t : Table α β) (a : α) :
    (rows.foldl (fun t r => t.insert (key r) (value r)) t).lookup a =
      ((rows.find? fun r => key r = a).map value).or (t.lookup a) := by
  induction rows generalizing t with
  | nil => simp
  | cons r rows ih =>
    rw [List.map_cons, List.nodup_cons] at hkeys
    rw [List.foldl_cons, ih hkeys.2, lookup_insert_eq]
    by_cases h : key r = a
    · have hnone : rows.find? (fun r => key r = a) = none := by
        rw [List.find?_eq_none]
        intro r' hr' he
        apply hkeys.1
        rw [h, ← of_decide_eq_true he]
        exact List.mem_map_of_mem hr'
      rw [hnone, List.find?_cons_of_pos (by simpa using h), if_pos h.symm]
      rfl
    · rw [List.find?_cons_of_neg (by simpa using h), if_neg (fun e => h e.symm)]

/-- With `push`, the rows of a key are collected in their order. -/
theorem lookup_foldl_push (rows : List ρ) (t : Table α (List β)) (a : α) :
    ((rows.foldl (fun t r => t.push (key r) (value r)) t).lookup a).getD [] =
      (t.lookup a).getD [] ++ (rows.filter fun r => key r = a).map value := by
  induction rows generalizing t with
  | nil => simp
  | cons r rows ih =>
    rw [List.foldl_cons, ih, lookup_push]
    by_cases h : key r = a
    · subst h
      simp
    · rw [List.filter_cons_of_neg (by simpa using h), if_neg (fun e => h e.symm)]

end Table

/-! ### Sorting -/

section Sorting

variable {α : Type} {r s : α → α → Prop} [DecidableRel r] [DecidableRel s]

/-- Rows that are sorted by an order in which no two of them are equivalent are sorted in one way only. -/
theorem eq_insertionSort_of_perm {l l' : List α} (hr : ∀ a b, r a b ∨ r b a) (ht : ∀ a b c, r a b → r b c → r a c)
    (hperm : l'.Perm l) (hsorted : l'.Pairwise r) (hanti : ∀ a ∈ l, ∀ b ∈ l, r a b → r b a → a = b) :
    l' = l.insertionSort r := by
  have : Std.Total r := ⟨hr⟩
  have : IsTrans α r := ⟨ht⟩
  have hs : (l.insertionSort r).Pairwise r := List.pairwise_insertionSort r l
  have hp : l'.Perm (l.insertionSort r) := hperm.trans (List.perm_insertionSort r l).symm
  refine hp.eq_of_pairwise ?_ hsorted hs
  intro a b ha hb hab hba
  exact hanti a (hperm.mem_iff.mp ha) b ((List.perm_insertionSort r l).mem_iff.mp hb) hab hba

/-- Filtering and sorting commute, also when the filter makes a coarser order enough. -/
theorem filter_insertionSort {l : List α} (p : α → Bool) (htotal : ∀ a b, r a b ∨ r b a)
    (htrans : ∀ a b c, r a b → r b c → r a c) (htotal' : ∀ a b, s a b ∨ s b a)
    (htrans' : ∀ a b c, s a b → s b c → s a c) (himp : ∀ a b, p a = true → p b = true → r a b → s a b)
    (hanti : ∀ a ∈ l, ∀ b ∈ l, s a b → s b a → a = b) :
    (l.insertionSort r).filter p = (l.filter p).insertionSort s := by
  have : Std.Total r := ⟨htotal⟩
  have : IsTrans α r := ⟨htrans⟩
  apply eq_insertionSort_of_perm htotal' htrans'
  · exact (List.perm_insertionSort r l).filter p
  · have hs : ((l.insertionSort r).filter p).Pairwise r := (List.pairwise_insertionSort r l).filter p
    refine hs.imp_of_mem ?_
    intro a b ha hb hab
    exact himp a b (List.mem_filter.mp ha).2 (List.mem_filter.mp hb).2 hab
  · intro a ha b hb
    exact hanti a (List.mem_filter.mp ha).1 b (List.mem_filter.mp hb).1

/-- Sorting commutes with a partial map that keeps the order. -/
theorem insertionSort_filterMap {β : Type} {q : β → β → Prop} [DecidableRel q] {l : List α} (f : α → Option β)
    (htotal : ∀ a b, r a b ∨ r b a) (htrans : ∀ a b c, r a b → r b c → r a c) (htotal' : ∀ a b, q a b ∨ q b a)
    (htrans' : ∀ a b c, q a b → q b c → q a c)
    (himp : ∀ a b x y, f a = some x → f b = some y → r a b → q x y)
    (hanti : ∀ x ∈ l.filterMap f, ∀ y ∈ l.filterMap f, q x y → q y x → x = y) :
    (l.filterMap f).insertionSort q = (l.insertionSort r).filterMap f := by
  have : Std.Total r := ⟨htotal⟩
  have : IsTrans α r := ⟨htrans⟩
  symm
  apply eq_insertionSort_of_perm htotal' htrans'
  · exact (List.perm_insertionSort r l).filterMap f
  · rw [List.pairwise_filterMap]
    refine (List.pairwise_insertionSort r l).imp ?_
    intro a b hab x hx y hy
    exact himp a b x y hx hy hab
  · exact hanti

/-- The first row of a sorted list with a property is the least one. -/
theorem find?_insertionSort_eq_some {l : List α} {p : α → Bool} {a : α} (htotal : ∀ a b, r a b ∨ r b a)
    (htrans : ∀ a b c, r a b → r b c → r a c) (hanti : ∀ a ∈ l, ∀ b ∈ l, r a b → r b a → a = b) :
    (l.insertionSort r).find? p = some a ↔ a ∈ l ∧ p a = true ∧ ∀ b ∈ l, p b = true → r a b := by
  have : Std.Total r := ⟨htotal⟩
  have : IsTrans α r := ⟨htrans⟩
  have hs : (l.insertionSort r).Pairwise r := List.pairwise_insertionSort r l
  have hmem : ∀ b, b ∈ l.insertionSort r ↔ b ∈ l := fun b => (List.perm_insertionSort r l).mem_iff
  have hrefl : ∀ b, r b b := fun b => (htotal b b).elim id id
  have hleast : ∀ b, (l.insertionSort r).find? p = some b → ∀ c ∈ l, p c = true → r b c := by
    intro b hb c hc hpc
    rw [List.find?_eq_some_iff_append] at hb
    obtain ⟨-, as, bs, heq, has⟩ := hb
    rw [heq] at hs hmem
    have hc' := (hmem c).mpr hc
    rw [List.mem_append, List.mem_cons] at hc'
    rcases hc' with hc' | rfl | hc'
    · have := has c hc'
      rw [hpc] at this
      exact absurd this (by simp)
    · exact hrefl c
    · rw [List.pairwise_append] at hs
      exact List.rel_of_pairwise_cons hs.2.1 hc'
  constructor
  · intro h
    exact ⟨(hmem a).mp (List.mem_of_find?_eq_some h), List.find?_some h, hleast a h⟩
  · rintro ⟨ha, hpa, hle⟩
    cases hf : (l.insertionSort r).find? p with
    | none =>
      rw [List.find?_eq_none] at hf
      exact absurd hpa (hf a ((hmem a).mpr ha))
    | some b =>
      have hb := (hmem b).mp (List.mem_of_find?_eq_some hf)
      rw [hanti b hb a ha (hleast b hf a ha hpa) (hle b hb (List.find?_some hf))]

end Sorting

/-! ### Rows with distinct keys -/

section Keys

variable {α β κ : Type} (key : α → κ)

/-- The row of a key, in terms of membership. -/
theorem find?_key_eq_some [DecidableEq κ] {l : List α} (hl : (l.map key).Nodup) {k : κ} {a : α} :
    (l.find? fun b => decide (key b = k)) = some a ↔ a ∈ l ∧ key a = k := by
  constructor
  · intro h
    exact ⟨List.mem_of_find?_eq_some h, by simpa using List.find?_some h⟩
  · rintro ⟨ha, hk⟩
    cases hf : l.find? fun b => decide (key b = k) with
    | none =>
      rw [List.find?_eq_none] at hf
      exact absurd (decide_eq_true hk) (hf a ha)
    | some b =>
      have hb : key b = k := by simpa using List.find?_some hf
      rw [List.inj_on_of_nodup_map hl (List.mem_of_find?_eq_some hf) ha (hb.trans hk.symm)]

theorem find?_key_eq_none [DecidableEq κ] {l : List α} {k : κ} :
    (l.find? fun b => decide (key b = k)) = none ↔ ∀ a ∈ l, key a ≠ k := by
  simp [List.find?_eq_none]

theorem find?_key_perm [DecidableEq κ] {l l' : List α} (hperm : l'.Perm l) (hl : (l.map key).Nodup) (k : κ) :
    (l'.find? fun b => decide (key b = k)) = l.find? fun b => decide (key b = k) := by
  have hl' : (l'.map key).Nodup := (hperm.map key).nodup_iff.mpr hl
  cases hf : l.find? fun b => decide (key b = k) with
  | none =>
    rw [find?_key_eq_none key] at hf ⊢
    exact fun a ha => hf a (hperm.mem_iff.mp ha)
  | some a =>
    rw [find?_key_eq_some key hl] at hf
    rw [find?_key_eq_some key hl']
    exact ⟨hperm.mem_iff.mpr hf.1, hf.2⟩

variable (ident : β → κ)

private theorem not_mem_filterMap {l : List α} {f : α → Option β} (hf : ∀ a x, f a = some x → ident x = key a) {k : κ}
    (hk : k ∉ l.map key) : k ∉ (l.filterMap f).map ident := by
  intro h
  obtain ⟨x, hx, rfl⟩ := List.mem_map.mp h
  obtain ⟨a, ha, hax⟩ := List.mem_filterMap.mp hx
  exact hk (by rw [hf a x hax]; exact List.mem_map_of_mem ha)

/-- Two selections of rows with distinct keys have the same keys if and only if they select the same rows. -/
theorem map_filterMap_eq_iff {l : List α} (hl : (l.map key).Nodup) {f g : α → Option β}
    (hf : ∀ a x, f a = some x → ident x = key a) (hg : ∀ a x, g a = some x → ident x = key a) :
    (l.filterMap f).map ident = (l.filterMap g).map ident ↔ ∀ a ∈ l, (f a).isSome = (g a).isSome := by
  induction l with
  | nil => simp
  | cons a l ih =>
    rw [List.map_cons, List.nodup_cons] at hl
    have hih := ih hl.2
    have hnf := not_mem_filterMap key ident hf hl.1
    have hng := not_mem_filterMap key ident hg hl.1
    cases hfa : f a with
    | none =>
      cases hga : g a with
      | none => simp [hfa, hga, hih]
      | some y =>
        simp only [List.filterMap_cons, hfa, hga, List.map_cons, List.mem_cons, forall_eq_or_imp, Option.isSome_none,
          Option.isSome_some, Bool.false_eq_true, false_and, iff_false]
        intro h
        apply hnf
        rw [h, hg a y hga]
        simp
    | some x =>
      cases hga : g a with
      | none =>
        simp only [List.filterMap_cons, hfa, hga, List.map_cons, List.mem_cons, forall_eq_or_imp, Option.isSome_none,
          Option.isSome_some, Bool.true_eq_false, false_and, iff_false]
        intro h
        apply hng
        rw [← h, hf a x hfa]
        simp
      | some y =>
        simp only [List.filterMap_cons, hfa, hga, List.map_cons, List.mem_cons, forall_eq_or_imp, Option.isSome_some,
          true_and, ← hih, List.cons.injEq, hf a x hfa, hg a y hga]

/-- Two partial maps of rows with distinct keys have the same values if and only if they agree on every row. -/
theorem filterMap_eq_iff {l : List α} (hl : (l.map key).Nodup) {f g : α → Option β}
    (hf : ∀ a x, f a = some x → ident x = key a) (hg : ∀ a x, g a = some x → ident x = key a) :
    l.filterMap f = l.filterMap g ↔ ∀ a ∈ l, f a = g a := by
  constructor
  · intro h
    have hsome := (map_filterMap_eq_iff key ident hl hf hg).mp (by rw [h])
    induction l with
    | nil => simp
    | cons a l ih =>
      rw [List.map_cons, List.nodup_cons] at hl
      have ha := hsome a (by simp)
      have hl' := fun b hb => hsome b (List.mem_cons_of_mem _ hb)
      cases hfa : f a with
      | none =>
        have hga : g a = none := by simpa [hfa] using ha.symm
        rw [List.filterMap_cons_none hfa, List.filterMap_cons_none hga] at h
        simpa [hfa, hga] using ih hl.2 h hl'
      | some x =>
        obtain ⟨y, hga⟩ := Option.isSome_iff_exists.mp (by rw [← ha, hfa]; rfl : (g a).isSome = true)
        rw [List.filterMap_cons_some hfa, List.filterMap_cons_some hga, List.cons.injEq] at h
        simpa [hfa, hga, h.1] using ih hl.2 h.2 hl'
  · intro h
    exact List.filterMap_congr h

end Keys

end OpenProxy
