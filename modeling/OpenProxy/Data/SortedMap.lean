import Mathlib.Data.List.Pairwise
import Mathlib.Order.Lattice

/-!
# Sorted maps

A map whose entries are listed in the order of their keys, as those of a B-tree are.  An entry is made or changed by
`upsert`; up to the order of the entries it is put in front (`upsert_perm`) or changed in its place (`upsert_of_mem`).
-/

namespace OpenProxy

structure SortedMap (κ β : Type) [LinearOrder κ] where
  entries : List (κ × β)
  sorted : entries.Pairwise fun a b => a.1 < b.1

namespace SortedMap

variable {κ β : Type} [LinearOrder κ]

def empty : SortedMap κ β := ⟨[], List.Pairwise.nil⟩

def keys (m : SortedMap κ β) : List κ := m.entries.map Prod.fst

/-- The entries after the one of a key has been made or changed. -/
def upsertEntries (k : κ) (f : Option β → β) : List (κ × β) → List (κ × β)
  | [] => [(k, f none)]
  | e :: es =>
    if k < e.1 then (k, f none) :: e :: es
    else if k = e.1 then (e.1, f (some e.2)) :: es
    else e :: upsertEntries k f es

theorem mem_upsertEntries {k : κ} {f : Option β → β} {es : List (κ × β)} {x : κ × β} (h : x ∈ upsertEntries k f es) :
    x.1 = k ∨ x ∈ es := by
  induction es with
  | nil =>
    rw [List.mem_singleton.mp h]
    exact Or.inl rfl
  | cons e es ih =>
    unfold upsertEntries at h
    split at h
    · rcases List.mem_cons.mp h with rfl | h
      · exact Or.inl rfl
      · exact Or.inr h
    · split at h
      · rename_i heq
        rcases List.mem_cons.mp h with rfl | h
        · exact Or.inl heq.symm
        · exact Or.inr (List.mem_cons_of_mem _ h)
      · rcases List.mem_cons.mp h with rfl | h
        · exact Or.inr List.mem_cons_self
        · exact (ih h).imp_right (List.mem_cons_of_mem _)

theorem pairwise_upsertEntries {k : κ} {f : Option β → β} {es : List (κ × β)} (h : es.Pairwise fun a b => a.1 < b.1) :
    (upsertEntries k f es).Pairwise fun a b => a.1 < b.1 := by
  induction es with
  | nil => exact List.pairwise_singleton _ _
  | cons e es ih =>
    obtain ⟨hfirst, hrest⟩ := List.pairwise_cons.mp h
    unfold upsertEntries
    split
    · rename_i hlt
      refine List.pairwise_cons.mpr ⟨?_, h⟩
      intro x hx
      rcases List.mem_cons.mp hx with rfl | hx
      · exact hlt
      · exact lt_trans hlt (hfirst x hx)
    · rename_i hnlt
      split
      · exact List.pairwise_cons.mpr ⟨hfirst, hrest⟩
      · rename_i hne
        refine List.pairwise_cons.mpr ⟨?_, ih hrest⟩
        intro x hx
        rcases mem_upsertEntries hx with heq | hx
        · rw [heq]
          exact lt_of_le_of_ne (not_lt.mp hnlt) (fun h => hne h.symm)
        · exact hfirst x hx

/-- The entry of a key is made from nothing, or from what it was. -/
def upsert (m : SortedMap κ β) (k : κ) (f : Option β → β) : SortedMap κ β :=
  ⟨upsertEntries k f m.entries, pairwise_upsertEntries m.sorted⟩

/-- A new key. -/
theorem upsert_perm {m : SortedMap κ β} {k : κ} (hk : k ∉ m.keys) (f : Option β → β) :
    (m.upsert k f).entries.Perm ((k, f none) :: m.entries) := by
  have hentries : ∀ es : List (κ × β), k ∉ es.map Prod.fst → (upsertEntries k f es).Perm ((k, f none) :: es) := by
    intro es hes
    induction es with
    | nil => exact List.Perm.refl _
    | cons e es ih =>
      rw [List.map_cons, List.mem_cons, not_or] at hes
      unfold upsertEntries
      split
      · exact List.Perm.refl _
      · rw [if_neg hes.1]
        exact ((ih hes.2).cons e).trans (List.Perm.swap _ _ _)
  exact hentries m.entries hk

/-- A key that is there. -/
theorem upsert_of_mem {m : SortedMap κ β} {k : κ} (hk : k ∈ m.keys) (f : Option β → β) :
    (m.upsert k f).entries = m.entries.map fun e => if e.1 = k then (e.1, f (some e.2)) else e := by
  have hentries : ∀ es : List (κ × β), es.Pairwise (fun a b => a.1 < b.1) → k ∈ es.map Prod.fst →
      upsertEntries k f es = es.map fun e => if e.1 = k then (e.1, f (some e.2)) else e := by
    intro es hsorted hes
    induction es with
    | nil => cases hes
    | cons e es ih =>
      obtain ⟨hfirst, hrest⟩ := List.pairwise_cons.mp hsorted
      unfold upsertEntries
      rw [List.map_cons]
      by_cases heq : k = e.1
      · -- Behind the entry of the key the keys are greater.
        have hothers : es.map (fun e => if e.1 = k then (e.1, f (some e.2)) else e) = es := by
          have hid : es.map (fun e => if e.1 = k then (e.1, f (some e.2)) else e) = es.map id := by
            refine List.map_congr_left fun x hx => ?_
            have hlt := hfirst x hx
            rw [if_neg (by rw [heq]; exact ne_of_gt hlt), id]
          rw [hid, List.map_id]
        rw [if_neg (by rw [heq]; exact lt_irrefl _), if_pos heq, if_pos heq.symm, hothers]
      · have hmem : k ∈ es.map Prod.fst := by
          rw [List.map_cons, List.mem_cons] at hes
          exact hes.resolve_left heq
        obtain ⟨x, hx, hxk⟩ := List.mem_map.mp hmem
        have hlt := hfirst x hx
        rw [hxk] at hlt
        rw [if_neg (not_lt_of_gt hlt), if_neg heq, if_neg (fun h => heq h.symm), ih hrest hmem]
  exact hentries m.entries m.sorted hk

/-- A list of entries in the order of the keys is the list of the map that has them. -/
theorem entries_eq_of_perm {m : SortedMap κ β} {es : List (κ × β)} (hperm : m.entries.Perm es)
    (hsorted : es.Pairwise fun a b => a.1 < b.1) : m.entries = es :=
  hperm.eq_of_pairwise (fun _ _ _ _ hab hba => absurd hba (not_lt_of_gt hab)) m.sorted hsorted

end SortedMap

end OpenProxy
