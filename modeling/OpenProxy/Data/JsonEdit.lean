import OpenProxy.Data.Json

/-!
# Edits inside a document

An edit changes one member of an object or the items of an array and leaves everything else where it is; it may also use
up and change a state.  `SameMembers R` and `SameItems R` relate a document to one that differs from it in its members or
its items only, each of which is related by `R`; edits by related values give related documents.
-/

namespace OpenProxy.Json

variable {σ : Type}

/-! ### Edits -/

/-- The members with a new value for the member that counts. -/
@[grind =] def replaceField (key : Text) (value : Json) : List (Text × Json) → List (Text × Json)
  | [] => []
  | (key', value') :: fields =>
    if key' = key ∧ (getField fields key).isNone then (key', value) :: fields
    else (key', value') :: replaceField key value fields

/-- `get_mut` with a name, and an edit of the member that is found. -/
def editMember (key : Text) (f : Json → σ → Json × σ) : Json → σ → Json × σ
  | object fields, s =>
    match getField fields key with
    | some value => (object (replaceField key (f value s).1 fields), (f value s).2)
    | none => (object fields, s)
  | v, s => (v, s)

/-- `as_array_mut`, and an edit of the items. -/
def editArray (f : List Json → σ → List Json × σ) : Json → σ → Json × σ
  | array items, s => (array (f items s).1, (f items s).2)
  | v, s => (v, s)

theorem getField_replaceField {fields : List (Text × Json)} {key : Text} (value : Json)
    (h : (getField fields key).isSome) : getField (replaceField key value fields) key = some value := by
  induction fields with
  | nil => cases h
  | cons field fields ih =>
    obtain ⟨key', value'⟩ := field
    rw [replaceField]
    split
    · rename_i hlast
      rw [getField_cons, Option.isNone_iff_eq_none.mp hlast.2, if_pos hlast.1]
      rfl
    · rename_i hlast
      have hsome : (getField fields key).isSome := by
        rw [getField_cons] at h
        cases hfield : getField fields key with
        | some _ => rfl
        | none =>
          rw [hfield] at h hlast
          by_cases hkey : key' = key
          · exact absurd ⟨hkey, rfl⟩ hlast
          · rw [if_neg hkey] at h
            cases h
      rw [getField_cons, ih hsome]
      rfl

theorem getField_replaceField_of_ne {key key' : Text} (h : key' ≠ key) (value : Json) (fields : List (Text × Json)) :
    getField (replaceField key' value fields) key = getField fields key := by
  induction fields with
  | nil => rfl
  | cons field fields ih =>
    obtain ⟨key'', value'⟩ := field
    rw [replaceField]
    split
    · rename_i hlast
      have hne : key'' ≠ key := hlast.1 ▸ h
      rw [getField_cons, getField_cons, if_neg hne, if_neg hne]
    · rw [getField_cons, getField_cons, ih]

theorem replaceField_self {fields : List (Text × Json)} {key : Text} {value : Json}
    (h : getField fields key = some value) : replaceField key value fields = fields := by
  induction fields with
  | nil => rfl
  | cons field fields ih =>
    obtain ⟨key', value'⟩ := field
    rw [getField_cons] at h
    rw [replaceField]
    split
    · rename_i hlast
      rw [Option.isNone_iff_eq_none.mp hlast.2, if_pos hlast.1] at h
      cases h
      rfl
    · rename_i hlast
      cases hfield : getField fields key with
      | some found =>
        rw [hfield] at h
        cases h
        rw [ih hfield]
      | none =>
        rw [hfield] at h hlast
        by_cases hkey : key' = key
        · exact absurd ⟨hkey, rfl⟩ hlast
        · rw [if_neg hkey] at h
          cases h

/-- An edit that changes nothing. -/
theorem editMember_self {f : Json → σ → Json × σ} {s : σ} (hf : ∀ value, f value s = (value, s)) (key : Text) (v : Json) :
    editMember key f v s = (v, s) := by
  cases v with
  | object fields =>
    rw [editMember]
    cases h : getField fields key with
    | none => rfl
    | some value =>
      dsimp only
      rw [hf, replaceField_self h]
  | _ => rfl

section

variable (key : Text) (f : Json → σ → Json × σ) (v : Json) (s : σ)

theorem get_editMember : (editMember key f v s).1.get key = (v.get key).map fun value => (f value s).1 := by
  cases v with
  | object fields =>
    rw [editMember, get_object]
    cases h : getField fields key with
    | none => exact h
    | some value => exact getField_replaceField _ (by rw [h]; rfl)
  | _ => rfl

theorem get_editMember_of_ne {key' : Text} (h : key' ≠ key) : (editMember key' f v s).1.get key = v.get key := by
  cases v with
  | object fields =>
    rw [editMember, get_object]
    cases getField fields key' with
    | none => rfl
    | some value => exact getField_replaceField_of_ne h _ fields
  | _ => rfl

/-- The state after an edit is that after the edit of the member. -/
theorem editMember_snd : (editMember key f v s).2 = ((v.get key).map fun value => (f value s).2).getD s := by
  cases v with
  | object fields =>
    rw [editMember, get_object]
    cases getField fields key <;> rfl
  | _ => rfl

end

/-! ### Documents that differ in some places -/

/-- The same members in the same order, each of them related. -/
def SameMembers (R : Text → Json → Json → Prop) : Json → Json → Prop
  | object fields, object fields' =>
    List.Forall₂ (fun field field' => field'.1 = field.1 ∧ R field.1 field.2 field'.2) fields fields'
  | v, v' => v' = v

/-- As many items, each of them related. -/
def SameItems (R : Json → Json → Prop) : Json → Json → Prop
  | array items, array items' => List.Forall₂ R items items'
  | v, v' => v' = v

private theorem forall₂_trans {α : Type} {R : α → α → Prop} (htrans : ∀ a b c, R a b → R b c → R a c) {xs ys zs : List α}
    (h : List.Forall₂ R xs ys) (h' : List.Forall₂ R ys zs) : List.Forall₂ R xs zs := by
  induction h generalizing zs with
  | nil => exact h'
  | cons hab _ ih =>
    cases h' with
    | cons hbc hrest => exact .cons (htrans _ _ _ hab hbc) (ih hrest)

section

variable {R : Text → Json → Json → Prop} {Q : Json → Json → Prop}

theorem SameMembers.refl (hR : ∀ key v, R key v v) (v : Json) : SameMembers R v v := by
  cases v with
  | object fields => exact List.forall₂_same.mpr fun field _ => ⟨rfl, hR _ _⟩
  | _ => rfl

theorem SameItems.refl (hQ : ∀ v, Q v v) (v : Json) : SameItems Q v v := by
  cases v with
  | array items => exact List.forall₂_same.mpr fun item _ => hQ item
  | _ => rfl

theorem SameMembers.trans (hR : ∀ key u v w, R key u v → R key v w → R key u w) {u v w : Json} (h : SameMembers R u v)
    (h' : SameMembers R v w) : SameMembers R u w := by
  cases u with
  | object fields =>
    cases v with
    | object fields' =>
      cases w with
      | object fields'' =>
        refine forall₂_trans (fun a b c hab hbc => ⟨hbc.1.trans hab.1, ?_⟩) h h'
        have hbc' := hbc.2
        rw [hab.1] at hbc'
        exact hR _ _ _ _ hab.2 hbc'
      | _ => cases h'
    | _ => cases h
  | _ =>
    cases h
    exact h'

theorem SameItems.trans (hQ : ∀ u v w, Q u v → Q v w → Q u w) {u v w : Json} (h : SameItems Q u v)
    (h' : SameItems Q v w) : SameItems Q u w := by
  cases u with
  | array items =>
    cases v with
    | array items' =>
      cases w with
      | array items'' => exact forall₂_trans hQ h h'
      | _ => cases h'
    | _ => cases h
  | _ =>
    cases h
    exact h'

private theorem forall₂_replaceField (hR : ∀ key v, R key v v) {key : Text} {value value' : Json}
    {fields : List (Text × Json)} (hvalue : R key value value') (h : getField fields key = some value) :
    List.Forall₂ (fun field field' : Text × Json => field'.1 = field.1 ∧ R field.1 field.2 field'.2) fields
      (replaceField key value' fields) := by
  induction fields with
  | nil => exact .nil
  | cons field fields ih =>
    obtain ⟨key', value''⟩ := field
    have hsame : ∀ fields : List (Text × Json),
        List.Forall₂ (fun field field' : Text × Json => field'.1 = field.1 ∧ R field.1 field.2 field'.2) fields fields :=
      fun fields => List.forall₂_same.mpr fun field _ => ⟨rfl, hR _ _⟩
    rw [getField_cons] at h
    rw [replaceField]
    split
    · rename_i hlast
      rw [Option.isNone_iff_eq_none.mp hlast.2, if_pos hlast.1] at h
      cases h
      obtain ⟨rfl, -⟩ := hlast
      exact .cons ⟨rfl, hvalue⟩ (hsame fields)
    · rename_i hlast
      cases hfield : getField fields key with
      | some found =>
        rw [hfield] at h
        cases h
        exact .cons ⟨rfl, hR _ _⟩ (ih hfield)
      | none =>
        rw [hfield] at h hlast
        by_cases hkey : key' = key
        · exact absurd ⟨hkey, rfl⟩ hlast
        · rw [if_neg hkey] at h
          cases h

/-- An edit of a member by a related value. -/
theorem sameMembers_editMember (hR : ∀ key v, R key v v) {key : Text} {f : Json → σ → Json × σ} (v : Json) (s : σ)
    (hf : ∀ value, v.get key = some value → R key value (f value s).1) : SameMembers R v (editMember key f v s).1 := by
  cases v with
  | object fields =>
    rw [editMember]
    cases h : getField fields key with
    | none => exact SameMembers.refl hR (object fields)
    | some value => exact forall₂_replaceField hR (hf value h) h
  | _ => rfl

theorem sameItems_editArray {f : List Json → σ → List Json × σ} (v : Json) (s : σ)
    (hf : ∀ items, List.Forall₂ Q items (f items s).1) : SameItems Q v (editArray f v s).1 := by
  cases v with
  | array items => exact hf items
  | _ => rfl

end

end OpenProxy.Json
