import OpenProxy.Data.JsonDecode

/-!
# Values with their members in order

The objects of `serde_json` are maps in the order of their names.  Here are the values whose objects are all like that;
two such objects with the same members are equal (`eq_of_getField`).
-/

namespace OpenProxy

namespace Json

/-- The names of the members are in order, and so come once each. -/
def SortedNames (fields : List (Text × Json)) : Prop := fields.Pairwise fun a b => textLt a.1 b.1 = true

instance instDecidableSortedNames (fields : List (Text × Json)) : Decidable (SortedNames fields) :=
  inferInstanceAs (Decidable (fields.Pairwise fun a b => textLt a.1 b.1 = true))

mutual

/-- All objects of the value have their members in order. -/
def isCanonical : Json → Bool
  | null => true
  | bool _ => true
  | number _ => true
  | string _ => true
  | array items => canonicalItems items
  | object fields => decide (SortedNames fields) && canonicalFields fields

def canonicalItems : List Json → Bool
  | [] => true
  | item :: items => isCanonical item && canonicalItems items

def canonicalFields : List (Text × Json) → Bool
  | [] => true
  | (_, value) :: fields => isCanonical value && canonicalFields fields

end

theorem isCanonical_object {fields : List (Text × Json)} :
    (object fields).isCanonical = true ↔ SortedNames fields ∧ canonicalFields fields = true := by
  simp [isCanonical]

theorem canonicalFields_iff {fields : List (Text × Json)} :
    canonicalFields fields = true ↔ ∀ field ∈ fields, field.2.isCanonical = true := by
  induction fields with
  | nil => simp [canonicalFields]
  | cons field fields ih => simp [canonicalFields, ih]

/-! ### Members in order -/

theorem getField_eq_none_iff {fields : List (Text × Json)} {key : Text} :
    getField fields key = none ↔ ∀ field ∈ fields, field.1 ≠ key := by
  simp [getField]

theorem getField_head {key : Text} {value : Json} {fields : List (Text × Json)}
    (h : SortedNames ((key, value) :: fields)) : getField fields key = none := by
  rw [getField_eq_none_iff]
  rintro field hfield rfl
  have hlt := (List.pairwise_cons.1 h).1 field hfield
  rw [textLt_irrefl] at hlt
  exact absurd hlt (by decide)

/-- A name before all names of an object is not among them. -/
private theorem getField_of_lt {key key' : Text} {value : Json} {fields : List (Text × Json)}
    (h : SortedNames ((key', value) :: fields)) (hlt : textLt key key' = true) :
    getField ((key', value) :: fields) key = none := by
  rw [getField_eq_none_iff]
  intro field hfield hkey
  rcases List.mem_cons.1 hfield with rfl | hfield
  · subst hkey
    rw [textLt_irrefl] at hlt
    exact absurd hlt (by decide)
  · have := textLt_trans hlt ((List.pairwise_cons.1 h).1 field hfield)
    rw [hkey, textLt_irrefl] at this
    exact absurd this (by decide)

theorem eq_of_getField {fields fields' : List (Text × Json)} (hs : SortedNames fields) (hs' : SortedNames fields')
    (h : ∀ key, getField fields key = getField fields' key) : fields = fields' := by
  induction fields generalizing fields' with
  | nil =>
    cases fields' with
    | nil => rfl
    | cons field fields' =>
      have hkey := h field.1
      rw [getField_nil, eq_comm, getField_eq_none_iff] at hkey
      exact absurd rfl (hkey field List.mem_cons_self)
  | cons field fields ih =>
    obtain ⟨key, value⟩ := field
    have hhead : getField ((key, value) :: fields) key = some value := by
      rw [getField_cons, getField_head hs, if_pos rfl, Option.none_or]
    cases fields' with
    | nil =>
      rw [h key, getField_nil] at hhead
      cases hhead
    | cons field' fields' =>
      obtain ⟨key', value'⟩ := field'
      have hhead' : getField ((key', value') :: fields') key' = some value' := by
        rw [getField_cons, getField_head hs', if_pos rfl, Option.none_or]
      rcases textLt_trichotomy key key' with hlt | rfl | hlt
      · rw [h key, getField_of_lt hs' hlt] at hhead
        cases hhead
      · have hvalue : value = value' := by
          rw [h key, hhead'] at hhead
          exact (Option.some_inj.1 hhead).symm
        subst hvalue
        congr 1
        apply ih (List.pairwise_cons.1 hs).2 (List.pairwise_cons.1 hs').2
        intro other
        by_cases hother : key = other
        · subst hother
          rw [getField_head hs, getField_head hs']
        · have hrest := h other
          rwa [getField_cons, getField_cons, if_neg hother, Option.or_none, Option.or_none] at hrest
      · rw [← h key', getField_of_lt hs hlt] at hhead'
        cases hhead'

end Json

end OpenProxy
