import OpenProxy.Text.Order
import Mathlib.Data.List.TakeWhile

/-!
# JSON values

The values of `serde_json`, as far as the code looks at them.  A document may give a member of an object twice; the last
one counts, and a value that has been read keeps the members of its objects once each and in the order of their names
(`normal`).
-/

namespace OpenProxy

/-! ### Numbers -/

/-- An exponent, or nothing. -/
def isExponent : Text → Bool
  | [] => true
  | c :: s =>
    let s := if s.head? = some '+' ∨ s.head? = some '-' then s.tail else s
    (c == 'e' || c == 'E') && !s.isEmpty && s.all Char.isDigit

/-- A fraction and an exponent, each of which may be missing. -/
def isFraction : Text → Bool
  | '.' :: s => !(s.takeWhile Char.isDigit).isEmpty && isExponent (s.dropWhile Char.isDigit)
  | s => isExponent s

/-- The texts of numbers. -/
def isNumber (s : Text) : Bool :=
  let s := if s.head? = some '-' then s.tail else s
  let int := s.takeWhile Char.isDigit
  !int.isEmpty && (int.head? != some '0' || int.length == 1) && isFraction (s.dropWhile Char.isDigit)

/-- `serde_json::Number`, kept as it is written. -/
structure JsonNumber where
  digits : Text
  valid : isNumber digits = true
  deriving DecidableEq

/-- The number with the given decimal digits. -/
def digitsValue (s : Text) : Nat := s.foldl (fun value c => value * 10 + (c.toNat - 48)) 0

/-- `Number::as_u64`: digits only, and below `2 ^ 64`. -/
def JsonNumber.asU64 (n : JsonNumber) : Option Nat :=
  if n.digits.all Char.isDigit ∧ digitsValue n.digits < 2 ^ 64 then some (digitsValue n.digits) else none

private theorem digitChar_ne_zero : ∀ d < 10, d ≠ 0 → d.digitChar ≠ '0' := by decide

/-- A decimal number other than zero does not begin with a zero. -/
private theorem head_toDigits {n : Nat} (hn : n ≠ 0) : (Nat.toDigits 10 n).head? ≠ some '0' := by
  induction n using Nat.strongRecOn with
  | ind n ih =>
    rcases Nat.lt_or_ge n 10 with h | h
    · rw [Nat.toDigits_of_lt_base h]
      simpa using digitChar_ne_zero n h hn
    · have hrec := ih (n / 10) (by omega) (by omega)
      rw [Nat.toDigits_of_base_le (by omega) h, List.head?_append]
      cases hhead : (Nat.toDigits 10 (n / 10)).head? with
      | none =>
        rw [List.head?_eq_none_iff] at hhead
        exact absurd hhead Nat.toDigits_ne_nil
      | some c =>
        rw [hhead] at hrec
        simpa using hrec

theorem isNumber_toDigits (n : Nat) : isNumber (Nat.toDigits 10 n) = true := by
  have hdigits : ∀ c ∈ Nat.toDigits 10 n, Char.isDigit c = true := fun c hc =>
    Nat.isDigit_of_mem_toDigits (by omega) (by omega) hc
  have hminus : (Nat.toDigits 10 n).head? ≠ some '-' := by
    intro h
    exact absurd (hdigits _ (List.mem_of_mem_head? h)) (by decide)
  have hfirst : (Nat.toDigits 10 n).head? ≠ some '0' ∨ (Nat.toDigits 10 n).length = 1 := by
    by_cases hn : n = 0
    · subst hn
      exact Or.inr (by decide)
    · exact Or.inl (head_toDigits hn)
  have htake : (Nat.toDigits 10 n).takeWhile Char.isDigit = Nat.toDigits 10 n := List.takeWhile_eq_self_iff.mpr hdigits
  have hdrop : (Nat.toDigits 10 n).dropWhile Char.isDigit = [] := List.dropWhile_eq_nil_iff.mpr hdigits
  simp only [isNumber, if_neg hminus, htake, hdrop]
  rcases hfirst with h | h
  · simp [h, isFraction, isExponent]
  · simp [h, isFraction, isExponent]

/-- `Number::from`. -/
def JsonNumber.ofNat (n : Nat) : JsonNumber := ⟨Nat.toDigits 10 n, isNumber_toDigits n⟩

/-! ### Values -/

/-- `serde_json::Value`. -/
inductive Json
  | null
  | bool (b : Bool)
  | number (n : JsonNumber)
  | string (s : Text)
  | array (items : List Json)
  | object (fields : List (Text × Json))

namespace Json

/-- `as_str`. -/
def asStr : Json → Option Text
  | string s => some s
  | _ => none

/-- `as_array`. -/
def asArray : Json → Option (List Json)
  | array items => some items
  | _ => none

/-- `as_object`. -/
def asObject : Json → Option (List (Text × Json))
  | object fields => some fields
  | _ => none

/-- `Map::get`; the last member of a name is the one that counts. -/
def getField (fields : List (Text × Json)) (key : Text) : Option Json :=
  (fields.reverse.find? fun field => field.1 == key).map (·.2)

/-- `Map::remove`. -/
def removeField (key : Text) (fields : List (Text × Json)) : List (Text × Json) :=
  fields.filter fun field => field.1 != key

/-- `Map::insert`. -/
def insertField (key : Text) (value : Json) (fields : List (Text × Json)) : List (Text × Json) :=
  let rest := removeField key fields
  rest.takeWhile (fun field => textLt field.1 key) ++ (key, value) :: rest.dropWhile fun field => textLt field.1 key

/-- `Map::insert` where there is a value. -/
def setField (key : Text) (value : Option Json) (fields : List (Text × Json)) : List (Text × Json) :=
  match value with
  | some value => insertField key value fields
  | none => fields

/-- `Value::get` with a name. -/
def get (v : Json) (key : Text) : Option Json := v.asObject.bind (getField · key)

/-- `get_mut` with a name, and a change of the member that is found. -/
def update (key : Text) (f : Json → Json) : Json → Json
  | object fields =>
    match getField fields key with
    | some value => object (insertField key (f value) fields)
    | none => object fields
  | v => v

/-- `as_array_mut`, and a change of every item. -/
def mapItems (f : Json → Json) : Json → Json
  | array items => array (items.map f)
  | v => v

mutual

/-- The value that a document stands for. -/
def normal : Json → Json
  | null => null
  | bool b => bool b
  | number n => number n
  | string s => string s
  | array items => array (normalItems items)
  | object fields => object (normalFields fields)

def normalItems : List Json → List Json
  | [] => []
  | item :: items => normal item :: normalItems items

def normalFields : List (Text × Json) → List (Text × Json)
  | [] => []
  | (key, value) :: fields =>
    let rest := normalFields fields
    if (getField rest key).isSome then rest else insertField key (normal value) rest

end

mutual

/-- The number of arrays and objects that stand inside one another. -/
def depth : Json → Nat
  | array items => itemsDepth items + 1
  | object fields => fieldsDepth fields + 1
  | _ => 0

def itemsDepth : List Json → Nat
  | [] => 0
  | item :: items => max (depth item) (itemsDepth items)

def fieldsDepth : List (Text × Json) → Nat
  | [] => 0
  | (_, value) :: fields => max (depth value) (fieldsDepth fields)

end

/-! ### Members -/

@[simp] theorem getField_nil (key : Text) : getField [] key = none := rfl

theorem getField_append (fields fields' : List (Text × Json)) (key : Text) :
    getField (fields ++ fields') key = (getField fields' key).or (getField fields key) := by
  simp only [getField, List.reverse_append, List.find?_append]
  cases fields'.reverse.find? fun field => field.1 == key <;> rfl

theorem getField_singleton (key key' : Text) (value : Json) :
    getField [(key', value)] key = if key' = key then some value else none := by
  by_cases h : key' = key <;> simp [getField, h]

theorem getField_cons (key key' : Text) (value : Json) (fields : List (Text × Json)) :
    getField ((key', value) :: fields) key = (getField fields key).or (if key' = key then some value else none) := by
  rw [← getField_singleton key key' value, ← getField_append, List.singleton_append]

theorem getField_removeField (key : Text) (fields : List (Text × Json)) : getField (removeField key fields) key = none := by
  induction fields with
  | nil => rfl
  | cons field fields ih =>
    by_cases h : field.1 = key
    · rw [removeField, List.filter_cons_of_neg (by simp [h])]
      exact ih
    · rw [removeField, List.filter_cons_of_pos (by simp [h])]
      rw [getField_cons, if_neg h, ← removeField, ih]
      rfl

theorem getField_removeField_of_ne {key key' : Text} (h : key' ≠ key) (fields : List (Text × Json)) :
    getField (removeField key' fields) key = getField fields key := by
  induction fields with
  | nil => rfl
  | cons field fields ih =>
    rw [getField_cons]
    by_cases h' : field.1 = key'
    · rw [removeField, List.filter_cons_of_neg (by simp [h']), ← removeField, ih, if_neg (h' ▸ h), Option.or_none]
    · rw [removeField, List.filter_cons_of_pos (by simp [h']), getField_cons, ← removeField, ih]

/-- Splitting a list of members at a name and putting it together again finds the same members. -/
private theorem getField_split (key : Text) (p : Text × Json → Bool) (fields : List (Text × Json)) :
    (getField (fields.dropWhile p) key).or (getField (fields.takeWhile p) key) = getField fields key := by
  rw [← getField_append, List.takeWhile_append_dropWhile]

theorem getField_insertField (key : Text) (value : Json) (fields : List (Text × Json)) :
    getField (insertField key value fields) key = some value := by
  have hsplit := getField_split key (fun field => textLt field.1 key) (removeField key fields)
  rw [getField_removeField, Option.or_eq_none_iff] at hsplit
  simp only [insertField, getField_append, getField_cons, hsplit.1, hsplit.2, if_true, Option.none_or, Option.or_none]

theorem getField_insertField_of_ne {key key' : Text} (h : key' ≠ key) (value : Json) (fields : List (Text × Json)) :
    getField (insertField key' value fields) key = getField fields key := by
  simp only [insertField, getField_append, getField_cons, if_neg h, Option.or_none, getField_split,
    getField_removeField_of_ne h]

theorem getField_setField (key : Text) (value : Option Json) (fields : List (Text × Json)) :
    getField (setField key value fields) key = value.or (getField fields key) := by
  cases value with
  | none => rfl
  | some value => exact getField_insertField key value fields

theorem getField_setField_of_ne {key key' : Text} (h : key' ≠ key) (value : Option Json) (fields : List (Text × Json)) :
    getField (setField key' value fields) key = getField fields key := by
  cases value with
  | none => rfl
  | some value => exact getField_insertField_of_ne h value fields

theorem get_object (fields : List (Text × Json)) (key : Text) : (object fields).get key = getField fields key := rfl

theorem get_update (key : Text) (f : Json → Json) (v : Json) : (update key f v).get key = (v.get key).map f := by
  cases v with
  | object fields =>
    simp only [update, get, asObject, Option.bind_some]
    cases h : getField fields key with
    | none => simp [h]
    | some value => simp [getField_insertField]
  | _ => rfl

theorem get_update_of_ne {key key' : Text} (h : key' ≠ key) (f : Json → Json) (v : Json) :
    (update key' f v).get key = v.get key := by
  cases v with
  | object fields =>
    simp only [update, get, asObject, Option.bind_some]
    cases getField fields key' with
    | none => rfl
    | some value => exact getField_insertField_of_ne h (f value) fields
  | _ => rfl

theorem asArray_mapItems (f : Json → Json) (v : Json) : (mapItems f v).asArray = v.asArray.map (List.map f) := by
  cases v <;> rfl

/-- Reading a member of the value is reading it in the document. -/
theorem getField_normalFields (fields : List (Text × Json)) (key : Text) :
    getField (normalFields fields) key = (getField fields key).map normal := by
  induction fields with
  | nil => rfl
  | cons field fields ih =>
    obtain ⟨key', value⟩ := field
    simp only [normalFields, getField_cons]
    by_cases h : key' = key
    · subst h
      split
      · rename_i hsome
        rw [ih] at hsome ⊢
        obtain ⟨v, hv⟩ := Option.isSome_iff_exists.mp hsome
        rw [Option.map_eq_some_iff] at hv
        obtain ⟨u, hu, -⟩ := hv
        simp [hu]
      · rename_i hnone
        rw [Option.not_isSome_iff_eq_none, ih, Option.map_eq_none_iff] at hnone
        simp [getField_insertField, hnone]
    · rw [if_neg h, Option.or_none]
      split
      · exact ih
      · rw [getField_insertField_of_ne h, ih]

end Json

end OpenProxy
