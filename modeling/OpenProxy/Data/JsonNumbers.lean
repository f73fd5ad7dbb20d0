import OpenProxy.Data.Json

/-!
# The numbers of a value

`serde_json` keeps a number as a `u64`, an `i64` or an `f64`, and the model keeps the text that it is printed as.  Which
texts are printed, and which number is read from such a text, are parameters of the results that depend on them: a float
that has been printed and read again need not be the same float.
-/

namespace OpenProxy

namespace Json

mutual

/-- All numbers of the value have the property. -/
def allNumbers (p : JsonNumber → Bool) : Json → Bool
  | null => true
  | bool _ => true
  | number n => p n
  | string _ => true
  | array items => allNumbersItems p items
  | object fields => allNumbersFields p fields

def allNumbersItems (p : JsonNumber → Bool) : List Json → Bool
  | [] => true
  | item :: items => allNumbers p item && allNumbersItems p items

def allNumbersFields (p : JsonNumber → Bool) : List (Text × Json) → Bool
  | [] => true
  | (_, value) :: fields => allNumbers p value && allNumbersFields p fields

end

theorem allNumbersFields_iff {p : JsonNumber → Bool} {fields : List (Text × Json)} :
    allNumbersFields p fields = true ↔ ∀ field ∈ fields, field.2.allNumbers p = true := by
  induction fields with
  | nil => simp [allNumbersFields]
  | cons field fields ih => simp [allNumbersFields, ih]

/-! ### Reading again -/

section

variable (readNumber : JsonNumber → Option JsonNumber)

mutual

/-- The value whose numbers have been printed and read again; `none` where one of them cannot be read. -/
def rereadNumbers : Json → Option Json
  | null => some null
  | bool b => some (bool b)
  | number n => (readNumber n).map number
  | string s => some (string s)
  | array items => (rereadItems items).map array
  | object fields => (rereadFields fields).map object

def rereadItems : List Json → Option (List Json)
  | [] => some []
  | item :: items => (rereadNumbers item).bind fun item => (rereadItems items).map fun items => item :: items

def rereadFields : List (Text × Json) → Option (List (Text × Json))
  | [] => some []
  | (key, value) :: fields =>
    (rereadNumbers value).bind fun value => (rereadFields fields).map fun fields => (key, value) :: fields

end

/-- The number is read as itself. -/
def ReadsBack (n : JsonNumber) : Bool := readNumber n == some n

mutual

theorem rereadNumbers_eq_self_iff : (v : Json) →
    (v.rereadNumbers readNumber = some v ↔ v.allNumbers (ReadsBack readNumber) = true)
  | null => iff_of_true rfl rfl
  | bool _ => iff_of_true rfl rfl
  | number n => by
    rw [rereadNumbers, allNumbers, ReadsBack, beq_iff_eq, Option.map_eq_some_iff]
    constructor
    · rintro ⟨m, hm, heq⟩
      cases heq
      exact hm
    · intro h
      exact ⟨n, h, rfl⟩
  | string _ => iff_of_true rfl rfl
  | array items => by
    have hitems := rereadItems_eq_self_iff items
    rw [rereadNumbers, allNumbers, ← hitems, Option.map_eq_some_iff]
    simp
  | object fields => by
    have hfields := rereadFields_eq_self_iff fields
    rw [rereadNumbers, allNumbers, ← hfields, Option.map_eq_some_iff]
    simp

theorem rereadItems_eq_self_iff : (items : List Json) →
    (rereadItems readNumber items = some items ↔ allNumbersItems (ReadsBack readNumber) items = true)
  | [] => iff_of_true rfl rfl
  | item :: items => by
    have hitem := rereadNumbers_eq_self_iff item
    have hitems := rereadItems_eq_self_iff items
    rw [rereadItems, allNumbersItems, Bool.and_eq_true, ← hitem, ← hitems, Option.bind_eq_some_iff]
    simp

theorem rereadFields_eq_self_iff : (fields : List (Text × Json)) →
    (rereadFields readNumber fields = some fields ↔ allNumbersFields (ReadsBack readNumber) fields = true)
  | [] => iff_of_true rfl rfl
  | (key, value) :: fields => by
    have hvalue := rereadNumbers_eq_self_iff value
    have hfields := rereadFields_eq_self_iff fields
    rw [rereadFields, allNumbersFields, Bool.and_eq_true, ← hvalue, ← hfields, Option.bind_eq_some_iff]
    simp

end

end

end Json

end OpenProxy
