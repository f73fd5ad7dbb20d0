import OpenProxy.Data.JsonReplace

/-!
# Chunk payloads

What the stages of a stream read and write of the chunks that pass through them: the first choice, its delta and its
finish reason.  A payload is a chunk if it is a JSON object with an array of choices; the edits of a stage are edits of
the first choice, and leave a chunk.
-/

namespace OpenProxy.Streaming

open Json

/-! ### The names of the fields -/

namespace Key

def choices : Text := "choices".toList

def delta : Text := "delta".toList

def content : Text := "content".toList

def reasoningContent : Text := "reasoning_content".toList

def toolCalls : Text := "tool_calls".toList

def finishReason : Text := "finish_reason".toList

def function : Text := "function".toList

def arguments : Text := "arguments".toList

def name : Text := "name".toList

def id : Text := "id".toList

def index : Text := "index".toList

def type : Text := "type".toList

end Key

/-- `StreamAction`. -/
inductive StreamAction
  | passthrough
  | mutate (payload : Text)
  | skip
  | done
  deriving DecidableEq, Repr

/-- The payload that goes on to the next stage. -/
def StreamAction.emitted (payload : Text) : StreamAction → Option Text
  | passthrough => some payload
  | mutate payload' => some payload'
  | skip => none
  | done => none

/-- The choices of a chunk. -/
def choices (v : Json) : Option (List Json) := (v.get Key.choices).bind asArray

/-- The first choice of a chunk. -/
def firstChoice (v : Json) : Option Json := (choices v).bind List.head?

/-- The chunk with another first choice. -/
def setFirstChoice (choice : Json) (v : Json) : Json :=
  match v, choices v with
  | object fields, some (_ :: rest) => object (insertField Key.choices (array (choice :: rest)) fields)
  | v, _ => v

/-- `choice["name"] = value`. -/
def setField (name : Text) (value : Json) : Json → Json
  | object fields => object (insertField name value fields)
  | v => v

/-- The payload is a JSON object with an array of choices. -/
def IsChunk (payload : Text) : Prop := ∃ v, read payload = some v ∧ (choices v).isSome = true

instance (payload : Text) : Decidable (IsChunk payload) :=
  match h : read payload with
  | none => .isFalse (by simp [IsChunk, h])
  | some v => decidable_of_iff ((choices v).isSome = true) (by simp [IsChunk, h])

/-! ### Edits of chunks -/

theorem choices_object (fields : List (Text × Json)) :
    choices (object fields) = (getField fields Key.choices).bind asArray := rfl

theorem isSome_choices_normal {v : Json} (h : (choices v).isSome = true) : (choices v.normal).isSome = true := by
  cases v with
  | object fields =>
    rw [choices_object] at h
    rw [normal, choices_object, getField_normalFields]
    cases hget : getField fields Key.choices with
    | none => simp [hget] at h
    | some u =>
      cases u with
      | array items => simp [normal, asArray]
      | null | bool b | number n | string s | object fields => simp [hget, asArray] at h
  | null | bool b | number n | string s | array items => simp [choices, Json.get, asObject] at h

theorem isSome_choices_setFirstChoice {v : Json} (choice : Json) (h : (choices v).isSome = true) :
    (choices (setFirstChoice choice v)).isSome = true := by
  unfold setFirstChoice
  split
  · simp [choices_object, getField_insertField, asArray]
  · exact h

theorem isSome_choices_of_blank {v v' : Json} (h : v'.blank = v.blank) (hv : (choices v).isSome = true) :
    (choices v').isSome = true := by
  have hblank : ∀ u : Json, (choices u.blank).isSome = (choices u).isSome := by
    intro u
    cases u with
    | object fields =>
      rw [blank, choices_object, choices_object, getField_blankFields]
      cases getField fields Key.choices with
      | none => rfl
      | some w => cases w <;> rfl
    | null | bool b | number n | string s | array items => rfl
  rw [← hblank, h, hblank]
  exact hv

theorem isChunk_write {v : Json} (h : (choices v).isSome = true) : IsChunk (write v) := ⟨v, read_write v, h⟩

/-- What a stage reads of a chunk is a chunk. -/
theorem isSome_choices_of_fromStr {payload : Text} {v : Json} (h : IsChunk payload) (hv : fromStr payload = some v) :
    (choices v).isSome = true := by
  obtain ⟨u, hu, hchoices⟩ := h
  simp only [fromStr, hu, Option.bind_some] at hv
  split at hv
  · simp only [Option.some.injEq] at hv
    rw [← hv]
    exact isSome_choices_normal hchoices
  · cases hv

/-- No JSON begins with an angle bracket. -/
theorem read_angle (s : Text) : read ('<' :: s) = none := by
  have hstep : lexStep .between '<' = none := by decide
  simp [read, lex, lexFrom, hstep]

theorem not_isChunk_of_angle (s : Text) : ¬ IsChunk ('<' :: s) := by
  rintro ⟨v, hv, -⟩
  rw [read_angle] at hv
  cases hv

end OpenProxy.Streaming
