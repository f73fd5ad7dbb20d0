import OpenProxy.Types.Message

/-!
# The texts of a message

`mutate_message_text` applies a change of texts to the content of a message: to the content itself if it is a string, and
to the text of every part if it is a list of parts.  Every technique that changes texts is such a pass over the messages,
and leaves everything else as it is (`pass_replaces`).
-/

namespace OpenProxy.Compression

open Json

namespace Key

def text : Text := "text".toList

def content : Text := "content".toList

end Key

/-- The member of a part that holds its text, and the text: `content` where `text` is not a string. -/
def textField (fields : List (Text × Json)) : Option (Text × Text) :=
  match (getField fields Key.text).bind asStr with
  | some text => some (Key.text, text)
  | none => ((getField fields Key.content).bind asStr).map (Key.content, ·)

/-- A text that the change makes different. -/
def mutateText (transform : Text → Option Text) (text : Text) : Option Text :=
  (transform text).filter (· ≠ text)

/-- A part that the change makes different. -/
def mutatePart (transform : Text → Option Text) : Json → Option Json
  | object fields =>
    (textField fields).bind fun field =>
      (mutateText transform field.2).map fun text => object (insertField field.1 (string text) fields)
  | string text => (mutateText transform text).map string
  | _ => none

/-- `mutate_message_text`: the message with its new texts, if one of them is different. -/
def mutateMessageText (transform : Text → Option Text) (msg : OpenAIMessage) : Option OpenAIMessage :=
  match msg.content with
  | some (string text) => (mutateText transform text).map fun text => { msg with content := some (string text) }
  | some (array parts) =>
    if parts.any fun part => (mutatePart transform part).isSome then
      some { msg with content := some (array (parts.map fun part => (mutatePart transform part).getD part)) }
    else none
  | _ => none

/-- A loop over the messages that changes their texts, and the technique once for each message that it changed. -/
def pass (technique : Text) (transform : Text → Option Text) (msgs : List OpenAIMessage) :
    List OpenAIMessage × List Text :=
  (msgs.map fun msg => (mutateMessageText transform msg).getD msg,
    msgs.filterMap fun msg => (mutateMessageText transform msg).map fun _ => technique)

/-! ### What a pass changes -/

/-- The text of a part. -/
def partText : Json → Option Text
  | object fields => (textField fields).map (·.2)
  | string text => some text
  | _ => none

/-- The texts of a content. -/
def contentTexts : Option Json → List Text
  | some (string text) => [text]
  | some (array parts) => parts.filterMap partText
  | _ => []

/-- A part in which the text has been replaced, and nothing else. -/
inductive PartReplaced (f : Text → Text) : Json → Json → Prop
  | string (text : Text) : PartReplaced f (.string text) (.string (f text))
  | object {fields fields' : List (Text × Json)} {key text : Text} (htext : textField fields = some (key, text))
      (hkey : getField fields' key = some (.string (f text)))
      (hrest : ∀ key' ≠ key, getField fields' key' = getField fields key') : PartReplaced f (.object fields) (.object fields')
  | other {part : Json} (h : partText part = none) : PartReplaced f part part

/-- A content in which the texts have been replaced, and nothing else. -/
inductive ContentReplaced (f : Text → Text) : Option Json → Option Json → Prop
  | string (text : Text) : ContentReplaced f (some (.string text)) (some (.string (f text)))
  | array {parts parts' : List Json} (h : List.Forall₂ (PartReplaced f) parts parts') :
      ContentReplaced f (some (.array parts)) (some (.array parts'))
  | other {content : Option Json} (h : contentTexts content = []) : ContentReplaced f content content

/-- A message in which the texts have been replaced, and nothing else. -/
structure MessageReplaced (f : Text → Text) (msg msg' : OpenAIMessage) : Prop where
  content : ContentReplaced f msg.content msg'.content
  rest : msg' = { msg with content := msg'.content }

/-- The text after a change that may leave it alone. -/
def changed (transform : Text → Option Text) (text : Text) : Text := (transform text).getD text

theorem mutateText_getD (transform : Text → Option Text) (text : Text) :
    (mutateText transform text).getD text = changed transform text := by
  unfold mutateText changed
  cases transform text with
  | none => rfl
  | some text' =>
    by_cases h : text' = text
    · simp [Option.filter, h]
    · simp [Option.filter, h]

theorem getField_textField {fields : List (Text × Json)} {key text : Text} (h : textField fields = some (key, text)) :
    getField fields key = some (.string text) := by
  have hstr : ∀ {v : Option Json}, v.bind asStr = some text → v = some (.string text) := by
    intro v hv
    obtain ⟨u, rfl, hu⟩ := Option.bind_eq_some_iff.mp hv
    cases u <;> simp_all [asStr]
  unfold textField at h
  split at h
  · rename_i hfield
    cases h
    exact hstr hfield
  · simp only [Option.map_eq_some_iff] at h
    obtain ⟨text', htext, heq⟩ := h
    cases heq
    exact hstr htext

theorem partReplaced (transform : Text → Option Text) (part : Json) :
    PartReplaced (changed transform) part ((mutatePart transform part).getD part) := by
  cases part with
  | string text =>
    rw [mutatePart, Option.getD_map, mutateText_getD]
    exact PartReplaced.string text
  | object fields =>
    cases hfield : textField fields with
    | none =>
      simp only [mutatePart, hfield, Option.bind_none, Option.getD_none]
      exact PartReplaced.other (by simp [partText, hfield])
    | some field =>
      obtain ⟨key, text⟩ := field
      have hchanged := mutateText_getD transform text
      simp only [mutatePart, hfield, Option.bind_some]
      cases hmutate : mutateText transform text with
      | none =>
        rw [hmutate, Option.getD_none] at hchanged
        refine PartReplaced.object hfield ?_ (fun key' _ => rfl)
        rw [← hchanged]
        exact getField_textField hfield
      | some text' =>
        rw [hmutate, Option.getD_some] at hchanged
        refine PartReplaced.object hfield ?_ fun key' hkey' => getField_insertField_of_ne hkey'.symm _ _
        rw [← hchanged]
        exact getField_insertField key _ fields
  | null | bool b | number n | array items => exact PartReplaced.other rfl

theorem messageReplaced (transform : Text → Option Text) (msg : OpenAIMessage) :
    MessageReplaced (changed transform) msg ((mutateMessageText transform msg).getD msg) := by
  obtain ⟨role, content, name, toolCallId, toolCalls, extra⟩ := msg
  cases content with
  | none => exact ⟨ContentReplaced.other rfl, rfl⟩
  | some v =>
    cases v with
    | string text =>
      have hchanged := mutateText_getD transform text
      simp only [mutateMessageText]
      cases hmutate : mutateText transform text with
      | none =>
        rw [hmutate, Option.getD_none] at hchanged
        refine ⟨?_, rfl⟩
        have h := ContentReplaced.string (f := changed transform) text
        rw [← hchanged] at h
        exact h
      | some text' =>
        rw [hmutate, Option.getD_some] at hchanged
        subst hchanged
        exact ⟨ContentReplaced.string text, rfl⟩
    | array parts =>
      have hparts : List.Forall₂ (PartReplaced (changed transform)) parts
          (parts.map fun part => (mutatePart transform part).getD part) := by
        rw [List.forall₂_map_right_iff, List.forall₂_same]
        exact fun part _ => partReplaced transform part
      simp only [mutateMessageText]
      split_ifs with hany
      · exact ⟨ContentReplaced.array hparts, rfl⟩
      · -- no part is different
        have hsame : (parts.map fun part => (mutatePart transform part).getD part) = parts := by
          refine (List.map_congr_left fun part hpart => ?_).trans (List.map_id parts)
          have hnone : mutatePart transform part = none := by
            rw [List.any_eq_true, not_exists] at hany
            simpa [hpart] using hany part
          simp [hnone]
        rw [hsame] at hparts
        exact ⟨ContentReplaced.array hparts, rfl⟩
    | null | bool b | number n | object fields => exact ⟨ContentReplaced.other rfl, rfl⟩

/-- A pass replaces texts and nothing else. -/
theorem pass_replaces (technique : Text) (transform : Text → Option Text) (msgs : List OpenAIMessage) :
    List.Forall₂ (MessageReplaced (changed transform)) msgs (pass technique transform msgs).1 := by
  rw [pass, List.forall₂_map_right_iff, List.forall₂_same]
  exact fun msg _ => messageReplaced transform msg

end OpenProxy.Compression
