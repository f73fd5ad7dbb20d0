import OpenProxy.Anthropic.Content
import OpenProxy.Data.JsonNumbers
import OpenProxy.Upstream.Anthropic

/-!
# Responses over the internal format

A response of a Messages upstream reaches a Messages client over the internal format: `anthropic_to_openai` converts it
there and `openai_response_to_anthropic` back.  Texts, reasoning and output tokens survive.  The inputs of tools survive if
they can be read again and `serde_json` reads each of their numbers as itself, and the number of input tokens if none of
them come from the cache, since cached tokens are inside the prompt count of the internal format and beside the input count
of a Messages response (`survivesHop_iff`).
-/

namespace OpenProxy.Anthropic

open Json

open Upstream (AnthropicResponse AnthropicUsage OpenAIToolCall OpenAIUsage anthropicToOpenai blockType contentOfBlock
  satAdd32 thinkingOfBlock toolCallOfBlock u32Max)

/-! ### The internal format -/

/-- `OpenAIChoice`. -/
structure OpenAIChoice where
  index : Nat
  message : OpenAIMessage
  finishReason : Option Text

/-- `OpenAIResponse`. -/
structure OpenAIResponse where
  id : Text
  model : Text
  choices : List OpenAIChoice
  usage : Option OpenAIUsage

/-- A tool call as `anthropic_to_openai` writes it. -/
def toolCallJson (call : OpenAIToolCall) : Json :=
  object
    [(Key.function, object [(Key.arguments, string call.arguments), (Key.name, string call.name)]),
      (Key.id, string call.id), (Key.type, string Key.function)]

/-- The extra fields of a message with reasoning. -/
def reasoningFields : Option Text → List (Text × Json)
  | some reasoning => [(Key.reasoning, string reasoning), ("reasoning_content".toList, string reasoning)]
  | none => []

/-- The result of `anthropic_to_openai` with its message. -/
def toOpenaiResponse (resp : AnthropicResponse) : OpenAIResponse :=
  let r := anthropicToOpenai resp
  { id := r.id
    model := r.model
    choices := [{
      index := 0
      message := {
        role := Role.assistant
        content := r.content.map string
        name := none
        toolCallId := none
        toolCalls := r.toolCalls.map fun calls => calls.map toolCallJson
        extra := reasoningFields r.reasoning }
      finishReason := r.finishReason }]
    usage := some r.usage }

/-! ### The way back -/

section Hop

variable (readNumber : JsonNumber → Option JsonNumber)

/-- `serde_json::from_str`, with the numbers as they are read. -/
def parseArguments (s : Text) : Option Json := (fromStr s).bind (rereadNumbers readNumber)

/-- `map_openai_finish_reason_to_anthropic`. -/
def mapOpenaiFinishReasonToAnthropic (finishReason : Option Text) : Option Text :=
  finishReason.map fun reason =>
    if reason = "length".toList then "max_tokens".toList
    else if reason = "tool_calls".toList ∨ reason = "function_call".toList then "tool_use".toList
    else if reason = "content_filter".toList then "stop_sequence".toList
    else "end_turn".toList

def thinkingBlock (thinking : Text) : Json := object [(Key.thinking, string thinking), (Key.type, string Key.thinking)]

def toolUseJson (id : Json) (name : Text) (input : Json) : Json :=
  object [(Key.id, id), (Key.input, input), (Key.name, string name), (Key.type, string BlockType.toolUse)]

/-- The `tool_use` block of a tool call; arguments that cannot be read give an empty input. -/
def toolUseOfCall (tc : Json) : Option Json :=
  match tc.get Key.id, tc.get Key.function with
  | some id, some function =>
    let name := (strAt function Key.name).getD []
    let argumentsStr := (strAt function Key.arguments).getD "\x7b\x7d".toList
    some (toolUseJson id name ((parseArguments readNumber argumentsStr).getD (object [])))
  | _, _ => none

/-- `filter(|s| !s.is_empty())`. -/
def nonEmpty (s : Option Text) : Option Text := s.filter fun s => !s.isEmpty

/-- `build_anthropic_content_from_openai_choice`. -/
def buildAnthropicContent (choice : OpenAIChoice) : List Json :=
  let extra := choice.message.extra
  let reasoning := ((getField extra "reasoning_content".toList).or (getField extra Key.reasoning)).bind asStr
  ((nonEmpty reasoning).map thinkingBlock).toList ++
    ((nonEmpty (choice.message.content.bind asStr)).map textBlock).toList ++
    (choice.message.toolCalls.getD []).filterMap (toolUseOfCall readNumber)

/-- `extract_openai_usage`. -/
def extractOpenaiUsage (usage : Option OpenAIUsage) : Nat × Nat × Option Nat :=
  let usage := usage.getD ⟨0, 0, 0, none⟩
  (usage.promptTokens, usage.completionTokens, usage.promptTokensDetails.join)

/-- `openai_response_to_anthropic`. -/
def openaiResponseToAnthropic (resp : OpenAIResponse) : AnthropicResponse :=
  let firstChoice := resp.choices.head?
  let (inputTokens, outputTokens, cacheReadInputTokens) := extractOpenaiUsage resp.usage
  { id := resp.id
    content := (firstChoice.map (buildAnthropicContent readNumber)).getD []
    model := resp.model
    stopReason := mapOpenaiFinishReasonToAnthropic (firstChoice.bind (·.finishReason))
    usage :=
      { inputTokens := UInt32.ofNat inputTokens
        outputTokens := UInt32.ofNat outputTokens
        cacheCreationInputTokens := none
        cacheReadInputTokens := cacheReadInputTokens.map UInt32.ofNat } }

/-- The response after the hop. -/
def hop (resp : AnthropicResponse) : AnthropicResponse := openaiResponseToAnthropic readNumber (toOpenaiResponse resp)

end Hop

/-! ### What a response says -/

/-- A text, thinking or `tool_use` block, with the fields that such a block has. -/
inductive IsBlock (b : Json) : Prop
  | text (t : Text) (type : strAt b Key.type = some BlockType.text) (text : b.get Key.text = some (string t))
  | thinking (t : Text) (type : strAt b Key.type = some Key.thinking) (thinking : b.get Key.thinking = some (string t))
  | toolUse (id name : Text) (input : Json) (type : strAt b Key.type = some BlockType.toolUse)
      (id_eq : b.get Key.id = some (string id)) (name_eq : b.get Key.name = some (string name))
      (input_eq : b.get Key.input = some input) (normal : input.normal = input)

/-- The text of a block of text. -/
def textOfBlock (b : Json) : Text :=
  if strAt b Key.type = some BlockType.text then (strAt b Key.text).getD [] else []

/-- The text of a block of thinking. -/
def blockThinking (b : Json) : Text :=
  if strAt b Key.type = some Key.thinking then (strAt b Key.thinking).getD [] else []

/-- The id, the name and the input of a block that uses a tool. -/
def toolUseFields (b : Json) : Option (Option Json × Option Json × Option Json) :=
  if strAt b Key.type = some BlockType.toolUse then some (b.get Key.id, b.get Key.name, b.get Key.input) else none

/-- The concatenated text. -/
def textOf (r : AnthropicResponse) : Text := r.content.flatMap textOfBlock

/-- The concatenated thinking. -/
def thinkingOf (r : AnthropicResponse) : Text := r.content.flatMap blockThinking

/-- The uses of tools, in their order. -/
def toolUsesOf (r : AnthropicResponse) : List (Option Json × Option Json × Option Json) :=
  r.content.filterMap toolUseFields

/-- All input tokens. -/
def totalInput (u : AnthropicUsage) : Nat :=
  satAdd32 (satAdd32 u.inputTokens.toNat (u.cacheReadInputTokens.getD 0).toNat)
    (u.cacheCreationInputTokens.getD 0).toNat

/-- What a response says is the same after the hop. -/
structure SurvivesHop (readNumber : JsonNumber → Option JsonNumber) (r : AnthropicResponse) : Prop where
  text : textOf (hop readNumber r) = textOf r
  thinking : thinkingOf (hop readNumber r) = thinkingOf r
  toolUses : toolUsesOf (hop readNumber r) = toolUsesOf r
  outputTokens : (hop readNumber r).usage.outputTokens = r.usage.outputTokens
  totalInput : totalInput (hop readNumber r).usage = totalInput r.usage

/-! ### Blocks -/

/-- The id, the name and the input of a `tool_use` block. -/
def toolUse (b : Json) : Option (Text × Text × Json) :=
  if strAt b Key.type = some BlockType.toolUse then
    (strAt b Key.id).bind fun id => (strAt b Key.name).bind fun name => (b.get Key.input).map fun input => (id, name, input)
  else none

theorem toolCallOfBlock_eq (b : Json) :
    toolCallOfBlock b = (toolUse b).map fun use => ⟨use.1, use.2.1, write use.2.2⟩ := by
  unfold toolCallOfBlock toolUse strAt blockType
  show (if (b.get Key.type).bind asStr = some BlockType.toolUse then _ else _) = _
  by_cases htype : (b.get Key.type).bind asStr = some BlockType.toolUse
  · rw [if_pos htype, if_pos htype]
    show _ = Option.map _ (((b.get Upstream.Key.id).bind asStr).bind fun id =>
      ((b.get Upstream.Key.name).bind asStr).bind fun name => (b.get Upstream.Key.input).map fun input => (id, name, input))
    cases (b.get Upstream.Key.id).bind asStr with
    | none => rfl
    | some id =>
      cases (b.get Upstream.Key.name).bind asStr with
      | none => rfl
      | some name =>
        cases b.get Upstream.Key.input with
        | none => rfl
        | some input => rfl
  · rw [if_neg htype, if_neg htype]
    rfl

section

variable {b : Json}

theorem strAt_eq {key t : Text} (h : b.get key = some (string t)) : strAt b key = some t := by
  rw [strAt, h]
  rfl

theorem contentOfBlock_eq (h : IsBlock b) : contentOfBlock b = textOfBlock b := by
  show (if strAt b Key.type = some BlockType.text then Upstream.textOfBlock b else []) =
    if strAt b Key.type = some BlockType.text then (strAt b Key.text).getD [] else []
  cases h with
  | text t htype htext =>
    rw [if_pos htype, if_pos htype, strAt_eq htext, Upstream.textOfBlock]
    show (((b.get Key.text).or _).bind asStr).getD [] = _
    rw [htext]
    rfl
  | thinking t htype hthinking =>
    have hne : strAt b Key.type ≠ some BlockType.text := by
      rw [htype]
      decide
    rw [if_neg hne, if_neg hne]
  | toolUse id name input htype hid hname hinput hnormal =>
    have hne : strAt b Key.type ≠ some BlockType.text := by
      rw [htype]
      decide
    rw [if_neg hne, if_neg hne]

theorem thinkingOfBlock_eq (h : IsBlock b) : thinkingOfBlock b = blockThinking b := by
  show (if strAt b Key.type = some Key.thinking ∨ strAt b Key.type = some "thought".toList ∨
    strAt b Key.type = some Key.reasoning then Upstream.reasoningOfBlock b else []) =
    if strAt b Key.type = some Key.thinking then (strAt b Key.thinking).getD [] else []
  cases h with
  | text t htype htext =>
    rw [htype, if_neg (by decide), if_neg (by decide)]
  | thinking t htype hthinking =>
    rw [if_pos (Or.inl htype), if_pos htype, strAt_eq hthinking, Upstream.reasoningOfBlock]
    show (((b.get Key.thinking).or _).bind asStr).getD [] = _
    rw [hthinking]
    rfl
  | toolUse id name input htype hid hname hinput hnormal =>
    rw [htype, if_neg (by decide), if_neg (by decide)]

/-- The use of a tool, as the fields of its block say. -/
def fieldsOfUse (use : Text × Text × Json) : Option Json × Option Json × Option Json :=
  (some (string use.1), some (string use.2.1), some use.2.2)

theorem toolUseFields_eq (h : IsBlock b) : toolUseFields b = (toolUse b).map fieldsOfUse := by
  unfold toolUse toolUseFields
  cases h with
  | text t htype htext => rw [htype, if_neg (by decide), if_neg (by decide), Option.map_none]
  | thinking t htype hthinking => rw [htype, if_neg (by decide), if_neg (by decide), Option.map_none]
  | toolUse id name input htype hid hname hinput hnormal =>
    rw [if_pos htype, if_pos htype, strAt_eq hid, strAt_eq hname, hid, hname, hinput]
    rfl

end

/-! ### The three lists after the hop -/

/-- The uses of tools of a response. -/
def uses (r : AnthropicResponse) : List (Text × Text × Json) := r.content.filterMap toolUse

section Lists

variable {readNumber : JsonNumber → Option JsonNumber}

/-- The input that a client reads again. -/
def readAgain (readNumber : JsonNumber → Option JsonNumber) (input : Json) : Json :=
  (parseArguments readNumber (write input)).getD (object [])

theorem nonEmpty_unless_empty {s : Text} {empty : Bool} (h : empty = true → s = []) :
    nonEmpty (if empty then none else some s) = nonEmpty (some s) := by
  cases empty with
  | false => rfl
  | true =>
    rw [h rfl]
    rfl

theorem reasoning_reasoningFields (reasoning : Option Text) :
    ((getField (reasoningFields reasoning) "reasoning_content".toList).or
      (getField (reasoningFields reasoning) Key.reasoning)).bind asStr = reasoning := by
  cases reasoning with
  | none => rfl
  | some reasoning => rfl

theorem content_string (content : Option Text) : (content.map string).bind asStr = content := by
  cases content with
  | none => rfl
  | some content => rfl

theorem toolCalls_getD (calls : List OpenAIToolCall) :
    ((if calls.isEmpty then none else some calls).map fun calls => calls.map toolCallJson).getD [] =
      calls.map toolCallJson := by
  cases calls with
  | nil => rfl
  | cons call calls => rfl

/-- The blocks of the response after the hop. -/
theorem content_hop {r : AnthropicResponse} (h : ∀ b ∈ r.content, IsBlock b) :
    (hop readNumber r).content =
      ((nonEmpty (some (thinkingOf r))).map thinkingBlock).toList ++ ((nonEmpty (some (textOf r))).map textBlock).toList ++
        (uses r).map fun use => toolUseJson (string use.1) use.2.1 (readAgain readNumber use.2.2) := by
  have htext : r.content.flatMap contentOfBlock = textOf r := List.flatMap_congr fun b hb => contentOfBlock_eq (h b hb)
  have hthinking : r.content.flatMap thinkingOfBlock = thinkingOf r :=
    List.flatMap_congr fun b hb => thinkingOfBlock_eq (h b hb)
  have hcalls : r.content.filterMap toolCallOfBlock = (uses r).map fun use => ⟨use.1, use.2.1, write use.2.2⟩ := by
    rw [uses, List.map_filterMap]
    exact List.filterMap_congr fun b _ => toolCallOfBlock_eq b
  have hreasoning : (anthropicToOpenai r).reasoning = if (thinkingOf r).isEmpty then none else some (thinkingOf r) := by
    rw [← hthinking]
    rfl
  have hcontent : (anthropicToOpenai r).content =
      if (textOf r).isEmpty && !(r.content.filterMap toolCallOfBlock).isEmpty then none else some (textOf r) := by
    rw [← htext]
    rfl
  have htoolCalls : (anthropicToOpenai r).toolCalls =
      if (r.content.filterMap toolCallOfBlock).isEmpty then none else some (r.content.filterMap toolCallOfBlock) := rfl
  show buildAnthropicContent readNumber ⟨0, ⟨_, _, _, _, _, _⟩, _⟩ = _
  unfold buildAnthropicContent
  dsimp only
  rw [reasoning_reasoningFields, content_string, hreasoning, hcontent, htoolCalls, toolCalls_getD,
    nonEmpty_unless_empty List.isEmpty_iff.mp,
    nonEmpty_unless_empty fun hempty => List.isEmpty_iff.mp (Bool.and_eq_true_iff.mp hempty).1,
    hcalls, List.map_map, List.filterMap_map]
  congr 1
  exact (List.filterMap_congr fun _ _ => rfl).trans (congrFun List.filterMap_eq_map _)

theorem thinkingBlock_type (t : Text) : strAt (thinkingBlock t) Key.type = some Key.thinking := rfl

theorem textBlock_type (t : Text) : strAt (textBlock t) Key.type = some BlockType.text := rfl

theorem toolUseJson_type (id : Json) (name : Text) (input : Json) :
    strAt (toolUseJson id name input) Key.type = some BlockType.toolUse := rfl

theorem thinkingBlock_type_ne {type : Text} (h : Key.thinking ≠ type) (t : Text) :
    strAt (thinkingBlock t) Key.type ≠ some type := by
  rw [thinkingBlock_type]
  exact fun heq => h (Option.some.inj heq)

theorem textBlock_type_ne {type : Text} (h : BlockType.text ≠ type) (t : Text) :
    strAt (textBlock t) Key.type ≠ some type := by
  rw [textBlock_type]
  exact fun heq => h (Option.some.inj heq)

theorem toolUseJson_type_ne {type : Text} (h : BlockType.toolUse ≠ type) (id : Json) (name : Text) (input : Json) :
    strAt (toolUseJson id name input) Key.type ≠ some type := by
  rw [toolUseJson_type]
  exact fun heq => h (Option.some.inj heq)

theorem flatMap_nonEmpty {block : Text → Json} {f : Json → Text} (h : ∀ t, f (block t) = t) (t : Text) :
    ((nonEmpty (some t)).map block).toList.flatMap f = t := by
  cases t with
  | nil => rfl
  | cons c t =>
    show f (block (c :: t)) ++ [] = _
    rw [h, List.append_nil]

theorem flatMap_map_of_nil {α : Type} {block : α → Json} {f : Json → Text} (h : ∀ a, f (block a) = []) (items : List α) :
    (items.map block).flatMap f = [] := by
  rw [List.flatMap_map]
  exact List.flatMap_eq_nil_iff.mpr fun a _ => h a

theorem toList_map {α β : Type} (f : α → β) (o : Option α) : (o.map f).toList = o.toList.map f := by
  cases o with
  | none => rfl
  | some a => rfl

theorem textOf_hop {r : AnthropicResponse} (h : ∀ b ∈ r.content, IsBlock b) :
    textOf (hop readNumber r) = textOf r := by
  have hthinking := @thinkingBlock_type_ne BlockType.text (by decide)
  have huse := @toolUseJson_type_ne BlockType.text (by decide)
  rw [textOf, content_hop h, List.flatMap_append, List.flatMap_append, toList_map thinkingBlock,
    flatMap_map_of_nil fun t => if_neg (hthinking t), flatMap_map_of_nil fun use => if_neg (huse _ _ _),
    List.nil_append, List.append_nil]
  exact flatMap_nonEmpty (fun t => if_pos (textBlock_type t)) _

theorem thinkingOf_hop {r : AnthropicResponse} (h : ∀ b ∈ r.content, IsBlock b) :
    thinkingOf (hop readNumber r) = thinkingOf r := by
  have htext := @textBlock_type_ne Key.thinking (by decide)
  have huse := @toolUseJson_type_ne Key.thinking (by decide)
  rw [thinkingOf, content_hop h, List.flatMap_append, List.flatMap_append, toList_map textBlock,
    flatMap_map_of_nil fun t => if_neg (htext t), flatMap_map_of_nil fun use => if_neg (huse _ _ _),
    List.append_nil, List.append_nil]
  exact flatMap_nonEmpty (fun t => if_pos (thinkingBlock_type t)) _

/-- The uses of a response are those that its blocks say. -/
theorem toolUsesOf_eq {r : AnthropicResponse} (h : ∀ b ∈ r.content, IsBlock b) :
    toolUsesOf r = (uses r).map fieldsOfUse := by
  rw [toolUsesOf, uses, List.map_filterMap]
  exact List.filterMap_congr fun b hb => toolUseFields_eq (h b hb)

theorem toolUseFields_of_ne {b : Json} (h : strAt b Key.type ≠ some BlockType.toolUse) : toolUseFields b = none := if_neg h

theorem toolUseFields_toolUseJson (id name : Text) (input : Json) :
    toolUseFields (toolUseJson (string id) name input) = some (fieldsOfUse (id, name, input)) := rfl

theorem toolUsesOf_hop {r : AnthropicResponse} (h : ∀ b ∈ r.content, IsBlock b) :
    toolUsesOf (hop readNumber r) =
      (uses r).map fun use => fieldsOfUse (use.1, use.2.1, readAgain readNumber use.2.2) := by
  have hnone : ∀ (block : Text → Json), (∀ t, toolUseFields (block t) = none) → ∀ o : Option Text,
      (o.map block).toList.filterMap toolUseFields = [] := by
    intro block hblock o
    cases o with
    | none => rfl
    | some t => exact (List.filterMap_cons_none (hblock t)).trans List.filterMap_nil
  rw [toolUsesOf, content_hop h, List.filterMap_append, List.filterMap_append,
    hnone thinkingBlock fun t => toolUseFields_of_ne (thinkingBlock_type_ne (by decide) t),
    hnone textBlock fun t => toolUseFields_of_ne (textBlock_type_ne (by decide) t), List.nil_append, List.nil_append,
    List.filterMap_map, ← List.filterMap_eq_map]
  apply List.filterMap_congr
  intro use _
  exact toolUseFields_toolUseJson use.1 use.2.1 (readAgain readNumber use.2.2)

/-- An input can be read again if it is not nested too deeply and its numbers are read as themselves. -/
theorem readAgain_eq_iff {input : Json} (h : input.normal = input) :
    readAgain readNumber input = input ↔ input.depth ≤ 127 ∧ input.allNumbers (ReadsBack readNumber) = true := by
  unfold readAgain parseArguments
  by_cases hdepth : input.depth ≤ 127
  · rw [Json.fromStr_write hdepth, Option.bind_some, h, ← rereadNumbers_eq_self_iff, and_iff_right hdepth]
    cases hreread : input.rereadNumbers readNumber with
    | some v => rw [Option.getD_some, Option.some.injEq]
    | none =>
      refine iff_of_false ?_ (by simp)
      intro hempty
      rw [Option.getD_none] at hempty
      rw [← hempty] at hreread
      cases hreread
  · have hnone : fromStr (write input) = none := by
      rw [Option.eq_none_iff_forall_ne_some]
      intro v hv
      obtain ⟨u, hread, hu, -⟩ := fromStr_eq_some.mp hv
      rw [read_write] at hread
      exact hdepth (Option.some.inj hread ▸ hu)
    rw [hnone, Option.bind_none, Option.getD_none]
    refine iff_of_false ?_ fun hfit => hdepth hfit.1
    intro hempty
    rw [← hempty] at hdepth
    exact hdepth (by decide)

/-! ### Tokens -/

theorem satAdd32_le (a b : Nat) : satAdd32 a b ≤ u32Max := Nat.min_le_right _ _

theorem usage_hop (r : AnthropicResponse) :
    (hop readNumber r).usage =
      ⟨UInt32.ofNat (totalInput r.usage), r.usage.outputTokens, none, r.usage.cacheReadInputTokens⟩ := by
  have hcached : ((r.usage.cacheReadInputTokens.map fun c => some c.toNat).join).map UInt32.ofNat =
      r.usage.cacheReadInputTokens := by
    cases r.usage.cacheReadInputTokens with
    | none => rfl
    | some c =>
      show some (UInt32.ofNat c.toNat) = _
      rw [UInt32.ofNat_toNat]
  have hdefs : (hop readNumber r).usage = ⟨UInt32.ofNat (totalInput r.usage), UInt32.ofNat r.usage.outputTokens.toNat, none,
      ((r.usage.cacheReadInputTokens.map fun c => some c.toNat).join).map UInt32.ofNat⟩ := rfl
  rw [hdefs, hcached, UInt32.ofNat_toNat]

/-- Cached tokens are counted once more. -/
theorem totalInput_hop (r : AnthropicResponse) :
    totalInput (hop readNumber r).usage = satAdd32 (totalInput r.usage) (r.usage.cacheReadInputTokens.getD 0).toNat := by
  have hsmall : totalInput r.usage < 2 ^ 32 := Nat.lt_of_le_of_lt (satAdd32_le _ _) (by decide)
  have hinput : (UInt32.ofNat (totalInput r.usage)).toNat = totalInput r.usage := UInt32.toNat_ofNat_of_lt' hsmall
  rw [usage_hop]
  show satAdd32 (satAdd32 (UInt32.ofNat (totalInput r.usage)).toNat _) 0 = _
  rw [hinput]
  exact Nat.min_eq_left (satAdd32_le _ _)

theorem totalInput_hop_iff (r : AnthropicResponse) :
    totalInput (hop readNumber r).usage = totalInput r.usage ↔
      (r.usage.cacheReadInputTokens.getD 0).toNat = 0 ∨ totalInput r.usage = u32Max := by
  have hle : totalInput r.usage ≤ u32Max := satAdd32_le _ _
  rw [totalInput_hop]
  generalize totalInput r.usage = total at *
  unfold satAdd32
  omega

/-! ### What survives -/

/-- No input of a tool is nested too deeply to be read again, and each of its numbers is read as itself. -/
def InputsFit (readNumber : JsonNumber → Option JsonNumber) (r : AnthropicResponse) : Prop :=
  ∀ b ∈ r.content, strAt b Key.type = some BlockType.toolUse → ∀ input ∈ b.get Key.input,
    input.depth ≤ 127 ∧ input.allNumbers (ReadsBack readNumber) = true

theorem toolUsesOf_hop_iff {r : AnthropicResponse} (h : ∀ b ∈ r.content, IsBlock b) :
    toolUsesOf (hop readNumber r) = toolUsesOf r ↔ InputsFit readNumber r := by
  rw [toolUsesOf_hop h, toolUsesOf_eq h, List.map_inj_left]
  constructor
  · intro hsame b hb htype input hinput
    obtain ⟨t, ht, -⟩ | ⟨t, ht, -⟩ | ⟨id, name, input', -, hid, hname, hinput', hnormal⟩ := h b hb
    · exact absurd (ht.symm.trans htype) (by decide)
    · exact absurd (ht.symm.trans htype) (by decide)
    · have huse : toolUse b = some (id, name, input') := by
        rw [toolUse, if_pos htype, strAt_eq hid, strAt_eq hname, hinput']
        rfl
      have hread := hsame _ (List.mem_filterMap.mpr ⟨b, hb, huse⟩)
      have hread : readAgain readNumber input' = input' := by
        simpa [fieldsOfUse] using hread
      rw [← Option.some.inj (hinput'.symm.trans hinput)]
      exact (readAgain_eq_iff hnormal).mp hread
  · intro hfit use huse
    obtain ⟨b, hb, huse⟩ := List.mem_filterMap.mp huse
    obtain ⟨t, ht, -⟩ | ⟨t, ht, -⟩ | ⟨id, name, input, htype, hid, hname, hinput, hnormal⟩ := h b hb
    · rw [toolUse, if_neg (by rw [ht]; decide)] at huse
      cases huse
    · rw [toolUse, if_neg (by rw [ht]; decide)] at huse
      cases huse
    · rw [toolUse, if_pos htype, strAt_eq hid, strAt_eq hname, hinput] at huse
      obtain rfl := Option.some.inj huse
      have hread := (readAgain_eq_iff hnormal).mpr (hfit b hb htype input hinput)
      simp only [hread]

/-- A response survives the hop exactly if none of its input tokens come from the cache, unless the count is saturated
anyway, and the inputs of its tools can be read again. -/
theorem survivesHop_iff {r : AnthropicResponse} (h : ∀ b ∈ r.content, IsBlock b) :
    SurvivesHop readNumber r ↔
      ((r.usage.cacheReadInputTokens.getD 0).toNat = 0 ∨ totalInput r.usage = u32Max) ∧ InputsFit readNumber r := by
  constructor
  · intro hsurvives
    exact ⟨(totalInput_hop_iff r).mp hsurvives.totalInput, (toolUsesOf_hop_iff h).mp hsurvives.toolUses⟩
  · rintro ⟨hcached, hfit⟩
    exact ⟨textOf_hop h, thinkingOf_hop h, (toolUsesOf_hop_iff h).mpr hfit, by rw [usage_hop],
      (totalInput_hop_iff r).mpr hcached⟩

end Lists

/-- What `serde_json` reads of a number that is a `u64`. -/
def readInteger (n : JsonNumber) : Option JsonNumber := n.asU64.map JsonNumber.ofNat

/-- The input of a tool, with a number. -/
def listInput : Json := object [("depth".toList, number (.ofNat 2))]

/-- A response with a text and the use of a tool, for a prompt whose beginning may have been cached. -/
def toolResponse (cacheReadInputTokens : Option UInt32) : AnthropicResponse where
  id := "msg_1".toList
  content := [textBlock "On it.".toList, toolUseJson (string "toolu_1".toList) "list".toList listInput]
  model := "m".toList
  stopReason := some "tool_use".toList
  usage := ⟨100, 20, none, cacheReadInputTokens⟩

theorem toolResponse_blocks (cacheReadInputTokens : Option UInt32) :
    ∀ b ∈ (toolResponse cacheReadInputTokens).content, IsBlock b := by
  intro b hb
  rcases List.mem_cons.mp hb with rfl | hb
  · exact .text "On it.".toList rfl rfl
  · rw [List.mem_singleton.mp hb]
    exact .toolUse "toolu_1".toList "list".toList listInput rfl rfl rfl rfl rfl

theorem survivesHop_uncached : SurvivesHop readInteger (toolResponse none) := by
  apply (survivesHop_iff (toolResponse_blocks none)).mpr
  refine ⟨.inl rfl, fun b hb htype input hinput => ?_⟩
  rcases List.mem_cons.mp hb with rfl | hb
  · exact absurd htype (by decide)
  · rw [List.mem_singleton.mp hb] at hinput
    have hlist : listInput = input := Option.some.inj hinput
    rw [← hlist]
    decide

/-- The 50 tokens from the cache are counted twice. -/
theorem survivesHop_cached :
    (∀ b ∈ (toolResponse (some 50)).content, IsBlock b) ∧ totalInput (toolResponse (some 50)).usage = 150 ∧
      totalInput (hop readInteger (toolResponse (some 50))).usage = 200 ∧
      ¬ SurvivesHop readInteger (toolResponse (some 50)) := by
  have hbefore : totalInput (toolResponse (some 50)).usage = 150 := by decide
  have hafter : totalInput (hop readInteger (toolResponse (some 50))).usage = 200 := by
    rw [totalInput_hop, hbefore]
    decide
  refine ⟨toolResponse_blocks _, hbefore, hafter, fun hsurvives => ?_⟩
  have hsame := hsurvives.totalInput
  rw [hbefore, hafter] at hsame
  exact absurd hsame (by decide)

end OpenProxy.Anthropic
