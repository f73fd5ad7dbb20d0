import OpenProxy.Upstream.Anthropic
import OpenProxy.Upstream.SseLine

/-!
# Responses of a Responses upstream

The model of `sse/responses.rs` and of `translation/responses.rs`.  An upstream that speaks the Responses API answers with
one object, which `responsesToOpenai` converts, or with a stream of events, which `parseResponsesSseStreamLine` converts
one by one.
-/

namespace OpenProxy.Upstream.Responses

open Json

/-- A member that is a string. -/
def strMember (v : Json) (key : String) : Option Text := (v.get key.toList).bind asStr

/-- `!is_null()`. -/
def nonNull : Json → Bool
  | null => false
  | _ => true

/-! ### Token counts -/

/-- The counts of cached tokens in an object; zero is not a count. -/
def cachedIn (obj : Json) : Option Nat :=
  let count (key : String) : Option Json := obj.get key.toList
  let cached := ((count "cached_tokens").or ((count "cached_prompt_tokens").or (count "cached_input_tokens"))).bind decodeU64
  let readTokens := ((count "cache_read_input_tokens").or (count "cache_read_tokens")).bind decodeU64
  let hitTokens := (count "prompt_cache_hit_tokens").bind decodeU64
  let counts := [cached, readTokens, hitTokens].filterMap id
  (counts.find? (0 < ·)).or counts.head?

/-- `extract_responses_cached_tokens`. -/
def extractResponsesCachedTokens (usage : Json) : Option Nat :=
  let details := (usage.get "prompt_tokens_details".toList).or ((usage.get "input_tokens_details".toList).or
    ((usage.get "prompt_token_details".toList).or (usage.get "input_token_details".toList)))
  let counts := [details.bind cachedIn, cachedIn usage].filterMap id
  ((counts.find? (0 < ·)).or counts.head?).bind tryU32

/-- A count of tokens under one of two names. -/
def tokenCount (usage : Json) (key key' : String) : Nat :=
  ((((usage.get key.toList).or (usage.get key'.toList)).bind decodeU64).bind tryU32).getD 0

def promptTokens (usage : Json) : Nat := tokenCount usage "input_tokens" "prompt_tokens"

def completionTokens (usage : Json) : Nat := tokenCount usage "output_tokens" "completion_tokens"

/-- The usage of a response, with how the two counts are added where there is no total. -/
def responsesUsage (add : Nat → Nat → Nat) (usage : Json) : OpenAIUsage where
  promptTokens := promptTokens usage
  completionTokens := completionTokens usage
  totalTokens := (((usage.get "total_tokens".toList).bind decodeU64).bind tryU32).getD
    (add (promptTokens usage) (completionTokens usage))
  promptTokensDetails := (extractResponsesCachedTokens usage).map some

/-- The usage of a response, or of an event that carries a response. -/
def usageMember (v : Json) : Option Json :=
  (v.get "usage".toList).or ((v.get "response".toList).bind fun response => response.get "usage".toList)

/-! ### The translation of a response -/

inductive CoreError
  | parse (message : Text)
  | upstream (status : Nat) (model message : Text)
  deriving DecidableEq, Repr

/-- `OpenAIResponse` with its only choice; `reasoning` is in the extra fields of the message. -/
structure OpenAIResponse where
  id : Text
  created : Nat
  model : Text
  role : Text
  content : Option Text
  reasoning : Option Text
  toolCalls : Option (List OpenAIToolCall)
  finishReason : Text
  usage : Option OpenAIUsage

/-- The text of a part of a reasoning item. -/
def reasoningPart (part : Json) : Option Text := (strMember part "text").or part.asStr

def itemType (item : Json) : Text := (strMember item "type").getD []

/-- The reasoning of an item: its content, or else its summary. -/
def reasoningOfItem (item : Json) : Text :=
  if itemType item ≠ "reasoning".toList then []
  else
    let content := item.get "content".toList
    let (text, found) :=
      match content.bind asArray with
      | some parts => (parts.flatMap fun part => (reasoningPart part).getD [], parts.any fun part => (reasoningPart part).isSome)
      | none => ((content.bind asStr).getD [], (content.bind asStr).isSome)
    if found then text
    else
      match (item.get "summary".toList).bind asArray with
      | some parts => parts.flatMap fun part => (reasoningPart part).getD []
      | none =>
        ((strMember item "summary").or ((strMember item "reasoning_content").or (strMember item "text"))).getD []

/-- The content of an item. -/
def contentOfItem (item : Json) : Text :=
  if itemType item ≠ "message".toList then []
  else
    match (item.get "content".toList).bind asArray with
    | some parts => parts.flatMap fun part =>
      if itemType part ∈ ["output_text".toList, "text".toList] then (strMember part "text").getD [] else []
    | none => (strMember item "content").getD []

/-- The call of an item. -/
def toolCallOfItem (item : Json) : Option OpenAIToolCall :=
  if itemType item ≠ "function_call".toList then none
  else some
    { id := (((item.get "call_id".toList).or (item.get "id".toList)).bind asStr).getD "call_unknown".toList
      name := (strMember item "name").getD []
      arguments := (strMember item "arguments").getD "{}".toList }

/-- The role of an item, after the items before it. -/
def roleOfItem (role : Text) (item : Json) : Text :=
  if itemType item ≠ "message".toList then role else (strMember item "role").getD role

/-- Addition of `u32`, which wraps where overflows are not checked. -/
def add32 (a b : Nat) : Nat := (a + b) % 2 ^ 32

/-- `responses_to_openai`, at the time `now`. -/
def responsesToOpenai (now : Nat) (val : Json) (fallbackModel : Text) : Except CoreError OpenAIResponse :=
  match (val.get "error".toList).filter nonNull with
  | some error =>
    .error (.upstream 500 fallbackModel
      (((strMember error "message").or error.asStr).getD "unknown responses error".toList))
  | none =>
    let output := ((val.get "output".toList).bind asArray).getD []
    let fullText := output.flatMap contentOfItem
    let reasoningText := output.flatMap reasoningOfItem
    let toolCalls := output.filterMap toolCallOfItem
    .ok
      { id := (strMember val "id").getD "resp_chatcmpl".toList
        created := (((val.get "created_at".toList).or (val.get "created".toList)).bind decodeU64).getD now
        model := (strMember val "model").getD fallbackModel
        role := output.foldl roleOfItem "assistant".toList
        content := if fullText.isEmpty && !toolCalls.isEmpty then none else some fullText
        reasoning := if reasoningText.isEmpty then none else some reasoningText
        toolCalls := if toolCalls.isEmpty then none else some toolCalls
        finishReason := if !toolCalls.isEmpty then "tool_calls".toList else "stop".toList
        usage := (usageMember val).map (responsesUsage add32) }

/-- The sums that `responses_to_openai` computes; it adds the counts also where there is a total. -/
def NoOverflow (val : Json) : Prop :=
  ∀ usage, usageMember val = some usage → promptTokens usage + completionTokens usage ≤ u32Max

/-! ### Chunks -/

/-- `make_text_delta` for content. -/
def makeTextDelta (text : Text) : UpstreamSseChunk := .ofDelta { content := some text } (!text.isEmpty)

/-- `make_tool_call_start`. -/
def makeToolCallStart (index : Nat) (id name : Text) : UpstreamSseChunk :=
  { UpstreamSseChunk.ofDelta { toolCalls := [⟨some index, some id, some name, []⟩] } false with
    deltaToolCalls := [⟨some index, some id, some name, []⟩] }

/-- `make_tool_call_delta`. -/
def makeToolCallDelta (index : Nat) (arguments : Text) : UpstreamSseChunk :=
  { UpstreamSseChunk.ofDelta { toolCalls := [⟨some index, none, none, arguments⟩] } (!arguments.isEmpty) with
    deltaToolCalls := [⟨some index, none, none, arguments⟩] }

/-- `UpstreamSseChunk::done`, with the usage of the stream. -/
def doneChunk (usage : Option OpenAIUsage) : UpstreamSseChunk := ⟨none, true, usage, none, none, [], false⟩

/-! ### Events -/

/-- `MAX_RESPONSES_TOOL_CALLS`. -/
def maxResponsesToolCalls : Nat := 128

/-- `MAX_RESPONSES_TOOL_CALL_ARGS_BYTES`. -/
def maxResponsesToolCallArgsBytes : Nat := 1048576

/-- An element of `tool_calls`. -/
structure CallState where
  id : Text
  itemId : Text
  name : Text
  arguments : Text
  deriving DecidableEq, Repr

/-- `ResponsesSseState`. -/
structure ResponsesSseState where
  toolCalls : List CallState
  usage : Option OpenAIUsage
  deriving DecidableEq, Repr

/-- `ResponsesSseState::default`. -/
def ResponsesSseState.new : ResponsesSseState := ⟨[], none⟩

/-- The call has one of the two ids. -/
def CallState.hasId (itemId callId : Text) (tc : CallState) : Bool :=
  (!itemId.isEmpty && tc.itemId == itemId) || (!callId.isEmpty && tc.id == callId)

/-- `find_tool_call_index`: the last call with one of the two ids. -/
def findToolCallIndex (toolCalls : List CallState) (itemId callId : Text) : Option Nat :=
  (toolCalls.reverse.findIdx? (CallState.hasId itemId callId)).map fun i => toolCalls.length - 1 - i

/-- What `tool_calls` has at an index, with other arguments. -/
def setArguments (toolCalls : List CallState) (index : Nat) (arguments : Text) : List CallState :=
  toolCalls.modify index fun tc => { tc with arguments }

/-- The text of an error. -/
def errorText (error : Json) : Text :=
  match strMember error "message" with
  | some message =>
    match strMember error "code" with
    | some code => code ++ ": ".toList ++ message
    | none => message
  | none => write error

/-- The error of an event. -/
def errorMember (v : Json) : Option Json :=
  ((v.get "error".toList).or ((v.get "response".toList).bind fun response => response.get "error".toList)).filter nonNull

abbrev Parsed := Except CoreError (Option UpstreamSseChunk)

/-- The ids of an item. -/
def itemIds (item : Json) : Text × Text :=
  let itemId := (strMember item "id").getD []
  (itemId, (strMember item "call_id").getD (if itemId.isEmpty then "call_xyz".toList else itemId))

/-- `response.output_item.added`. -/
def handleItemAdded (item : Json) (state : ResponsesSseState) : Option UpstreamSseChunk × ResponsesSseState :=
  if itemType item = "function_call".toList then
    let (itemId, callId) := itemIds item
    let name := (strMember item "name").getD []
    match findToolCallIndex state.toolCalls itemId callId with
    | some index => (some (makeToolCallStart index callId name), state)
    | none =>
      if maxResponsesToolCalls ≤ state.toolCalls.length then (none, state)
      else
        (some (makeToolCallStart state.toolCalls.length callId name),
          { state with toolCalls := state.toolCalls ++ [⟨callId, itemId, name, []⟩] })
  else if itemType item ∈ ["reasoning".toList, "message".toList] then (some .liveness, state)
  else (none, state)

/-- The ids in an event about the arguments of a call. -/
def eventIds (value : Json) : Text × Text :=
  ((strMember value "item_id").getD [],
    (((value.get "call_id".toList).or (value.get "id".toList)).bind asStr).getD [])

/-- `response.function_call_arguments.delta`. -/
def handleArgumentsDelta (value : Json) (state : ResponsesSseState) : Option UpstreamSseChunk × ResponsesSseState :=
  match strMember value "delta" with
  | none => (none, state)
  | some delta =>
    if state.toolCalls.isEmpty then (none, state)
    else
      let (itemId, callId) := eventIds value
      let index := (findToolCallIndex state.toolCalls itemId callId).getD (state.toolCalls.length - 1)
      let held := (state.toolCalls[index]?.map (·.arguments)).getD []
      let arguments := if maxResponsesToolCallArgsBytes < utf8Len held + utf8Len delta then held else held ++ delta
      (some (makeToolCallDelta index delta), { state with toolCalls := setArguments state.toolCalls index arguments })

/-- What is missing of the arguments of a call. -/
def missingDelta (authoritative current : Text) : Text :=
  if utf8Len current < utf8Len authoritative ∧ current.isPrefixOf authoritative then authoritative.drop current.length
  else if current.isEmpty ∧ !authoritative.isEmpty then authoritative
  else []

/-- The whole arguments of the call with the ids. -/
def handleArgumentsDone (ids : Text × Text) (authoritative : Text) (state : ResponsesSseState) :
    Option UpstreamSseChunk × ResponsesSseState :=
  match findToolCallIndex state.toolCalls ids.1 ids.2 with
  | none => (none, state)
  | some index =>
    let missing := missingDelta authoritative ((state.toolCalls[index]?.map (·.arguments)).getD [])
    (if missing.isEmpty then none else some (makeToolCallDelta index missing),
      { state with toolCalls := setArguments state.toolCalls index authoritative })

/-- A delta of content or reasoning; an empty one is a sign of life. -/
def handleTextDelta (make : Text → UpstreamSseChunk) (value : Json) : UpstreamSseChunk :=
  let delta := (strMember value "delta").getD []
  if delta.isEmpty then .liveness else make delta

/-- `incomplete_details.reason` of the response of an event. -/
def incompleteReason (response : Json) : Option Text :=
  (response.get "incomplete_details".toList).bind fun details => strMember details "reason"

/-- The end of the response. -/
def handleCompleted (value : Json) (usage : Option OpenAIUsage) (state : ResponsesSseState) : UpstreamSseChunk :=
  let reason := (value.get "response".toList).bind incompleteReason
  let stopReason :=
    if reason = some "max_output_tokens".toList then "length".toList
    else if reason = some "content_filter".toList then "content_filter".toList
    else if !state.toolCalls.isEmpty then "tool_calls".toList
    else "stop".toList
  ⟨some ⟨{}, some stopReason⟩, false, usage.or state.usage, some stopReason, none, [], false⟩

/-- An event that is no error, with the usage that it has. -/
def handleEvent (value : Json) (usage : Option OpenAIUsage) (state : ResponsesSseState) :
    Option UpstreamSseChunk × ResponsesSseState :=
  let eventType := (strMember value "type").getD []
  if eventType ∈ ["response.created".toList, "response.in_progress".toList] then (some .liveness, state)
  else if eventType = "response.output_item.added".toList then
    match value.get "item".toList with
    | some item => handleItemAdded item state
    | none => (none, state)
  else if eventType = "response.function_call_arguments.delta".toList then handleArgumentsDelta value state
  else if eventType = "response.function_call_arguments.done".toList then
    handleArgumentsDone (eventIds value) ((strMember value "arguments").getD []) state
  else if eventType = "response.output_item.done".toList then
    match value.get "item".toList with
    | some item =>
      if itemType item = "function_call".toList then
        handleArgumentsDone (itemIds item) ((strMember item "arguments").getD []) state
      else (none, state)
    | none => (none, state)
  else if eventType = "response.content_part.added".toList then
    let text := ((value.get "part".toList).bind fun part => strMember part "text").getD []
    (if text.isEmpty then none else some (makeTextDelta text), state)
  else if eventType ∈ ["response.reasoning_text.delta".toList, "response.reasoning_summary.delta".toList,
      "response.reasoning_summary_text.delta".toList] then
    (some (handleTextDelta makeReasoningDelta value), state)
  else if eventType ∈ ["response.output_text.delta".toList, "response.text.delta".toList,
      "response.audio.delta".toList] then
    (some (handleTextDelta makeTextDelta value), state)
  else if eventType ∈ ["response.done".toList, "response.completed".toList, "response.incomplete".toList] then
    (some (handleCompleted value usage state), state)
  else (none, state)

/-- `parse_responses_sse_stream_line`. -/
def parseResponsesSseStreamLine (modelName line : Text) (state : ResponsesSseState) : Parsed × ResponsesSseState :=
  match parseSseDataOrDone line with
  | .done => (.ok (some (doneChunk state.usage)), state)
  | .skip => (.ok none, state)
  | .payload data =>
    match fromStr data with
    | none => (.error (.parse "responses sse json".toList), state)
    | some value =>
      match errorMember value with
      | some error => (.error (.upstream 500 modelName (errorText error)), state)
      | none =>
        let usage := (usageMember value).map (responsesUsage satAdd32)
        let state :=
          match usage with
          | some new => { state with usage := some ((state.usage.map fun existing => mergeUsage existing new).getD new) }
          | none => state
        let (chunk, state) := handleEvent value usage state
        (.ok chunk, state)

end OpenProxy.Upstream.Responses
