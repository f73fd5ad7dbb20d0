import OpenProxy.Data.JsonDecode

/-!
# Responses of an Anthropic upstream

The model of `sse/anthropic` and of `translation/anthropic/response.rs`.  An upstream that speaks the Messages API
answers with one response, which `anthropicToOpenai` converts, or with a stream of events, which
`translateAnthropicSseEvent` converts one by one.  What is said of tokens comes in two events of the stream, and
`mergeUsage` puts it together.  The arguments of a call come in fragments, each under the index of the call, and a client
appends the fragments of an index to each other (`argumentsAt`).
-/

namespace OpenProxy.Upstream

open Json

/-! ### The names of the events and of their fields -/

namespace EventType

def ping : Text := "ping".toList

def contentBlockDelta : Text := "content_block_delta".toList

def contentBlockStart : Text := "content_block_start".toList

def contentBlockStop : Text := "content_block_stop".toList

def message : Text := "message".toList

def error : Text := "error".toList

def messageStart : Text := "message_start".toList

def messageDelta : Text := "message_delta".toList

def messageStop : Text := "message_stop".toList

end EventType

namespace Key

def type : Text := "type".toList

def delta : Text := "delta".toList

def contentBlock : Text := "content_block".toList

def text : Text := "text".toList

def thinking : Text := "thinking".toList

def partialJson : Text := "partial_json".toList

def estimatedTokens : Text := "estimated_tokens".toList

def id : Text := "id".toList

def name : Text := "name".toList

def input : Text := "input".toList

def message : Text := "message".toList

def usage : Text := "usage".toList

def inputTokens : Text := "input_tokens".toList

def outputTokens : Text := "output_tokens".toList

def cacheReadInputTokens : Text := "cache_read_input_tokens".toList

def cacheCreationInputTokens : Text := "cache_creation_input_tokens".toList

def stopReason : Text := "stop_reason".toList

end Key

/-! ### Token counts -/

def u32Max : Nat := 2 ^ 32 - 1

def u64Max : Nat := 2 ^ 64 - 1

/-- `u32::saturating_add` and `u64::saturating_add`. -/
def satAdd32 (a b : Nat) : Nat := min (a + b) u32Max

def satAdd64 (a b : Nat) : Nat := min (a + b) u64Max

/-- `u32::try_from(n).unwrap_or(u32::MAX)`. -/
def clamp32 (n : Nat) : Nat := if n ≤ u32Max then n else u32Max

/-- `u32::try_from(n).ok()`. -/
def tryU32 (n : Nat) : Option Nat := if n ≤ u32Max then some n else none

/-- `OpenAIUsage`; the details of the prompt tokens are the cached ones. -/
structure OpenAIUsage where
  promptTokens : Nat
  completionTokens : Nat
  totalTokens : Nat
  promptTokensDetails : Option (Option Nat)
  deriving DecidableEq, Repr

/-- The larger one of two optional counts. -/
def maxOptional : Option Nat → Option Nat → Option Nat
  | some a, some b => some (max a b)
  | some a, none => some a
  | none, b => b

/-- `merge_usage`. -/
def mergeUsage (existing new : OpenAIUsage) : OpenAIUsage where
  promptTokens := if 0 < new.promptTokens then max existing.promptTokens new.promptTokens else existing.promptTokens
  completionTokens := max existing.completionTokens new.completionTokens
  totalTokens :=
    if 0 < new.totalTokens then max existing.totalTokens new.totalTokens
    else if 0 < existing.totalTokens then existing.totalTokens
    else satAdd32 existing.promptTokens existing.completionTokens
  promptTokensDetails :=
    match existing.promptTokensDetails, new.promptTokensDetails with
    | some e, some n => some (maxOptional e n)
    | some e, none => some e
    | none, n => n

theorem promptTokens_mergeUsage (u v : OpenAIUsage) :
    (mergeUsage u v).promptTokens = max u.promptTokens v.promptTokens := by
  show (if 0 < v.promptTokens then max u.promptTokens v.promptTokens else u.promptTokens) = _
  by_cases hv : 0 < v.promptTokens
  · rw [if_pos hv]
  · rw [if_neg hv]
    omega

/-! ### Responses -/

/-- `AnthropicUsage`. -/
structure AnthropicUsage where
  inputTokens : UInt32
  outputTokens : UInt32
  cacheCreationInputTokens : Option UInt32
  cacheReadInputTokens : Option UInt32
  deriving DecidableEq, Repr

/-- `AnthropicResponse`. -/
structure AnthropicResponse where
  id : Text
  content : List Json
  model : Text
  stopReason : Option Text
  usage : AnthropicUsage

/-- The type of a content block. -/
def blockType (b : Json) : Option Text := (b.get Key.type).bind asStr

/-- The text of a text block. -/
def textOfBlock (b : Json) : Text := (((b.get Key.text).or (b.get "content".toList)).bind asStr).getD []

/-- The text of a reasoning block. -/
def reasoningOfBlock (b : Json) : Text :=
  (((b.get Key.thinking).or ((b.get "thought".toList).or ((b.get "reasoning".toList).or (b.get Key.text)))).bind
    asStr).getD []

/-- A tool call of a response. -/
structure OpenAIToolCall where
  id : Text
  name : Text
  arguments : Text
  deriving DecidableEq, Repr

/-- The call of a `tool_use` block. -/
def toolCallOfBlock (b : Json) : Option OpenAIToolCall :=
  if blockType b = some "tool_use".toList then
    match (b.get Key.id).bind asStr, (b.get Key.name).bind asStr, b.get Key.input with
    | some id, some name, some input => some ⟨id, name, write input⟩
    | _, _, _ => none
  else none

/-- The part of a block that is content. -/
def contentOfBlock (b : Json) : Text := if blockType b = some "text".toList then textOfBlock b else []

/-- The part of a block that is reasoning. -/
def thinkingOfBlock (b : Json) : Text :=
  if blockType b = some "thinking".toList ∨ blockType b = some "thought".toList ∨ blockType b = some "reasoning".toList
  then reasoningOfBlock b else []

/-- `map_stop_reason_to_finish_reason`. -/
def mapStopReasonToFinishReason (reason : Text) : Text :=
  if reason ∈ ["max_tokens".toList, "length".toList] then "length".toList
  else if reason ∈ ["tool_use".toList, "tool_call".toList, "tool_calls".toList, "toolUse".toList, "toolCall".toList,
      "toolCalls".toList] then "tool_calls".toList
  else if reason ∈ ["content_filter".toList, "safety".toList] then "content_filter".toList
  else "stop".toList

/-- `OpenAIResponse` with its only choice; `reasoning` is in the extra fields of the message. -/
structure OpenAIResponse where
  id : Text
  model : Text
  content : Option Text
  reasoning : Option Text
  toolCalls : Option (List OpenAIToolCall)
  finishReason : Option Text
  usage : OpenAIUsage

/-- `anthropic_to_openai`. -/
def anthropicToOpenai (resp : AnthropicResponse) : OpenAIResponse :=
  let combined := resp.content.flatMap contentOfBlock
  let reasoning := resp.content.flatMap thinkingOfBlock
  let toolCalls := resp.content.filterMap toolCallOfBlock
  let cacheRead := (resp.usage.cacheReadInputTokens.getD 0).toNat
  let cacheCreation := (resp.usage.cacheCreationInputTokens.getD 0).toNat
  let promptTokens := satAdd32 (satAdd32 resp.usage.inputTokens.toNat cacheRead) cacheCreation
  let completionTokens := resp.usage.outputTokens.toNat
  { id := resp.id
    model := resp.model
    content := if combined.isEmpty && !toolCalls.isEmpty then none else some combined
    reasoning := if reasoning.isEmpty then none else some reasoning
    toolCalls := if toolCalls.isEmpty then none else some toolCalls
    finishReason := if !toolCalls.isEmpty then some "tool_calls".toList
      else resp.stopReason.map mapStopReasonToFinishReason
    usage :=
      { promptTokens := promptTokens
        completionTokens := completionTokens
        totalTokens := satAdd32 promptTokens completionTokens
        promptTokensDetails := resp.usage.cacheReadInputTokens.map fun c => some c.toNat } }

/-! ### Reading a response -/

/-- A text field with the empty text as its default. -/
def textField (key : Text) (position count : Nat) (v : Json) : Option Text :=
  (structMember key position count true v).bind (asDefault [] asStr)

/-- A field that may be missing or null. -/
def optionField {α : Type} (decode : Json → Option α) (key : Text) (position count : Nat) (default : Bool) (v : Json) :
    Option (Option α) := (structMember key position count default v).bind (asOptional decode)

def decodeTokens (v : Json) : Option UInt32 := (decodeU32 v).map UInt32.ofNat

def AnthropicUsage.decode (v : Json) : Option AnthropicUsage := do
  let inputTokens ← (structMember Key.inputTokens 0 4 true v).bind (asDefault 0 decodeTokens)
  let outputTokens ← (structMember Key.outputTokens 1 4 true v).bind (asDefault 0 decodeTokens)
  let cacheCreation ← optionField decodeTokens Key.cacheCreationInputTokens 2 4 false v
  let cacheRead ← optionField decodeTokens Key.cacheReadInputTokens 3 4 false v
  return ⟨inputTokens, outputTokens, cacheCreation, cacheRead⟩

/-- `serde_json::from_str::<AnthropicResponse>`. -/
def AnthropicResponse.fromStr (t : Text) : Option AnthropicResponse := do
  let v ← read t
  let id ← textField Key.id 0 7 v
  let _ ← textField Key.type 1 7 v
  let _ ← textField "role".toList 2 7 v
  let content ← optionField (decodeList (decodeValue 2)) "content".toList 3 7 true v
  let model ← textField "model".toList 4 7 v
  let stopReason ← optionField asStr Key.stopReason 5 7 true v
  let usage ← (structMember Key.usage 6 7 true v).bind (asDefault ⟨0, 0, none, none⟩ AnthropicUsage.decode)
  return ⟨id, content.getD [], model, stopReason, usage⟩

/-! ### Chunks -/

/-- An item of `tool_calls` in a delta; an item that starts a call has its id, its type and its name. -/
structure ToolCallDelta where
  index : Option Nat
  id : Option Text
  name : Option Text
  arguments : Text
  deriving DecidableEq, Repr

/-- The delta of a chunk. -/
structure ChunkDelta where
  role : Option Text := none
  content : Option Text := none
  reasoning : Option Text := none
  reasoningContent : Option Text := none
  toolCalls : List ToolCallDelta := []
  deriving DecidableEq, Repr

/-- The payload of a chunk, with what all chunks of a stream share left out. -/
structure ChunkPayload where
  delta : ChunkDelta
  finishReason : Option Text
  deriving DecidableEq, Repr

/-- `UpstreamSseChunk`; `payload` is `none` for `Null`. -/
structure UpstreamSseChunk where
  payload : Option ChunkPayload
  done : Bool
  usage : Option OpenAIUsage
  stopReason : Option Text
  deltaReasoning : Option Text
  deltaToolCalls : List ToolCallDelta
  hasContent : Bool
  deriving DecidableEq, Repr

/-- A chunk of the middle of a stream. -/
def UpstreamSseChunk.ofDelta (delta : ChunkDelta) (hasContent : Bool) : UpstreamSseChunk :=
  ⟨some ⟨delta, none⟩, false, none, none, none, [], hasContent⟩

/-- `liveness`. -/
def UpstreamSseChunk.liveness : UpstreamSseChunk := ⟨none, false, none, none, none, [], false⟩

/-- `make_text_delta` for reasoning. -/
def makeReasoningDelta (text : Text) : UpstreamSseChunk :=
  { UpstreamSseChunk.ofDelta { content := some [], reasoningContent := some text } (!text.isEmpty) with
    deltaReasoning := some text }

/-! ### Events -/

/-- The errors of a translation. -/
inductive CoreError
  | parse (message : Text)
  | upstreamConnection (message : Text)
  deriving DecidableEq, Repr

def maxToolArgumentsBytes : Nat := 1048576

def maxToolIdBytes : Nat := 256

def maxToolNameBytes : Nat := 256

/-- `AnthropicToolUseAccumulator`. -/
structure AnthropicToolUseAccumulator where
  index : Nat
  id : Text
  name : Text
  arguments : Text
  deriving DecidableEq, Repr

/-- `new_with_bounds`. -/
def AnthropicToolUseAccumulator.newWithBounds (index : Nat) (id name : Text) :
    Except CoreError AnthropicToolUseAccumulator :=
  if maxToolIdBytes < utf8Len id then
    .error (.parse "Anthropic tool_use id exceeds maximum length of 256 bytes".toList)
  else if maxToolNameBytes < utf8Len name then
    .error (.parse "Anthropic tool_use name exceeds maximum length of 256 bytes".toList)
  else .ok ⟨index, id, name, []⟩

/-- `AnthropicDeltaProbe`. -/
structure AnthropicDeltaProbe where
  deltaType : Option Text := none
  text : Option Text := none
  thinking : Option Text := none
  partialJson : Option Text := none
  estimatedTokens : Option Int := none

def AnthropicDeltaProbe.decode (v : Json) : Option AnthropicDeltaProbe := do
  let deltaType ← optionField asStr Key.type 0 5 true v
  let text ← optionField asStr Key.text 1 5 true v
  let thinking ← optionField asStr Key.thinking 2 5 true v
  let partialJson ← optionField asStr Key.partialJson 3 5 true v
  let estimatedTokens ← optionField decodeI64 Key.estimatedTokens 4 5 true v
  return ⟨deltaType, text, thinking, partialJson, estimatedTokens⟩

/-- `AnthropicContentBlockProbe`. -/
structure AnthropicContentBlockProbe where
  blockType : Option Text := none
  id : Option Text := none
  name : Option Text := none
  input : Option Json := none

def AnthropicContentBlockProbe.decode (v : Json) : Option AnthropicContentBlockProbe := do
  let blockType ← optionField asStr Key.type 0 4 true v
  let id ← optionField asStr Key.id 1 4 true v
  let name ← optionField asStr Key.name 2 4 true v
  let input ← optionField (decodeValue 2) Key.input 3 4 true v
  return ⟨blockType, id, name, input⟩

/-- `AnthropicContentBlockDeltaProbe`. -/
def readDeltaProbe (t : Text) : Option (Option AnthropicDeltaProbe) :=
  (read t).bind (optionField AnthropicDeltaProbe.decode Key.delta 0 1 true)

/-- `AnthropicContentBlockStartProbe`. -/
def readBlockProbe (t : Text) : Option (Option AnthropicContentBlockProbe) :=
  (read t).bind (optionField AnthropicContentBlockProbe.decode Key.contentBlock 0 1 true)

/-- What the translation remembers between events: `tool_use_acc` and `tool_call_index_counter`. -/
structure EventState where
  toolUseAcc : Option AnthropicToolUseAccumulator
  toolCallIndexCounter : Nat
  deriving DecidableEq, Repr

def EventState.new : EventState := ⟨none, 0⟩

/-- What is translated of an event. -/
abbrev Translated := Except CoreError (Option UpstreamSseChunk)

/-- `handle_anthropic_input_json_delta`. -/
def handleInputJsonDelta (delta : AnthropicDeltaProbe) (acc : AnthropicToolUseAccumulator) :
    UpstreamSseChunk × AnthropicToolUseAccumulator :=
  let newFragment := match delta.partialJson with
    | some fragment => if utf8Len acc.arguments + utf8Len fragment ≤ maxToolArgumentsBytes then fragment else []
    | none => []
  let toolCall : ToolCallDelta := ⟨some acc.index, none, none, newFragment⟩
  ({ UpstreamSseChunk.ofDelta { toolCalls := [toolCall] } true with deltaToolCalls := [toolCall] },
    { acc with arguments := acc.arguments ++ newFragment })

/-- `handle_anthropic_thinking_delta`. -/
def handleThinkingDelta (delta : AnthropicDeltaProbe) : Option UpstreamSseChunk :=
  let thinking := delta.thinking.getD []
  if thinking.isEmpty then
    if delta.estimatedTokens.any (0 < ·) then some .liveness else none
  else some (makeReasoningDelta thinking)

/-- `handle_anthropic_text_delta`. -/
def handleTextDelta (delta : AnthropicDeltaProbe) : Option UpstreamSseChunk :=
  let text := delta.text.getD []
  if text.isEmpty then none else some (.ofDelta { content := some text } true)

/-- `translate_anthropic_content_block_delta`. -/
def translateContentBlockDelta (s : EventState) (dataJson : Text) : Translated × EventState :=
  match readDeltaProbe dataJson with
  | none => (.error (.parse "anthropic sse json".toList), s)
  | some probe =>
    let delta := probe.getD {}
    let deltaType := delta.deltaType.getD []
    if deltaType = "input_json_delta".toList then
      match s.toolUseAcc with
      | some acc =>
        let (chunk, acc) := handleInputJsonDelta delta acc
        (.ok (some chunk), { s with toolUseAcc := some acc })
      | none => (.ok none, s)
    else if deltaType = "thinking_delta".toList then (.ok (handleThinkingDelta delta), s)
    else (.ok (handleTextDelta delta), s)

/-- The arguments that a block has from its start on. -/
def seededArguments (input : Option Json) : Text :=
  match input with
  | some input =>
    let serialized := write input
    if serialized ≠ "\x7b\x7d".toList ∧ utf8Len serialized ≤ maxToolArgumentsBytes then serialized else []
  | none => []

/-- `translate_anthropic_content_block_start`. -/
def translateContentBlockStart (s : EventState) (dataJson : Text) : Translated × EventState :=
  match readBlockProbe dataJson with
  | none => (.error (.parse "anthropic sse json".toList), s)
  | some probe =>
    let block := probe.getD {}
    if block.blockType.getD [] ≠ "tool_use".toList then (.ok none, s)
    else
      let id := block.id.getD []
      let name := block.name.getD []
      let index := s.toolCallIndexCounter
      let s := { s with toolCallIndexCounter := index + 1 }
      match AnthropicToolUseAccumulator.newWithBounds index id name with
      | .error e => (.error e, s)
      | .ok acc =>
        let toolCall : ToolCallDelta := ⟨some index, some id, some name, []⟩
        (.ok (some { UpstreamSseChunk.ofDelta { toolCalls := [toolCall] } false with deltaToolCalls := [toolCall] }),
          { s with toolUseAcc := some { acc with arguments := seededArguments block.input } })

/-- A count in a usage block, 0 if there is none. -/
def tokens (u : Json) (key : Text) : Nat := ((u.get key).bind decodeU64).getD 0

/-- The usage of a block that has the input tokens. -/
def usageOf (u : Json) : OpenAIUsage :=
  let outputTokens := tokens u Key.outputTokens
  let cacheRead := tokens u Key.cacheReadInputTokens
  let promptTotal := satAdd64 (satAdd64 (tokens u Key.inputTokens) cacheRead) (tokens u Key.cacheCreationInputTokens)
  { promptTokens := clamp32 promptTotal
    completionTokens := clamp32 outputTokens
    totalTokens := clamp32 (satAdd64 promptTotal outputTokens)
    promptTokensDetails := some (tryU32 cacheRead) }

/-- `build_anthropic_message_start_chunk`. -/
def buildMessageStartChunk (data : Json) : UpstreamSseChunk :=
  { UpstreamSseChunk.ofDelta { role := some "assistant".toList, content := some [] } false with
    usage := ((data.get Key.message).bind (·.get Key.usage)).map usageOf }

/-- The usage of `translate_anthropic_message_delta`. -/
def messageDeltaUsage (data : Json) : Option OpenAIUsage :=
  let usageBlock := data.get Key.usage
  if (usageBlock.bind (·.get Key.inputTokens)).isSome then usageBlock.map usageOf
  else
    let outputTokens := (usageBlock.map (tokens · Key.outputTokens)).getD 0
    if 0 < outputTokens then some ⟨0, clamp32 outputTokens, 0, none⟩ else none

/-- `translate_anthropic_message_delta`. -/
def translateMessageDelta (data : Json) : UpstreamSseChunk :=
  let stopReason := (((data.get Key.delta).bind (·.get Key.stopReason)).or (data.get Key.stopReason)).bind asStr
  let finishReason := stopReason.bind fun reason =>
    if reason ∈ ["end_turn".toList, "stop_sequence".toList] then some "stop".toList
    else if reason = "max_tokens".toList then some "length".toList
    else if reason ∈ ["tool_use".toList, "tool_call".toList, "tool_calls".toList, "toolUse".toList, "toolCall".toList,
        "toolCalls".toList] then some "tool_calls".toList
    else none
  ⟨some ⟨{}, finishReason⟩, true, messageDeltaUsage data, stopReason, none, [], false⟩

/-- `translate_anthropic_content_delta`. -/
def translateContentDelta (data : Json) : Option UpstreamSseChunk :=
  let delta := data.get Key.delta
  if ((delta.bind (·.get Key.type)).bind asStr).getD "text_delta".toList = "thinking_delta".toList then
    let thinking := ((delta.bind (·.get Key.thinking)).bind asStr).getD []
    if thinking.isEmpty then
      if ((delta.bind (·.get Key.estimatedTokens)).bind decodeU64).any (0 < ·) then some .liveness else none
    else some (makeReasoningDelta thinking)
  else
    let text := ((delta.bind (·.get Key.text)).bind asStr).getD []
    if text.isEmpty then none else some (.ofDelta { content := some text } true)

/-- `translate_anthropic_sse_payload` of an event that has been split. -/
def translatePayload (eventType dataJson : Text) : Translated :=
  if eventType = EventType.ping ∨ eventType = EventType.messageStop then .ok none
  else match fromStr dataJson with
    | none => .error (.parse "anthropic sse json".toList)
    | some data =>
      if eventType = EventType.messageStart then .ok (some (buildMessageStartChunk data))
      else if eventType = EventType.contentBlockDelta then .ok (translateContentDelta data)
      else if eventType = EventType.messageDelta then .ok (some (translateMessageDelta data))
      else .ok none

/-- `translate_anthropic_full_message`. -/
def translateFullMessage (dataJson : Text) : Translated :=
  match AnthropicResponse.fromStr dataJson with
  | none => .error (.parse "anthropic sse full message".toList)
  | some resp =>
    let openai := anthropicToOpenai resp
    let content := openai.content.filter fun c => !c.isEmpty
    let toolCalls := openai.toolCalls.map fun calls =>
      calls.map fun call => (⟨none, some call.id, some call.name, call.arguments⟩ : ToolCallDelta)
    let delta : ChunkDelta :=
      { role := some "assistant".toList, content := content, reasoning := openai.reasoning
        reasoningContent := openai.reasoning, toolCalls := toolCalls.getD [] }
    .ok (some ⟨some ⟨delta, some (openai.finishReason.getD "stop".toList)⟩, true, some openai.usage, resp.stopReason,
      openai.reasoning, [], content.isSome || openai.reasoning.isSome || toolCalls.isSome⟩)

/-- `translate_anthropic_inline_error`. -/
def translateInlineError (dataJson : Text) : Translated :=
  match fromStr dataJson with
  | none => .error (.parse "anthropic sse error".toList)
  | some probe =>
    let error := probe.get EventType.error
    let message := ((error.bind (·.get Key.message)).bind asStr).getD "upstream error event".toList
    let errType := ((error.bind (·.get Key.type)).bind asStr).getD "error".toList
    .error (.upstreamConnection (errType ++ ": ".toList ++ message))

/-- `translate_anthropic_sse_event`. -/
def translateAnthropicSseEvent (s : EventState) (payload : Text) : Translated × EventState :=
  match splitOnce '\n' payload with
  | none => (.ok none, s)
  | some (eventType, dataJson) =>
    if eventType = EventType.ping then (.ok none, s)
    else if eventType = EventType.contentBlockDelta then translateContentBlockDelta s dataJson
    else if eventType = EventType.contentBlockStart then translateContentBlockStart s dataJson
    else if eventType = EventType.contentBlockStop then (.ok none, { s with toolUseAcc := none })
    else if eventType = EventType.message then (translateFullMessage dataJson, s)
    else if eventType = EventType.error then (translateInlineError dataJson, s)
    else (translatePayload eventType dataJson, s)

/-! ### Fragments of the arguments of calls -/

/-- The items of `tool_calls` in a chunk. -/
def UpstreamSseChunk.toolDeltas (chunk : UpstreamSseChunk) : List ToolCallDelta :=
  (chunk.payload.map (·.delta.toolCalls)).getD []

/-- The arguments that the items have for an index. -/
def argumentsAt (index : Nat) (ds : List ToolCallDelta) : Text :=
  (ds.filter fun d => d.index = some index).flatMap (·.arguments)

@[simp] theorem argumentsAt_nil (index : Nat) : argumentsAt index [] = [] := rfl

@[simp] theorem argumentsAt_append (index : Nat) (ds ds' : List ToolCallDelta) :
    argumentsAt index (ds ++ ds') = argumentsAt index ds ++ argumentsAt index ds' := by
  rw [argumentsAt, List.filter_append, List.flatMap_append]
  rfl

@[simp] theorem argumentsAt_singleton (index i : Nat) (id name : Option Text) (arguments : Text) :
    argumentsAt index [⟨some i, id, name, arguments⟩] = if i = index then arguments else [] := by
  unfold argumentsAt
  by_cases h : i = index
  · simp [h]
  · simp [h]

end OpenProxy.Upstream
