import OpenProxy.Upstream.Openai
import OpenProxy.Upstream.Responses

/-!
# Streams of a Command Code upstream

The model of `sse/commandcode.rs`.  A line is an event of server-sent events or an object alone; an event about a tool call
starts the call, has a piece of its arguments, or has the whole call.
-/

namespace OpenProxy.Upstream.CommandCode

open Json
open Responses (CoreError Parsed strMember makeTextDelta makeToolCallStart makeToolCallDelta)

/-- `MAX_COMMANDCODE_TOOL_CALLS`. -/
def maxCommandcodeToolCalls : Nat := 128

/-- `CommandCodeSseState`. -/
structure CommandCodeSseState where
  toolCallIds : List Text
  toolCallsStreamed : List Bool
  lastFinishStepReason : Option Text
  lastFinishStepUsage : Option OpenAIUsage
  deriving DecidableEq, Repr

/-- `CommandCodeSseState::default`. -/
def CommandCodeSseState.new : CommandCodeSseState := ⟨[], [], none, none⟩

/-! ### Lines -/

/-- What a line carries. -/
def commandcodeData (line : Text) : SseDataOrDone :=
  let trimmed := trim line
  if trimmed.isEmpty || trimmed.head? == some ':' then .skip
  else if "data:".toList.isPrefixOf trimmed then
    let p := trimStart (trimmed.drop 5)
    if p = "[DONE]".toList then .done else .payload p
  else if trimmed = "[DONE]".toList then .done
  else if trimmed.head? == some '\x7b' then .payload trimmed
  else .skip

example : commandcodeData "data: [DONE]".toList = .done := by decide

/-- The first member that there is under one of the names. -/
def firstMember (v : Json) (keys : List String) : Option Json := keys.findSome? fun key => v.get key.toList

/-- The first member that there is, where it is a string. -/
def firstText (v : Json) (keys : List String) : Option Text := (firstMember v keys).bind asStr

/-! ### Tool calls -/

/-- `tool-input-start`. -/
def handleStart (id name : Text) (state : CommandCodeSseState) : Option UpstreamSseChunk × CommandCodeSseState :=
  match state.toolCallIds.findIdx? (· == id) with
  | some pos => (some (makeToolCallStart pos id name), state)
  | none =>
    if maxCommandcodeToolCalls ≤ state.toolCallIds.length then (none, state)
    else
      (some (makeToolCallStart state.toolCallIds.length id name),
        { state with
          toolCallIds := state.toolCallIds ++ [id]
          toolCallsStreamed := state.toolCallsStreamed ++ [false] })

/-- `tool-input-delta`. -/
def handleDelta (id delta : Text) (state : CommandCodeSseState) : Option UpstreamSseChunk × CommandCodeSseState :=
  let (index, state) :=
    match state.toolCallIds.findIdx? (· == id) with
    | some pos => (pos, state)
    | none =>
      if state.toolCallIds.length < maxCommandcodeToolCalls then
        (state.toolCallIds.length,
          { state with
            toolCallIds := state.toolCallIds ++ [id]
            toolCallsStreamed := state.toolCallsStreamed ++ [true] })
      else (0, state)
  (some (makeToolCallDelta index delta), { state with toolCallsStreamed := state.toolCallsStreamed.set index true })

/-- The chunk of a whole call. -/
def makeToolCall (index : Nat) (id name arguments : Text) : UpstreamSseChunk :=
  { UpstreamSseChunk.ofDelta { toolCalls := [⟨some index, some id, some name, arguments⟩] } true with
    deltaToolCalls := [⟨some index, some id, some name, arguments⟩] }

/-- `tool-call`. -/
def handleCall (id name arguments : Text) (state : CommandCodeSseState) : Option UpstreamSseChunk × CommandCodeSseState :=
  match state.toolCallIds.findIdx? (· == id) with
  | some index =>
    if state.toolCallsStreamed.getD index false then (none, state)
    else
      (some (makeToolCallDelta index arguments),
        { state with toolCallsStreamed := state.toolCallsStreamed.set index true })
  | none =>
    if maxCommandcodeToolCalls ≤ state.toolCallIds.length then (none, state)
    else
      (some (makeToolCall state.toolCallIds.length id name arguments),
        { state with
          toolCallIds := state.toolCallIds ++ [id]
          toolCallsStreamed := state.toolCallsStreamed ++ [true] })

/-- The arguments of a whole call: a string, or another value as it is written. -/
def callArguments (v : Json) : Text :=
  ((firstMember v ["input", "args"]).map fun a => a.asStr.getD (write a)).getD []

/-! ### The end of a stream -/

/-- Addition of `u64`, which wraps where overflows are not checked. -/
def add64 (a b : Nat) : Nat := (a + b) % 2 ^ 64

/-- The sum of the counts that there are. -/
def countSum : Option Nat → Option Nat → Option Nat
  | some p, some c => some (add64 p c)
  | some p, none => some p
  | none, some c => some c
  | none, none => none

/-- The usage of a `finish` or `finish-step` event. -/
def finishUsage (v : Json) : Option OpenAIUsage :=
  (firstMember v ["totalUsage", "usage"]).map fun u =>
    let prompt := (firstMember u ["promptTokens", "prompt_tokens", "inputTokens"]).bind decodeU64
    let completion := (firstMember u ["completionTokens", "completion_tokens", "outputTokens"]).bind decodeU64
    let total := ((firstMember u ["totalTokens", "total_tokens"]).bind decodeU64).or (countSum prompt completion)
    let cached := (((u.get "cachedInputTokens".toList).or
      ((u.get "inputTokenDetails".toList).bind fun d => d.get "cacheReadTokens".toList)).bind decodeU64).bind tryU32
    ⟨clamp32 (prompt.getD 0), clamp32 (completion.getD 0), clamp32 (total.getD 0), cached.map some⟩

/-- The finish reason of a `finish` or `finish-step` event. -/
def finishReasonOf (v : Json) : Option Text :=
  (firstText v ["rawFinishReason", "finishReason", "finish_reason"]).map mapStopReasonToFinishReason

/-- `finish`. -/
def handleFinish (v : Json) (state : CommandCodeSseState) : Option UpstreamSseChunk × CommandCodeSseState :=
  let usage := finishUsage v
  let reason := finishReasonOf v
  let reason :=
    match state.lastFinishStepReason with
    | some step => if reason = none ∨ (reason = some "stop".toList ∧ step ≠ "stop".toList) then some step else reason
    | none => reason
  let finishReason := reason.getD "stop".toList
  let total := usage.or state.lastFinishStepUsage
  (some ⟨some ⟨{}, some finishReason⟩, true, total, some finishReason, none, [], false⟩,
    { state with
      lastFinishStepReason := none
      lastFinishStepUsage := if usage.isSome then state.lastFinishStepUsage else none })

/-- `finish-step`. -/
def handleFinishStep (v : Json) (state : CommandCodeSseState) : CommandCodeSseState :=
  { state with
    lastFinishStepReason := (finishReasonOf v).or state.lastFinishStepReason
    lastFinishStepUsage := (finishUsage v).or state.lastFinishStepUsage }

/-! ### Events -/

/-- The text of an error event. -/
def errorText (v : Json) : Text :=
  let error := v.get "error".toList
  (((error.bind fun e => (strMember e "message").or e.asStr).or (strMember v "message"))).getD "commandcode error".toList

def eventType (v : Json) : Text := (strMember v "type").getD []

/-- An event that is no error. -/
def handleEvent (v : Json) (state : CommandCodeSseState) : Option UpstreamSseChunk × CommandCodeSseState :=
  if eventType v ∈ ["text-delta".toList, "text".toList] then
    (some (makeTextDelta ((firstText v ["text", "textDelta", "delta", "content"]).getD [])), state)
  else if eventType v ∈ ["reasoning-delta".toList, "reasoning".toList] then
    (some (makeReasoningDelta ((firstText v ["text", "reasoningDelta", "delta", "textDelta"]).getD [])), state)
  else if eventType v ∈ ["tool-input-start".toList, "tool-call-start".toList] then
    handleStart ((firstText v ["toolCallId", "id"]).getD "call_cc".toList) ((firstText v ["toolName", "name"]).getD []) state
  else if eventType v = "tool-input-delta".toList then
    handleDelta ((firstText v ["id", "toolCallId"]).getD [])
      ((firstText v ["delta", "argsTextDelta", "textDelta"]).getD []) state
  else if eventType v = "tool-call".toList then
    handleCall ((firstText v ["toolCallId", "id"]).getD "call_cc".toList) ((firstText v ["toolName", "name"]).getD [])
      (callArguments v) state
  else if eventType v = "finish".toList then handleFinish v state
  else if eventType v ∈ ["finish-step".toList, "step-finish".toList] then (none, handleFinishStep v state)
  else (none, state)

/-- The event is an error. -/
def IsError (v : Json) : Prop := eventType v = "error".toList ∨ (v.get "error".toList).isSome = true

instance (v : Json) : Decidable (IsError v) := inferInstanceAs (Decidable (_ ∨ _))

/-- `parse_commandcode_sse_line`. -/
def parseCommandcodeSseLine (modelName line : Text) (state : CommandCodeSseState) : Parsed × CommandCodeSseState :=
  match commandcodeData line with
  | .skip => (.ok none, state)
  | .done => (.ok (some (Responses.doneChunk none)), state)
  | .payload data =>
    match fromStr data with
    | none => (.error (.parse "commandcodego sse json".toList), state)
    | some v =>
      if IsError v then (.error (.upstream 500 modelName (errorText v)), state)
      else
        let (chunk, state) := handleEvent v state
        (.ok chunk, state)

end OpenProxy.Upstream.CommandCode
