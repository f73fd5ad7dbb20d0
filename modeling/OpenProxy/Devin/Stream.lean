import OpenProxy.Data.SortedMap
import OpenProxy.Data.Table
import OpenProxy.Devin.Wire
import OpenProxy.Upstream.AnthropicStream

/-!
# Streaming and folding

The model of `sse/devin.rs`: the chunk of each frame of a stream, and the response that a body is folded into; and of the
loop of `run_pipeline` for such a stream, with what a client puts together from the chunks.
-/

namespace OpenProxy.Devin

open Upstream hiding CoreError OpenAIResponse
open Upstream.Responses (OpenAIResponse add32)

/-- The errors of both readers. -/
inductive CoreError
  | upstreamConnection (message : Text)
  | upstreamError (status : Nat) (provider model body : Text)
  deriving DecidableEq, Repr

/-! ### The state of a stream -/

/-- `DevinStreamState`. -/
structure DevinStreamState where
  toolIndexById : Table Text Nat
  nextToolIndex : Nat
  activeToolIndex : Option Nat
  lastStopReason : Nat
  sawToolCalls : Bool

/-- `DevinStreamState::default`. -/
def DevinStreamState.new : DevinStreamState := ⟨∅, 0, none, 0, false⟩

/-- `devin_tool_index`; the counter is a `u32`, which wraps where overflows are not checked. -/
def devinToolIndex (state : DevinStreamState) (id : Text) : (Nat × Bool) × DevinStreamState :=
  if !id.isEmpty then
    match state.toolIndexById.lookup id with
    | some index => ((index, false), { state with activeToolIndex := some index })
    | none =>
      let index := state.nextToolIndex
      ((index, true), { state with
        nextToolIndex := add32 index 1
        toolIndexById := state.toolIndexById.insert id index
        activeToolIndex := some index })
  else
    match state.activeToolIndex with
    | some index => ((index, false), state)
    | none =>
      let index := state.nextToolIndex
      ((index, true), { state with nextToolIndex := add32 index 1, activeToolIndex := some index })

/-- `devin_tool_call_args`. -/
def devinToolCallArgs (tc : DevinToolCallDelta) : Text := if tc.arguments.isEmpty then tc.invalidJsonStr else tc.arguments

/-- `devin_finish_reason`. -/
def devinFinishReason (stopReason : Nat) (sawToolCalls : Bool) : Text :=
  if stopReason = 1 ∨ stopReason = 3 then "length".toList
  else if stopReason = 11 then "content_filter".toList
  else if sawToolCalls then "tool_calls".toList
  else "stop".toList

/-- The stop reason of a frame is kept. -/
def DevinStreamState.stopped (state : DevinStreamState) (stopReason : Nat) : DevinStreamState :=
  if stopReason ≠ 0 then { state with lastStopReason := stopReason } else state

/-! ### Usage -/

/-- `clamp` to the numbers of a `u32`. -/
def clampU32 (z : Int) : Nat := min z.toNat u32Max

/-- The usage of three counts. -/
def usageOfCounts (promptTokens completionTokens cachedTokens : Int) : OpenAIUsage :=
  let cached := clampU32 cachedTokens
  let prompt := clampU32 (i64 (promptTokens + cachedTokens))
  let completion := clampU32 completionTokens
  ⟨prompt, completion, satAdd32 prompt completion, if 0 < cached then some (some cached) else none⟩

/-- `devin_usage_to_openai`. -/
def devinUsageToOpenai (u : DevinUsage) : OpenAIUsage := usageOfCounts u.promptTokens u.completionTokens u.cachedTokens

/-- `devin_frame_usage`. -/
def devinFrameUsage (frame : DevinFrame) : Option OpenAIUsage :=
  match frame.usage with
  | some u => some (devinUsageToOpenai u)
  | none => if frame.dimFound then some (usageOfCounts frame.dimPrompt frame.dimCompletion frame.dimCached) else none

/-! ### The chunks of a stream -/

/-- A call in the delta of a chunk; the arguments are left out where they are empty. -/
def toolCallDelta (state : DevinStreamState) (tc : DevinToolCallDelta) : ToolCallDelta × DevinStreamState :=
  let clientId := encodeDevinToolCallId tc.id
  let ((index, firstSeen), state) := devinToolIndex state clientId
  (⟨some index, if firstSeen then some clientId else none, if tc.name.isEmpty then none else some tc.name,
    devinToolCallArgs tc⟩, { state with sawToolCalls := true })

/-- The calls of a frame, one after the other. -/
def toolCallDeltas (state : DevinStreamState) : List DevinToolCallDelta → List ToolCallDelta × DevinStreamState
  | [] => ([], state)
  | tc :: tcs =>
    let (delta, state) := toolCallDelta state tc
    let (deltas, state) := toolCallDeltas state tcs
    (delta :: deltas, state)

/-- `devin_frame_to_chunk`. -/
def devinFrameToChunk (state : DevinStreamState) (frame : DevinFrame) : Option UpstreamSseChunk × DevinStreamState :=
  let state := state.stopped frame.stopReason
  let usage := devinFrameUsage frame
  let (calls, state) := toolCallDeltas state frame.toolCallDeltas
  let thinking := if frame.thinkingText.isEmpty then none else some frame.thinkingText
  if frame.text.isEmpty && frame.thinkingText.isEmpty && frame.toolCallDeltas.isEmpty && usage.isNone &&
      frame.stopReason == 0 then (none, state)
  else
    let content := if frame.text.isEmpty then none else some frame.text
    (some {
      payload := some ⟨{ content := content, reasoningContent := thinking, toolCalls := calls }, none⟩
      done := false
      usage := usage
      stopReason := none
      deltaReasoning := thinking
      deltaToolCalls := calls
      hasContent := !frame.text.isEmpty || !frame.thinkingText.isEmpty || !frame.toolCallDeltas.isEmpty }, state)

/-- `devin_done_chunk`. -/
def devinDoneChunk (state : DevinStreamState) : UpstreamSseChunk :=
  let finishReason := devinFinishReason state.lastStopReason state.sawToolCalls
  ⟨some ⟨{}, some finishReason⟩, true, none, some finishReason, none, [], false⟩

/-! ### The message of a stream -/

/-- What a client has; `usage` is merged on the way and sent with the last chunk. -/
structure Received where
  content : Text
  reasoning : Text
  toolCalls : SortedMap Nat OpenAIToolCall
  usage : Option OpenAIUsage
  finishReason : Option Text

/-- `update_openai_tool_call_delta`: what an item of `tool_calls` changes in the call of its index. -/
def updateOpenaiToolCallDelta (calls : SortedMap Nat OpenAIToolCall) (d : ToolCallDelta) : SortedMap Nat OpenAIToolCall :=
  calls.upsert (d.index.getD 0) fun call =>
    let call := call.getD ⟨[], [], []⟩
    ⟨d.id.getD call.id, d.name.getD call.name, call.arguments ++ d.arguments⟩

/-- The message with one more chunk. -/
def Received.add (m : Received) (chunk : UpstreamSseChunk) : Received :=
  let delta := (chunk.payload.map (·.delta)).getD {}
  { content := m.content ++ delta.content.getD []
    reasoning := m.reasoning ++ delta.reasoningContent.getD []
    toolCalls := delta.toolCalls.foldl updateOpenaiToolCallDelta m.toolCalls
    usage := addUsage m.usage chunk.usage
    finishReason := (chunk.payload.bind (·.finishReason)).or m.finishReason }

/-! ### The pipeline -/

/-- The loop goes on, or the stream has come to its end. -/
inductive Progress (α : Type)
  | goesOn (x : α)
  | ended (result : Except CoreError Received)

/-- An error of the deframer. -/
def frameError (e : DevinWireError) : CoreError := .upstreamConnection ("devin frame: ".toList ++ e.message)

/-- An error of `parse_devin_frame`. -/
def frameParseError : CoreError :=
  .upstreamConnection ("devin frame parse: ".toList ++ DevinWireError.truncated.message)

section

variable (inflate : Bytes → Nat → Except InflateError Bytes) (providerId modelName : Text)

/-- `process_devin_frame`: a trailer ends the stream, and so does a frame that cannot be read. -/
def processDevinFrame (x : DevinStreamState × Received) (frame : DevinFrameEvent) : Progress (DevinStreamState × Received) :=
  if frame.isEndStream then
    match parseDevinTrailerError frame.payload with
    | some (status, msg) => .ended (.error (.upstreamError status providerId modelName msg))
    | none => .ended (.ok (x.2.add (devinDoneChunk x.1)))
  else
    match parseDevinFrame frame.payload with
    | none => .ended (.error frameParseError)
    | some frame =>
      let (chunk, state) := devinFrameToChunk x.1 frame
      .goesOn (state, (chunk.map x.2.add).getD x.2)

/-- The inner loop of `run_pipeline`: the envelopes that are complete. -/
def drain (x : DevinStreamState × Received) (buf : Bytes) : Progress ((DevinStreamState × Received) × Bytes) :=
  match _h : nextFrame inflate buf with
  | (.error e, _) => .ended (.error (frameError e))
  | (.ok none, rest) => .goesOn (x, rest)
  | (.ok (some frame), rest) =>
    match processDevinFrame providerId modelName x frame with
    | .ended result => .ended result
    | .goesOn x => drain x rest
termination_by buf.length
decreasing_by exact length_nextFrame _h

end

/-! ### The response -/

/-- The state of `fold_devin_body_to_openai_response`. -/
structure DevinFold where
  state : DevinStreamState
  text : Text
  thinking : Text
  usage : Option OpenAIUsage
  created : Nat
  responseId : Text
  responseModel : Option Text
  toolCalls : SortedMap Nat OpenAIToolCall

def DevinFold.new : DevinFold := ⟨.new, [], [], none, 0, [], none, .empty⟩

/-- One delta of a call. -/
def foldDelta (x : DevinStreamState × SortedMap Nat OpenAIToolCall) (tc : DevinToolCallDelta) :
    DevinStreamState × SortedMap Nat OpenAIToolCall :=
  let ((index, firstSeen), state) := devinToolIndex x.1 tc.id
  ({ state with sawToolCalls := true }, x.2.upsert index fun entry =>
    let entry := entry.getD ⟨[], [], []⟩
    ⟨if firstSeen then encodeDevinToolCallId tc.id else entry.id, if tc.name.isEmpty then entry.name else tc.name,
      entry.arguments ++ devinToolCallArgs tc⟩)

/-- One frame. -/
def DevinFold.add (fold : DevinFold) (frame : DevinFrame) : DevinFold :=
  let (state, toolCalls) := frame.toolCallDeltas.foldl foldDelta (fold.state.stopped frame.stopReason, fold.toolCalls)
  { state := state
    text := fold.text ++ frame.text
    thinking := fold.thinking ++ frame.thinkingText
    usage := (devinFrameUsage frame).or fold.usage
    created := if 0 < frame.timestampSecs then frame.timestampSecs else fold.created
    responseId :=
      if !fold.responseId.isEmpty then fold.responseId
      else if !frame.messageId.isEmpty then frame.messageId
      else frame.outputId
    responseModel := match frame.usage with
      | some u => if u.modelName.isEmpty then fold.responseModel else some u.modelName
      | none => fold.responseModel
    toolCalls := toolCalls }

/-- The loop of `fold_devin_body_to_openai_response`, with the bytes that are left; a trailer without an error is passed
over. -/
def foldFrames (inflate : Bytes → Nat → Except InflateError Bytes) (modelName : Text) (fold : DevinFold) (buf : Bytes) :
    Except CoreError (DevinFold × Bytes) :=
  match _h : nextFrame inflate buf with
  | (.error e, _) => .error (frameError e)
  | (.ok none, rest) => .ok (fold, rest)
  | (.ok (some event), rest) =>
    if event.isEndStream then
      match parseDevinTrailerError event.payload with
      | some (status, msg) => .error (.upstreamError status "devin".toList modelName msg)
      | none => foldFrames inflate modelName fold rest
    else
      match parseDevinFrame event.payload with
      | none => .error frameParseError
      | some frame => foldFrames inflate modelName (fold.add frame) rest
termination_by buf.length
decreasing_by all_goals exact length_nextFrame _h

/-- The end of `fold_devin_body_to_openai_response`, at the time `now` and with the identifier `uuid`. -/
def DevinFold.response (fold : DevinFold) (now : Nat) (uuid modelName : Text) : OpenAIResponse where
  id := if fold.responseId.isEmpty then "chatcmpl_".toList ++ uuid else fold.responseId
  created := if fold.created = 0 then now else fold.created
  model := fold.responseModel.getD modelName
  role := "assistant".toList
  content := some fold.text
  reasoning := if fold.thinking.isEmpty then none else some fold.thinking
  toolCalls :=
    let calls := fold.toolCalls.entries.map Prod.snd
    if calls.isEmpty then none else some calls
  finishReason := devinFinishReason fold.state.lastStopReason fold.state.sawToolCalls
  usage := fold.usage

/-- `fold_devin_body_to_openai_response`. -/
def foldDevinBodyToOpenaiResponse (inflate : Bytes → Nat → Except InflateError Bytes) (now : Nat) (uuid : Text) (body : Bytes)
    (modelName : Text) : Except CoreError OpenAIResponse := do
  let (fold, rest) ← foldFrames inflate modelName .new body
  if !rest.isEmpty then throw (.upstreamConnection "devin stream truncated mid-frame".toList)
  return fold.response now uuid modelName

end OpenProxy.Devin
