import OpenProxy.Data.SortedMap
import OpenProxy.Kiro.EventStream
import OpenProxy.Upstream.ResponsesStream
import Mathlib.Data.List.Lex

/-!
# Kiro events

The model of `sse/kiro.rs` and of `adapters/kiro/fold.rs`: the chunk of each event of a stream, and the response that the
events of a whole body make.
-/

namespace OpenProxy.Kiro

open Upstream hiding OpenAIResponse
open Upstream.Responses hiding CoreError

/-- What both readers take from a `toolUseEvent`. -/
structure ToolUse where
  toolUseId : Text
  name : Text
  input : Text
  deriving DecidableEq, Repr

def ToolUse.ofJson (json : Json) : ToolUse where
  toolUseId := (strMember json "toolUseId").getD []
  name := (strMember json "name").getD []
  input := (strMember json "input").getD []

/-! ### The stream -/

structure KiroStreamState where
  toolIndexById : Table Text Nat
  nextToolIndex : Nat
  sawToolCalls : Bool

/-- `KiroStreamState::default`. -/
def KiroStreamState.new : KiroStreamState := ⟨∅, 0, false⟩

/-- `get_or_create_tool_index`; the counter is a `u32`, which wraps where overflows are not checked. -/
def KiroStreamState.getOrCreateToolIndex (state : KiroStreamState) (id : Text) : (Nat × Bool) × KiroStreamState :=
  match state.toolIndexById.lookup id with
  | some idx => ((idx, false), state)
  | none =>
    let idx := state.nextToolIndex
    ((idx, true),
      { state with nextToolIndex := add32 idx 1, toolIndexById := state.toolIndexById.insert id idx })

/-- `kiro_done_chunk`. -/
def kiroDoneChunk (finishReason : Text) : UpstreamSseChunk :=
  ⟨some ⟨{}, some finishReason⟩, true, none, some finishReason, none, [], false⟩

/-- The `ToolUse` branch of `kiro_frame_to_chunk`. -/
def toolUseToChunk (state : KiroStreamState) (use : ToolUse) : Option UpstreamSseChunk × KiroStreamState :=
  let ((idx, isNew), state) := { state with sawToolCalls := true }.getOrCreateToolIndex use.toolUseId
  if isNew && !use.name.isEmpty then (some (makeToolCallStart idx use.toolUseId use.name), state)
  else if !use.input.isEmpty then (some (makeToolCallDelta idx use.input), state)
  else (none, state)

/-- `kiro_frame_to_chunk`. -/
def kiroFrameToChunk (state : KiroStreamState) (frame : KiroFrameEvent) : Option UpstreamSseChunk × KiroStreamState :=
  match frame.eventType with
  | .assistantResponse =>
    match (fromSlice frame.payload).bind fun json => strMember json "content" with
    | some text => if text.isEmpty then (none, state) else (some (makeTextDelta text), state)
    | none => (none, state)
  | .toolUse =>
    match fromSlice frame.payload with
    | some json => toolUseToChunk state (ToolUse.ofJson json)
    | none => (none, state)
  | .messageStop => (some (kiroDoneChunk (if state.sawToolCalls then "tool_calls".toList else "stop".toList)), state)
  | _ => (none, state)

/-- A client puts the chunk of an event together with those before it. -/
def advance (x : KiroStreamState × Folded) (frame : KiroFrameEvent) : KiroStreamState × Folded :=
  let (chunk, state) := kiroFrameToChunk x.1 frame
  (state, (chunk.map x.2.add).getD x.2)

/-- The message of a stream. -/
def streamed (frames : List KiroFrameEvent) : Folded := (frames.foldl advance (.new, ⟨⟨[], [], [], none⟩, none⟩)).2

/-! ### The response -/

/-- `content` and `tool_calls_map` of `fold_kiro_body_to_openai_response`. -/
structure KiroFold where
  content : Text
  toolCallsMap : SortedMap Text (Text × Text)

/-- The entry of a call, made or changed. -/
def ToolUse.entry (use : ToolUse) (entry : Option (Text × Text)) : Text × Text :=
  let entry := entry.getD (use.name, [])
  let name := if !use.name.isEmpty && entry.1.isEmpty then use.name else entry.1
  (name, entry.2 ++ use.input)

/-- One frame; the `stop` of a `messageStopEvent` is looked at and changes nothing. -/
def KiroFold.add (fold : KiroFold) (frame : KiroFrameEvent) : KiroFold :=
  match frame.eventType with
  | .assistantResponse =>
    match (fromSlice frame.payload).bind fun json => strMember json "content" with
    | some text => { fold with content := fold.content ++ text }
    | none => fold
  | .toolUse =>
    match fromSlice frame.payload with
    | some json =>
      let use := ToolUse.ofJson json
      if use.toolUseId.isEmpty then fold
      else { fold with toolCallsMap := fold.toolCallsMap.upsert use.toolUseId use.entry }
    | none => fold
  | _ => fold

/-- The loop of `fold_kiro_body_to_openai_response`. -/
def foldFrames (crc : Bytes → UInt32) (fold : KiroFold) (buf : Bytes) : Except CoreError KiroFold :=
  match _h : nextFrame crc buf with
  | (.error e, _) => .error e
  | (.ok none, _) => .ok fold
  | (.ok (some frame), rest) => foldFrames crc (fold.add frame) rest
termination_by buf.length
decreasing_by exact length_nextFrame crc _h

/-- `fold_kiro_body_to_openai_response`, at the time `now` and with the identifier `uuid`. -/
def foldKiroBodyToOpenaiResponse (crc : Bytes → UInt32) (now : Nat) (uuid : Text) (body : Bytes) (modelName : Text) :
    Except CoreError OpenAIResponse := do
  let fold ← foldFrames crc ⟨[], .empty⟩ body
  let toolCalls : List OpenAIToolCall := fold.toolCallsMap.entries.map fun (id, name, args) => ⟨id, name, args⟩
  return {
    id := "chatcmpl_".toList ++ uuid
    created := now
    model := modelName
    role := "assistant".toList
    content := some fold.content
    reasoning := none
    toolCalls := if toolCalls.isEmpty then none else some toolCalls
    finishReason := if toolCalls.isEmpty then "stop".toList else "tool_calls".toList
    usage := none }

end OpenProxy.Kiro
