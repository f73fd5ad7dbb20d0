import OpenProxy.Data.Json
import OpenProxy.Data.Machine

/-!
# OpenAI chunks as a Responses event stream

`OpenAIToResponsesSseStream` has one item for the reasoning, one for the text and one for each tool call.  An item is
added when its first delta comes and is done when another kind of output begins, at a `finish_reason` or at the end.
-/

namespace OpenProxy.Translation

/-! ### What is read of a payload -/

structure ErrorProbe where
  error : Option Json
  type : Option Text
  message : Option Text
  code : Option Json

structure ResponsesFunctionCallProbe where
  name : Option Text
  arguments : Option Text
deriving DecidableEq

structure ResponsesToolCallProbe where
  index : Option Nat
  id : Option Text
  function : Option ResponsesFunctionCallProbe
deriving DecidableEq

structure ResponsesDeltaProbe where
  content : Option Text
  reasoningContent : Option Text
  toolCalls : Option (List ResponsesToolCallProbe)
deriving DecidableEq

structure ResponsesChoiceProbe where
  delta : Option ResponsesDeltaProbe
  finishReason : Option Text
deriving DecidableEq

structure ResponsesTokensDetailsProbe where
  cachedTokens : Option UInt32
  cacheReadInputTokens : Option UInt32
  promptCacheHitTokens : Option UInt32
deriving DecidableEq

structure ResponsesUsageProbe where
  promptTokens : Option UInt32
  completionTokens : Option UInt32
  totalTokens : Option UInt32
  inputTokens : Option UInt32
  outputTokens : Option UInt32
  promptTokensDetails : Option ResponsesTokensDetailsProbe
  inputTokensDetails : Option ResponsesTokensDetailsProbe
  promptCacheHitTokens : Option UInt32
  cachedTokens : Option UInt32
  cacheReadInputTokens : Option UInt32
deriving DecidableEq

structure ResponsesSseProbe where
  id : Option Text
  choices : Option (List ResponsesChoiceProbe)
  usage : Option ResponsesUsageProbe
deriving DecidableEq

/-- What `serde_json::from_str` reads of a payload. -/
structure ResponsesSerde where
  errorProbe : Text → Option ErrorProbe
  probe : Text → Option ResponsesSseProbe

/-! ### Usage -/

/-- `OpenAIUsage`; the details of the prompt tokens are the number of cached tokens. -/
structure OpenAIUsage where
  promptTokens : UInt32
  completionTokens : UInt32
  totalTokens : UInt32
  cachedTokens : Option UInt32
deriving DecidableEq

/-- `u32::saturating_add`. -/
def saturatingAdd (a b : UInt32) : UInt32 := if a.toNat + b.toNat < 2 ^ 32 then a + b else UInt32.ofNat (2 ^ 32 - 1)

/-- The first positive count, or zero if there is any count. -/
def firstCached (counts : List (Option UInt32)) : Option UInt32 :=
  match counts.reduceOption.find? (0 < ·) with
  | some v => some v
  | none => if counts.reduceOption.isEmpty then none else some 0

def ResponsesTokensDetailsProbe.extractCached (d : ResponsesTokensDetailsProbe) : Option UInt32 :=
  firstCached [d.cachedTokens, d.cacheReadInputTokens, d.promptCacheHitTokens]

def ResponsesUsageProbe.toOpenaiUsage (u : ResponsesUsageProbe) : OpenAIUsage :=
  let pt := (u.promptTokens.or u.inputTokens).getD 0
  let ct := (u.completionTokens.or u.outputTokens).getD 0
  let detailsCached := (u.promptTokensDetails.bind (·.extractCached)).or (u.inputTokensDetails.bind (·.extractCached))
  let rootCached := firstCached [u.cachedTokens, u.cacheReadInputTokens, u.promptCacheHitTokens]
  { promptTokens := pt
    completionTokens := ct
    totalTokens := u.totalTokens.getD (saturatingAdd pt ct)
    cachedTokens := firstCached [detailsCached, rootCached] }

/-! ### What is emitted -/

/-- What an item says about itself when it is added. -/
inductive ItemHeader
  | reasoning (id : Text)
  | message (id : Text)
  | functionCall (callId name : Text)
deriving DecidableEq

/-- An item that is done, with its text or its arguments. -/
structure OutputItem where
  header : ItemHeader
  text : Text
deriving DecidableEq

inductive ResponsesEvent
  | created (responseId model : Text)
  | itemAdded (outputIndex : Nat) (item : ItemHeader)
  | reasoningTextDelta (outputIndex : Nat) (delta : Text)
  | outputTextDelta (outputIndex : Nat) (delta : Text)
  | argumentsDelta (outputIndex : Nat) (callId delta : Text)
  | argumentsDone (outputIndex : Nat) (callId arguments : Text)
  | itemDone (outputIndex : Nat) (item : OutputItem)
  | completed (responseId model : Text) (output : List OutputItem) (usage : Option OpenAIUsage)
  | failed (responseId code message : Text)
  | failedPayload (payload : Text)
  | doneSentinel
deriving DecidableEq

/-! ### The stream -/

/-- The fields `*_output_index`, `*_done` and `accumulated_*` of the reasoning or of the text. -/
structure ItemSlot where
  outputIndex : Option Nat
  done : Bool
  accumulated : Text
deriving DecidableEq

structure StreamToolCall where
  toolIndex : Nat
  outputIndex : Nat
  callId : Text
  name : Text
  arguments : Text
  doneEmitted : Bool
deriving DecidableEq

structure OpenAIToResponsesSseStream where
  responseId : Text
  model : Text
  hasStarted : Bool
  hasCompleted : Bool
  reasoning : ItemSlot
  reasoningId : Text
  text : ItemSlot
  messageId : Text
  toolCalls : List StreamToolCall
  nextOutputIndex : Nat
  usage : Option OpenAIUsage
deriving DecidableEq

namespace ItemSlot

def empty : ItemSlot := ⟨none, false, []⟩

/-- `close_reasoning` and `close_text`. -/
def close (slot : ItemSlot) (header : ItemHeader) : ItemSlot × List ResponsesEvent :=
  match slot.outputIndex with
  | some index =>
    if slot.done then (slot, []) else ({ slot with done := true }, [.itemDone index ⟨header, slot.accumulated⟩])
  | none => (slot, [])

/-- A delta is added to an item, and the item is added first if there is none; the second value is the next output
index. -/
def append (slot : ItemSlot) (next : Nat) (header : ItemHeader) (delta : Nat → ResponsesEvent) (text : Text) :
    ItemSlot × Nat × List ResponsesEvent :=
  match slot.outputIndex with
  | some index => ({ slot with accumulated := slot.accumulated ++ text }, next, [delta index])
  | none =>
    ({ slot with outputIndex := some next, accumulated := slot.accumulated ++ text }, next + 1,
      [.itemAdded next header, delta next])

end ItemSlot

def StreamToolCall.close (tc : StreamToolCall) : StreamToolCall × List ResponsesEvent :=
  if tc.doneEmitted then (tc, [])
  else
    ({ tc with doneEmitted := true },
      [.argumentsDone tc.outputIndex tc.callId tc.arguments,
        .itemDone tc.outputIndex ⟨.functionCall tc.callId tc.name, tc.arguments⟩])

/-- The arguments are added to the first call with the index. -/
def pushArguments (toolIndex : Nat) (args : Text) : List StreamToolCall → List StreamToolCall
  | [] => []
  | t :: ts =>
    if t.toolIndex = toolIndex then { t with arguments := t.arguments ++ args } :: ts
    else t :: pushArguments toolIndex args ts

namespace OpenAIToResponsesSseStream

def new (responseId model : Text) : OpenAIToResponsesSseStream where
  responseId := responseId
  model := model
  hasStarted := false
  hasCompleted := false
  reasoning := .empty
  reasoningId := "rs_".toList ++ responseId
  text := .empty
  messageId := "msg_".toList ++ responseId
  toolCalls := []
  nextOutputIndex := 0
  usage := none

variable (s : OpenAIToResponsesSseStream)

def ensureStarted : OpenAIToResponsesSseStream × List ResponsesEvent :=
  if s.hasStarted then (s, []) else ({ s with hasStarted := true }, [.created s.responseId s.model])

def closeReasoning : OpenAIToResponsesSseStream × List ResponsesEvent :=
  let (slot, events) := s.reasoning.close (.reasoning s.reasoningId)
  ({ s with reasoning := slot }, events)

def closeText : OpenAIToResponsesSseStream × List ResponsesEvent :=
  let (slot, events) := s.text.close (.message s.messageId)
  ({ s with text := slot }, events)

def closeToolCalls : OpenAIToResponsesSseStream × List ResponsesEvent :=
  ({ s with toolCalls := s.toolCalls.map (·.close.1) }, s.toolCalls.flatMap (·.close.2))

/-- The branch of `finish` for a response without any item. -/
def addEmptyMessage : OpenAIToResponsesSseStream × List ResponsesEvent :=
  if s.reasoning.outputIndex.isNone && s.text.outputIndex.isNone && s.toolCalls.isEmpty then
    ({ s with text := { s.text with outputIndex := some 0, done := true } },
      [.itemAdded 0 (.message s.messageId), .itemDone 0 ⟨.message s.messageId, []⟩])
  else (s, [])

def outputItems : List OutputItem :=
  (if s.reasoning.outputIndex.isSome then [⟨.reasoning s.reasoningId, s.reasoning.accumulated⟩] else []) ++
    (if s.text.outputIndex.isSome then [⟨.message s.messageId, s.text.accumulated⟩] else []) ++
    s.toolCalls.map fun tc => ⟨.functionCall tc.callId tc.name, tc.arguments⟩

def finish : OpenAIToResponsesSseStream × List ResponsesEvent :=
  if s.hasCompleted then (s, [])
  else
    let (s, started) := s.ensureStarted
    let (s, reasoning) := s.closeReasoning
    let (s, text) := s.closeText
    let (s, tools) := s.closeToolCalls
    let (s, empty) := s.addEmptyMessage
    ({ s with hasCompleted := true },
      started ++ reasoning ++ text ++ tools ++ empty ++
        [.completed s.responseId s.model s.outputItems s.usage, .doneSentinel])

def handleReasoning (reasoning : Text) : OpenAIToResponsesSseStream × List ResponsesEvent :=
  if reasoning.isEmpty then (s, [])
  else
    let (slot, next, events) := s.reasoning.append s.nextOutputIndex (.reasoning s.reasoningId)
      (.reasoningTextDelta · reasoning) reasoning
    ({ s with reasoning := slot, nextOutputIndex := next }, events)

def handleText (text : Text) : OpenAIToResponsesSseStream × List ResponsesEvent :=
  if text.isEmpty then (s, [])
  else
    let (s, closed) := s.closeReasoning
    let (slot, next, events) := s.text.append s.nextOutputIndex (.message s.messageId) (.outputTextDelta · text) text
    ({ s with text := slot, nextOutputIndex := next }, closed ++ events)

/-- The first part of the loop over the tool calls: the call with the index, or a new one. -/
def findToolCall (tc : ResponsesToolCallProbe) : OpenAIToResponsesSseStream × (Nat × Text) × List ResponsesEvent :=
  let toolIndex := tc.index.getD 0
  match s.toolCalls.find? (·.toolIndex = toolIndex) with
  | some t => (s, (t.outputIndex, t.callId), [])
  | none =>
    let outIdx := s.nextOutputIndex
    let id := tc.id.getD []
    let callId := if id.isEmpty then "call_".toList ++ Nat.toDigits 10 outIdx else id
    let name := (tc.function.bind (·.name)).getD []
    ({ s with
        nextOutputIndex := outIdx + 1
        toolCalls := s.toolCalls ++ [⟨toolIndex, outIdx, callId, name, [], false⟩] },
      (outIdx, callId), [.itemAdded outIdx (.functionCall callId name)])

def handleToolCall (tc : ResponsesToolCallProbe) : OpenAIToResponsesSseStream × List ResponsesEvent :=
  let (s, (outIdx, callId), added) := s.findToolCall tc
  let args := (tc.function.bind (·.arguments)).getD []
  if args.isEmpty then (s, added)
  else
    ({ s with toolCalls := pushArguments (tc.index.getD 0) args s.toolCalls },
      added ++ [.argumentsDelta outIdx callId args])

def closeOutput : OpenAIToResponsesSseStream × List ResponsesEvent :=
  let (s, reasoning) := s.closeReasoning
  let (s, text) := s.closeText
  (s, reasoning ++ text)

def closeAll : OpenAIToResponsesSseStream × List ResponsesEvent :=
  let (s, output) := s.closeOutput
  let (s, tools) := s.closeToolCalls
  (s, output ++ tools)

def handleToolCalls (s : OpenAIToResponsesSseStream) :
    List ResponsesToolCallProbe → OpenAIToResponsesSseStream × List ResponsesEvent
  | [] => (s, [])
  | tc :: tcs =>
    let (s, events) := s.handleToolCall tc
    let (s, events') := s.handleToolCalls tcs
    (s, events ++ events')

def handleDelta (delta : ResponsesDeltaProbe) : OpenAIToResponsesSseStream × List ResponsesEvent :=
  let (s, reasoning) := match delta.reasoningContent with
    | some reasoning => s.handleReasoning reasoning
    | none => (s, [])
  let (s, text) := match delta.content with
    | some text => s.handleText text
    | none => (s, [])
  let (s, tools) := match delta.toolCalls with
    | some toolCalls =>
      let (s, closed) := s.closeOutput
      let (s, events) := s.handleToolCalls toolCalls
      (s, closed ++ events)
    | none => (s, [])
  (s, reasoning ++ text ++ tools)

def handleChoice (c : ResponsesChoiceProbe) : OpenAIToResponsesSseStream × List ResponsesEvent :=
  let (s, delta) := match c.delta with
    | some delta => s.handleDelta delta
    | none => (s, [])
  let (s, finish) := if c.finishReason.isSome then s.closeAll else (s, [])
  (s, delta ++ finish)

def handleChoices (s : OpenAIToResponsesSseStream) :
    List ResponsesChoiceProbe → OpenAIToResponsesSseStream × List ResponsesEvent
  | [] => (s, [])
  | c :: cs =>
    let (s, events) := s.handleChoice c
    let (s, events') := s.handleChoices cs
    (s, events ++ events')

end OpenAIToResponsesSseStream

/-- The code and the message of an error. -/
def ErrorProbe.codeAndMessage (e : ErrorProbe) : Text × Text :=
  match e.error with
  | some (.object map) =>
    (((Json.getField map "code".toList).bind Json.asStr).getD "internal_error".toList,
      ((Json.getField map "message".toList).bind Json.asStr).getD "upstream error".toList)
  | some (.string s) => ("internal_error".toList, s)
  | _ => ((e.code.bind Json.asStr).getD "internal_error".toList, e.message.getD "upstream error".toList)

def ErrorProbe.isError (e : ErrorProbe) : Bool :=
  e.error.isSome || e.type == some "error".toList || e.type == some "response.failed".toList

namespace OpenAIToResponsesSseStream

variable (s : OpenAIToResponsesSseStream)

/-- The event for a payload that reports an error. -/
def failedEvent (payload : Text) (e : ErrorProbe) : ResponsesEvent :=
  if e.type == some "response.failed".toList then .failedPayload payload
  else .failed s.responseId e.codeAndMessage.1 e.codeAndMessage.2

/-- The `id` and the `usage` of a chunk. -/
def readMetadata (probe : ResponsesSseProbe) : OpenAIToResponsesSseStream :=
  { s with
    responseId := match probe.id with
      | some id => if "resp_req_".toList.isPrefixOf s.responseId then "resp_".toList ++ id else s.responseId
      | none => s.responseId
    usage := (probe.usage.map (·.toOpenaiUsage)).or s.usage }

def processChunk (probe : ResponsesSseProbe) : OpenAIToResponsesSseStream × List ResponsesEvent :=
  let (s, started) := (s.readMetadata probe).ensureStarted
  match probe.choices with
  | none => (s, started)
  | some choices =>
    let (s, events) := s.handleChoices choices
    (s, started ++ events)

def processPayload (serde : ResponsesSerde) (s : OpenAIToResponsesSseStream) (payload : Text) :
    OpenAIToResponsesSseStream × List ResponsesEvent :=
  match (serde.errorProbe payload).filter (·.isError) with
  | some e => ({ s with hasCompleted := true }, [s.failedEvent payload e])
  | none =>
    match serde.probe payload with
    | none => (s, [])
    | some probe => s.processChunk probe

/-- What `process_incoming_chunk` does with the payload of a data line. -/
def processData (serde : ResponsesSerde) (s : OpenAIToResponsesSseStream) (payload : Text) :
    OpenAIToResponsesSseStream × List ResponsesEvent :=
  if payload = "[DONE]".toList then s.finish else s.processPayload serde payload

/-- What the client gets for a sequence of payloads; at the end of the upstream the response is finished. -/
def events (serde : ResponsesSerde) (responseId model : Text) (payloads : List Text) : List ResponsesEvent :=
  emitted (processData serde) (new responseId model) payloads ++
    (runState (processData serde) (new responseId model) payloads).finish.2

end OpenAIToResponsesSseStream

end OpenProxy.Translation
