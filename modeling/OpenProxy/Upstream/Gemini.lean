import Mathlib.Data.List.DropRight
import OpenProxy.Accumulator.Accounting
import OpenProxy.Text.Lines

/-!
# Streams of a Gemini upstream

The model of `sse/gemini.rs` and of the branch of `sse/stream_to_value.rs` for Gemini.  The finish reason of a chunk is
changed to `tool_calls` by the calls of the chunk.  A streaming client sees the last one of these reasons and the unary
response has the first one, so the two agree if no call comes before a chunk that ends with another reason
(`endsAsFolded_iff`).  A call that Gemini could not write is taken from the text of its message, as it is.
-/

namespace OpenProxy.Upstream.Gemini

open Json Accumulator

/-! ### What is read of a line -/

/-- `GeminiUsageProbe`. -/
structure GeminiUsageProbe where
  promptTokens : Option Nat
  completionTokens : Option Nat
  totalTokens : Option Nat
  cachedTokens : Option Nat
  deriving DecidableEq

def GeminiUsageProbe.decode (v : Json) : Option GeminiUsageProbe := do
  let promptTokens ← optionField decodeU64 "promptTokenCount".toList 0 4 true v
  let completionTokens ← optionField decodeU64 "candidatesTokenCount".toList 1 4 true v
  let totalTokens ← optionField decodeU64 "totalTokenCount".toList 2 4 true v
  let cachedTokens ← optionField decodeU64 "cachedContentTokenCount".toList 3 4 true v
  return ⟨promptTokens, completionTokens, totalTokens, cachedTokens⟩

/-- `GeminiFunctionCallProbe`. -/
structure GeminiFunctionCallProbe where
  name : Option Text
  args : Option Json
  id : Option Text
  deriving DecidableEq

def GeminiFunctionCallProbe.decode (outer : Nat) (v : Json) : Option GeminiFunctionCallProbe := do
  let name ← optionField asStr "name".toList 0 3 true v
  let args ← optionField (decodeValue (outer + 1)) "args".toList 1 3 true v
  let id ← optionField asStr "id".toList 2 3 true v
  return ⟨name, args, id⟩

/-- `GeminiPartProbe`. -/
structure GeminiPartProbe where
  text : Option Text
  thought : Option Bool
  functionCall : Option GeminiFunctionCallProbe
  deriving DecidableEq

def decodeBool : Json → Option Bool
  | .bool b => some b
  | _ => none

def GeminiPartProbe.decode (outer : Nat) (v : Json) : Option GeminiPartProbe := do
  let text ← optionField asStr "text".toList 0 3 true v
  let thought ← optionField decodeBool "thought".toList 1 3 true v
  let functionCall ← optionField (GeminiFunctionCallProbe.decode (outer + 1)) "functionCall".toList 2 3 true v
  return ⟨text, thought, functionCall⟩

/-- `GeminiCandidateProbe`, with the parts of its `GeminiContentProbe`. -/
structure GeminiCandidateProbe where
  content : Option (List GeminiPartProbe)
  finishReason : Option Text
  finishMessage : Option Text
  deriving DecidableEq

def decodeContent (outer : Nat) (v : Json) : Option (List GeminiPartProbe) :=
  (structMember "parts".toList 0 1 true v).bind (asDefault [] (decodeList (GeminiPartProbe.decode (outer + 2))))

def GeminiCandidateProbe.decode (outer : Nat) (v : Json) : Option GeminiCandidateProbe := do
  let content ← optionField (decodeContent (outer + 1)) "content".toList 0 3 true v
  let finishReason ← optionField asStr "finishReason".toList 1 3 true v
  let finishMessage ← optionField asStr "finishMessage".toList 2 3 true v
  return ⟨content, finishReason, finishMessage⟩

def decodeCandidates (outer position count : Nat) (v : Json) : Option (List GeminiCandidateProbe) :=
  (structMember "candidates".toList position count true v).bind
    (asDefault [] (decodeList (GeminiCandidateProbe.decode (outer + 2))))

/-- `GeminiInnerSseProbe`. -/
structure GeminiInnerSseProbe where
  candidates : List GeminiCandidateProbe
  usageMetadata : Option GeminiUsageProbe
  deriving DecidableEq

def GeminiInnerSseProbe.decode (v : Json) : Option GeminiInnerSseProbe := do
  let candidates ← decodeCandidates 2 0 2 v
  let usageMetadata ← optionField GeminiUsageProbe.decode "usageMetadata".toList 1 2 true v
  return ⟨candidates, usageMetadata⟩

/-- `GeminiSseProbe`. -/
structure GeminiSseProbe where
  candidates : List GeminiCandidateProbe
  usageMetadata : Option GeminiUsageProbe
  response : Option GeminiInnerSseProbe
  deriving DecidableEq

def GeminiSseProbe.decode (v : Json) : Option GeminiSseProbe := do
  let candidates ← decodeCandidates 1 0 3 v
  let usageMetadata ← optionField GeminiUsageProbe.decode "usageMetadata".toList 1 3 true v
  let response ← optionField GeminiInnerSseProbe.decode "response".toList 2 3 true v
  return ⟨candidates, usageMetadata, response⟩

/-! ### What is taken out of it -/

/-- `map_gemini_finish_reason`. -/
def mapGeminiFinishReason (reason : Text) : Text :=
  if reason = "STOP".toList then "stop".toList
  else if reason = "MAX_TOKENS".toList then "length".toList
  else if reason ∈ ["SAFETY".toList, "RECITATION".toList, "BLOCKLIST".toList] then "content_filter".toList
  else if reason ∈ ["MALFORMED_FUNCTION_CALL".toList, "UNEXPECTED_TOOL_CALL".toList] then "tool_calls".toList
  else "stop".toList

/-- `extract_gemini_candidates`. -/
def extractGeminiCandidates (probe : GeminiSseProbe) : List GeminiCandidateProbe :=
  if !probe.candidates.isEmpty then probe.candidates
  else match probe.response with
    | some inner => inner.candidates
    | none => probe.candidates

/-- `extract_gemini_usage_metadata`. -/
def extractGeminiUsageMetadata (probe : GeminiSseProbe) : Option GeminiUsageProbe :=
  probe.usageMetadata.or (probe.response.bind (·.usageMetadata))

/-- The parts of the first candidate. -/
def partsOf (candidates : List GeminiCandidateProbe) : List GeminiPartProbe :=
  (candidates.head?.bind (·.content)).getD []

/-- `extract_gemini_parts`. -/
def extractGeminiParts (candidates : List GeminiCandidateProbe) :
    Text × Option Text × List GeminiFunctionCallProbe :=
  let parts := partsOf candidates
  let content := parts.flatMap fun part => if part.thought.getD false then [] else part.text.getD []
  let reasoning := parts.flatMap fun part => if part.thought.getD false then part.text.getD [] else []
  (content, if reasoning.isEmpty then none else some reasoning, parts.filterMap (·.functionCall))

/-- `extract_gemini_usage`, with `build_openai_usage`. -/
def extractGeminiUsage (usageMetadata : Option GeminiUsageProbe) : Option OpenAIUsage := do
  let u ← usageMetadata
  let promptTokens ← u.promptTokens
  let completionTokens ← u.completionTokens
  let totalTokens ← u.totalTokens
  return ⟨clamp32 promptTokens, clamp32 completionTokens, clamp32 totalTokens,
    u.cachedTokens.map fun cached => some (clamp32 cached)⟩

/-! ### Chunks -/

/-- `format!("call_{chunk_id}_{global_idx}")`. -/
def callId (chunkId : Text) (globalIdx : Nat) : Text :=
  "call_".toList ++ chunkId ++ '_' :: Nat.toDigits 10 globalIdx

/-- The arguments of a call, as they are sent. -/
def GeminiFunctionCallProbe.arguments (fc : GeminiFunctionCallProbe) : Text :=
  match fc.args with
  | none => "{}".toList
  | some args => write args

/-- The calls of a chunk, numbered from `counter` on. -/
def toolCalls (chunkId : Text) (counter : Nat) : List GeminiFunctionCallProbe → List ToolCallDelta
  | [] => []
  | fc :: fcs =>
    ⟨some counter, some (fc.id.getD (callId chunkId counter)), some (fc.name.getD []), fc.arguments⟩ ::
      toolCalls chunkId (counter + 1) fcs

def malformedReasons : List Text := ["MALFORMED_FUNCTION_CALL".toList, "UNEXPECTED_TOOL_CALL".toList]

/-- The name and the arguments of the call that Gemini gave up. -/
def malformedCall (reason finishMsg : Text) : Text × Text :=
  let unknown := ("malformed_tool_call".toList,
    write (object [("error".toList, string reason), ("message".toList, string finishMsg)]))
  match find finishMsg "call:".toList with
  | none => unknown
  | some idx =>
    let rest := finishMsg.drop (idx + 5)
    match find rest ['\x7b'] with
    | none => unknown
    | some braceIdx => (trim (rest.take braceIdx), rest.drop braceIdx)

/-- The call that is made up when there is no other one. -/
def malformedToolCall (chunkId : Text) (counter : Nat) (candidate : Option GeminiCandidateProbe) :
    List ToolCallDelta :=
  match candidate with
  | none => []
  | some candidate =>
    match candidate.finishReason with
    | none => []
    | some reason =>
      if reason ∈ malformedReasons then
        let call := malformedCall reason (candidate.finishMessage.getD reason)
        [⟨some counter, some (callId chunkId counter), some call.1, call.2⟩]
      else []

/-- The calls of a chunk, with the one that is made up. -/
def deltaToolCalls (chunkId : Text) (counter : Nat) (candidates : List GeminiCandidateProbe) : List ToolCallDelta :=
  let functionCalls := (extractGeminiParts candidates).2.2
  if functionCalls.isEmpty then malformedToolCall chunkId counter candidates.head?
  else toolCalls chunkId counter functionCalls

/-- The finish reason of a chunk with or without calls. -/
def chunkFinishReason (reason : Option Text) (hasCalls : Bool) : Option Text :=
  let mapped := reason.map mapGeminiFinishReason
  if hasCalls && (mapped.isNone || mapped = some "stop".toList) then some "tool_calls".toList else mapped

/-- The chunk of a document. -/
def geminiChunk (chunkId : Text) (counter : Nat) (probe : GeminiSseProbe) : UpstreamSseChunk :=
  let candidates := extractGeminiCandidates probe
  let (text, deltaReasoning, _) := extractGeminiParts candidates
  let calls := deltaToolCalls chunkId counter candidates
  let finishReason := chunkFinishReason (candidates.head?.bind (·.finishReason)) (!calls.isEmpty)
  let usage := extractGeminiUsage (extractGeminiUsageMetadata probe)
  let content := if !text.isEmpty then some text else if deltaReasoning.isSome then some [] else none
  let hasContent := !text.isEmpty || deltaReasoning.isSome || !calls.isEmpty
  if !hasContent && finishReason.isNone && usage.isNone then .liveness
  else
    ⟨some ⟨{ content := content, reasoningContent := deltaReasoning, toolCalls := calls }, finishReason⟩, false, usage,
      finishReason, deltaReasoning, calls, hasContent⟩

/-- `UpstreamSseChunk::done`. -/
def doneChunk : UpstreamSseChunk := ⟨none, true, none, none, none, [], false⟩

/-- `parse_gemini_sse_line`, with the counter that it leaves. -/
def parseGeminiSseLine (chunkId line : Text) (counter : Nat) : Except CoreError (Option UpstreamSseChunk) × Nat :=
  match parseSseDataOrDone line with
  | .done => (.ok (some doneChunk), counter)
  | .skip => (.ok none, counter)
  | .payload payload =>
    match (read payload).bind GeminiSseProbe.decode with
    | none => (.error (.parse "gemini sse json".toList), counter)
    | some probe =>
      (.ok (some (geminiChunk chunkId counter probe)),
        counter + (deltaToolCalls chunkId counter (extractGeminiCandidates probe)).length)

/-- `is_liveness`. -/
def isLiveness (chunk : UpstreamSseChunk) : Bool := chunk.payload.isNone && !chunk.done

/-! ### What a streaming client is sent -/

/-- The chunks that are sent for the lines, until the stream ends or fails. -/
def sentChunks (chunkId : Text) (counter : Nat) : List Text → List UpstreamSseChunk
  | [] => []
  | line :: lines =>
    match parseGeminiSseLine chunkId line counter with
    | (.error _, _) => []
    | (.ok none, counter) => sentChunks chunkId counter lines
    | (.ok (some chunk), counter) =>
      if chunk.done then []
      else if isLiveness chunk then sentChunks chunkId counter lines
      else chunk :: sentChunks chunkId counter lines

/-- The last finish reason that is not null. -/
def lastFinishReason (chunks : List UpstreamSseChunk) : Option Text :=
  (chunks.filterMap fun chunk => chunk.payload.bind (·.finishReason)).getLast?

/-! ### The unary response -/

def usageJson (u : OpenAIUsage) : Json :=
  object ([("completion_tokens".toList, number (.ofNat u.completionTokens)),
      ("prompt_tokens".toList, number (.ofNat u.promptTokens))] ++
    (u.promptTokensDetails.map fun cached => ("prompt_tokens_details".toList,
      object [("cached_tokens".toList, (cached.map fun n => number (.ofNat n)).getD null)])).toList ++
    [("total_tokens".toList, number (.ofNat u.totalTokens))])

def toolCallJson (call : ToolCallDelta) : Json :=
  object [("function".toList, object [("arguments".toList, string call.arguments),
      ("name".toList, string (call.name.getD []))]),
    ("id".toList, string (call.id.getD [])), ("index".toList, number (.ofNat (call.index.getD 0))),
    ("type".toList, string "function".toList)]

def deltaJson (delta : ChunkDelta) : Json :=
  object ((delta.content.map fun content => ("content".toList, string content)).toList ++
    (delta.reasoningContent.map fun reasoning => ("reasoning_content".toList, string reasoning)).toList ++
    if delta.toolCalls.isEmpty then [] else [("tool_calls".toList, array (delta.toolCalls.map toolCallJson))])

/-- `into_json_string`. -/
def intoJsonString (chunkId model : Text) (created : Nat) (chunk : UpstreamSseChunk) : Text :=
  match chunk.payload with
  | none => write null
  | some payload =>
    write (object ([("choices".toList, array [object [("delta".toList, deltaJson payload.delta),
        ("finish_reason".toList, (payload.finishReason.map string).getD null), ("index".toList, number (.ofNat 0))]]),
      ("created".toList, number (.ofNat created)), ("id".toList, string chunkId), ("model".toList, string model),
      ("object".toList, string "chat.completion.chunk".toList)] ++
      (chunk.usage.map fun u => ("usage".toList, usageJson u)).toList))

/-- The accumulator with its usage and its stop reason. -/
structure UnaryAccumulator where
  acc : ResponseAccumulator
  usage : Option OpenAIUsage
  stopReason : Option Text

namespace UnaryAccumulator

def new : UnaryAccumulator := ⟨.new, none, none⟩

/-- `set_usage`. -/
def setUsage (s : UnaryAccumulator) (usage : OpenAIUsage) : UnaryAccumulator :=
  { s with usage := some ((s.usage.map fun existing => mergeUsage existing usage).getD usage) }

/-- `set_stop_reason`. -/
def setStopReason (s : UnaryAccumulator) (reason : Text) : UnaryAccumulator :=
  if s.stopReason.isNone then { s with stopReason := some reason } else s

/-- `feed_chunk_to_acc`, for the text of the chunk. -/
def feedChunk (serde : AccumulatorSerde) (s : UnaryAccumulator) (chunk : UpstreamSseChunk) (jsonStr : Text) :
    UnaryAccumulator × Bool :=
  if isLiveness chunk then (s, false)
  else
    let s := match chunk.usage with
      | some usage => s.setUsage usage
      | none => s
    let s := match chunk.stopReason with
      | some reason => s.setStopReason reason
      | none => s
    let s := match chunk.deltaReasoning with
      | some reasoning => { s with acc := s.acc.appendReasoning reasoning }
      | none => s
    ({ s with acc := s.acc.appendOpenaiRaw serde jsonStr }, chunk.done)

end UnaryAccumulator

/-- `FinishResponse`, with the message of its only choice. -/
structure FinishResponse where
  content : Option Text
  reasoningContent : Option Text
  toolCalls : Option (List AccumulatedToolCall)
  truncated : Bool
  finishReason : Option Text
  usage : Option OpenAIUsage

/-- `finish`. -/
def UnaryAccumulator.finish (s : UnaryAccumulator) : FinishResponse where
  content := if s.acc.content.isEmpty then none else some s.acc.content
  reasoningContent := s.acc.reasoning
  toolCalls := if s.acc.toolCalls.isEmpty then none else some s.acc.toolCalls
  truncated := s.acc.truncated
  finishReason :=
    match s.stopReason with
    | some reason =>
      if reason ∈ ["tool_use".toList, "tool_call".toList, "tool_calls".toList, "toolUse".toList, "toolCall".toList,
        "toolCalls".toList] then some "tool_calls".toList
      else if !reason.isEmpty then some reason
      else if !s.acc.toolCalls.isEmpty then some "tool_calls".toList
      else none
    | none => if !s.acc.toolCalls.isEmpty then some "tool_calls".toList else none
  usage := s.usage

/-- `trim_end_matches(['\r', '\n'])`. -/
def trimLineEnd (line : Text) : Text := (line.reverse.dropWhile fun c => c == '\r' || c == '\n').reverse

/-- The id of the chunks of a unary response. -/
def unaryChunkId : Text := "chatcmpl_unary".toList

/-- The lines of a body. -/
def foldLines (serde : AccumulatorSerde) (model : Text) (created : Nat) (counter : Nat) (s : UnaryAccumulator) :
    List Text → Except CoreError UnaryAccumulator
  | [] => .ok s
  | line :: lines =>
    let trimmed := trimLineEnd line
    if trimmed.isEmpty then foldLines serde model created counter s lines
    else
      match parseGeminiSseLine unaryChunkId trimmed counter with
      | (.error e, _) => .error e
      | (.ok none, counter) => foldLines serde model created counter s lines
      | (.ok (some chunk), counter) =>
        let (s, done) := s.feedChunk serde chunk (intoJsonString unaryChunkId model created chunk)
        if done then .ok s else foldLines serde model created counter s lines

/-- `parse_sse_stream_to_openai_response` for `TargetFormat::Gemini`. -/
def parseSseStreamToOpenaiResponse (serde : AccumulatorSerde) (model : Text) (created : Nat) (bodyStr : Text) :
    Except CoreError FinishResponse :=
  (foldLines serde model created 0 .new (lines bodyStr)).map UnaryAccumulator.finish

/-! ### Streams -/

/-- What the lines carry, up to the end of the stream. -/
def documents : List Text → Option (List GeminiSseProbe)
  | [] => some []
  | line :: lines =>
    match parseSseDataOrDone line with
    | .done => some []
    | .skip => documents lines
    | .payload payload =>
      ((read payload).bind GeminiSseProbe.decode).bind fun probe => (documents lines).map (probe :: ·)

/-- The reason of the first candidate. -/
def GeminiSseProbe.reason (probe : GeminiSseProbe) : Option Text :=
  (extractGeminiCandidates probe).head?.bind (·.finishReason)

/-- The calls of the first candidate. -/
def GeminiSseProbe.functionCalls (probe : GeminiSseProbe) : List GeminiFunctionCallProbe :=
  (extractGeminiParts (extractGeminiCandidates probe)).2.2

/-- The message of the first candidate, with the reason in its place. -/
def GeminiSseProbe.message (probe : GeminiSseProbe) (reason : Text) : Text :=
  ((extractGeminiCandidates probe).head?.bind (·.finishMessage)).getD reason

/-- The text is one of an object. -/
def IsObjectText (t : Text) : Prop := ∃ fields, read t = some (object fields)

/-- A body of documents in which one reason comes, behind all calls, and the arguments are objects or absent. -/
structure IsStream (bodyStr : Text) (before : List GeminiSseProbe) (last : GeminiSseProbe)
    (after : List GeminiSseProbe) (reason : Text) : Prop where
  documents : documents (lines bodyStr) = some (before ++ last :: after)
  reason : last.reason = some reason
  unfinished : ∀ probe ∈ before ++ after, probe.reason = none
  finished : ∀ probe ∈ after, probe.functionCalls = []
  args : ∀ probe ∈ before ++ last :: after, ∀ fc ∈ probe.functionCalls,
    fc.args = none ∨ ∃ fields, fc.args = some (object fields)

/-- The calls that the client is sent are numbered and have objects, and the stream ends as the unary response. -/
structure EndsAsFolded (serde : AccumulatorSerde) (chunkId model : Text) (created : Nat) (bodyStr : Text) : Prop where
  indices : ∃ n, ((sentChunks chunkId 0 (lines bodyStr)).flatMap (·.deltaToolCalls)).map (·.index) =
    (List.range n).map some
  arguments : ∀ chunk ∈ sentChunks chunkId 0 (lines bodyStr), ∀ call ∈ chunk.deltaToolCalls, IsObjectText call.arguments
  finish : ∃ response, parseSseStreamToOpenaiResponse serde model created bodyStr = .ok response ∧
    response.finishReason = lastFinishReason (sentChunks chunkId 0 (lines bodyStr))

/-- The reason of the last chunk is the one that a chunk with calls has, or no chunk with calls came before. -/
def KeepsReason (before : List GeminiSseProbe) (last : GeminiSseProbe) (reason : Text) : Prop :=
  (∀ probe ∈ before, probe.functionCalls = []) ∨ reason ∈ malformedReasons ∨
    (last.functionCalls ≠ [] ∧
      reason ∉ ["MAX_TOKENS".toList, "SAFETY".toList, "RECITATION".toList, "BLOCKLIST".toList])

/-- If a call has to be made up, what stands behind `call:` from the first brace on is the text of an object. -/
def HasReadableCall (last : GeminiSseProbe) (reason : Text) : Prop :=
  reason ∈ malformedReasons → last.functionCalls = [] → ∀ idx braceIdx,
    find (last.message reason) "call:".toList = some idx →
    find ((last.message reason).drop (idx + 5)) ['\x7b'] = some braceIdx →
    IsObjectText (((last.message reason).drop (idx + 5)).drop braceIdx)

/-! ### The chunks of the documents -/

/-- The calls of a document. -/
def GeminiSseProbe.calls (chunkId : Text) (counter : Nat) (probe : GeminiSseProbe) : List ToolCallDelta :=
  deltaToolCalls chunkId counter (extractGeminiCandidates probe)

/-- The chunks that are sent for the documents. -/
def chunksOf (chunkId : Text) (counter : Nat) : List GeminiSseProbe → List UpstreamSseChunk
  | [] => []
  | probe :: probes =>
    let chunk := geminiChunk chunkId counter probe
    let rest := chunksOf chunkId (counter + (probe.calls chunkId counter).length) probes
    if isLiveness chunk then rest else chunk :: rest

section

variable (chunkId : Text) (counter : Nat) (probe : GeminiSseProbe)

theorem calls_length_pos_iff : 0 < (probe.calls chunkId counter).length ↔
    probe.functionCalls ≠ [] ∨ ∃ reason ∈ malformedReasons, probe.reason = some reason := by
  unfold GeminiSseProbe.calls deltaToolCalls GeminiSseProbe.functionCalls GeminiSseProbe.reason
  cases hcalls : (extractGeminiParts (extractGeminiCandidates probe)).2.2 with
  | cons fc fcs => simp [toolCalls]
  | nil =>
    cases hfirst : (extractGeminiCandidates probe).head? with
    | none => simp [malformedToolCall]
    | some candidate =>
      cases hreason : candidate.finishReason with
      | none => simp [malformedToolCall, hreason]
      | some reason =>
        by_cases hmem : reason ∈ malformedReasons <;> simp [malformedToolCall, hreason, hmem]

/-- The finish reason of the chunk of a document. -/
def GeminiSseProbe.finishReason (probe : GeminiSseProbe) : Option Text :=
  chunkFinishReason probe.reason !(probe.calls [] 0).isEmpty

theorem isEmpty_calls : (probe.calls chunkId counter).isEmpty = (probe.calls [] 0).isEmpty := by
  have hpos : ∀ calls : List ToolCallDelta, calls.isEmpty = !decide (0 < calls.length) := by
    intro calls
    cases calls <;> simp
  rw [hpos, hpos, decide_eq_decide.mpr]
  rw [calls_length_pos_iff, calls_length_pos_iff]

/-- A chunk without a payload has no reason, no calls and no more. -/
theorem geminiChunk_eq : geminiChunk chunkId counter probe = .liveness ∧ probe.finishReason = none ∧
      probe.calls chunkId counter = [] ∨
    ∃ content usage deltaReasoning hasContent, geminiChunk chunkId counter probe =
      ⟨some ⟨{ content := content, reasoningContent := deltaReasoning, toolCalls := probe.calls chunkId counter },
        probe.finishReason⟩, false, usage, probe.finishReason, deltaReasoning, probe.calls chunkId counter,
        hasContent⟩ := by
  have hreason : chunkFinishReason ((extractGeminiCandidates probe).head?.bind (·.finishReason))
      (!(deltaToolCalls chunkId counter (extractGeminiCandidates probe)).isEmpty) = probe.finishReason := by
    have hempty := isEmpty_calls chunkId counter probe
    unfold GeminiSseProbe.calls at hempty
    rw [hempty]
    rfl
  unfold geminiChunk
  dsimp only
  rw [hreason]
  split
  · rename_i hnothing
    simp only [Bool.and_eq_true, Bool.not_eq_true', Bool.or_eq_false_iff, Option.isNone_iff_eq_none] at hnothing
    obtain ⟨⟨⟨_, hcalls⟩, hfinish⟩, _⟩ := hnothing
    left
    exact ⟨rfl, hfinish, by simpa [GeminiSseProbe.calls] using hcalls⟩
  · right
    exact ⟨_, _, _, _, rfl⟩

end

/-! ### Reading the lines -/

theorem trimLineEnd_trimLineEnd (line : Text) : trimLineEnd (trimLineEnd line) = trimLineEnd line := by
  rw [trimLineEnd, trimLineEnd, List.reverse_reverse, List.dropWhile_idempotent]

/-- A line is read as it is without its end. -/
theorem parseSseDataOrDone_trimLineEnd (line : Text) :
    parseSseDataOrDone (trimLineEnd line) = parseSseDataOrDone line := by
  have hline : parseSseDataLine (trimLineEnd line) = parseSseDataLine line := by
    have htrim := trimLineEnd_trimLineEnd line
    unfold trimLineEnd at htrim
    unfold parseSseDataLine trimLineEnd
    rw [htrim]
  rw [parseSseDataOrDone, parseSseDataOrDone, hline]

theorem parseSseDataOrDone_nil {line : Text} (h : (trimLineEnd line).isEmpty) : parseSseDataOrDone line = .skip := by
  rw [← parseSseDataOrDone_trimLineEnd, List.isEmpty_iff.mp h]
  rfl

/-- A line is skipped, ends the stream or carries a document. -/
theorem documents_cons {line : Text} {lines : List Text} {probes : List GeminiSseProbe}
    (h : documents (line :: lines) = some probes) :
    parseSseDataOrDone line = .done ∧ probes = [] ∨
    parseSseDataOrDone line = .skip ∧ documents lines = some probes ∨
    ∃ payload probe rest, parseSseDataOrDone line = .payload payload ∧
      (read payload).bind GeminiSseProbe.decode = some probe ∧ documents lines = some rest ∧ probes = probe :: rest := by
  unfold documents at h
  cases hparse : parseSseDataOrDone line with
  | done =>
    rw [hparse] at h
    cases h
    exact Or.inl ⟨rfl, rfl⟩
  | skip =>
    rw [hparse] at h
    exact Or.inr (Or.inl ⟨rfl, h⟩)
  | payload payload =>
    rw [hparse] at h
    dsimp only at h
    rw [Option.bind_eq_some_iff] at h
    obtain ⟨probe, hprobe, h⟩ := h
    obtain ⟨rest, hrest, rfl⟩ := Option.map_eq_some_iff.mp h
    exact Or.inr (Or.inr ⟨payload, probe, rest, rfl, hprobe, hrest, rfl⟩)

theorem done_geminiChunk (chunkId : Text) (counter : Nat) (probe : GeminiSseProbe) :
    (geminiChunk chunkId counter probe).done = false := by
  rcases geminiChunk_eq chunkId counter probe with ⟨heq, _⟩ | ⟨content, usage, reasoning, hasContent, heq⟩ <;> rw [heq]
  rfl

theorem sentChunks_eq (chunkId : Text) {lines : List Text} (counter : Nat) {probes : List GeminiSseProbe}
    (h : documents lines = some probes) : sentChunks chunkId counter lines = chunksOf chunkId counter probes := by
  induction lines generalizing counter probes with
  | nil =>
    cases h
    rfl
  | cons line lines ih =>
    rw [sentChunks, parseGeminiSseLine]
    rcases documents_cons h with ⟨hparse, rfl⟩ | ⟨hparse, hrest⟩ | ⟨payload, probe, rest, hparse, hprobe, hrest, rfl⟩
    · rw [hparse]
      rfl
    · rw [hparse]
      exact ih counter hrest
    · have hnext := ih (counter + (probe.calls chunkId counter).length) hrest
      rw [hparse]
      dsimp only
      rw [hprobe]
      dsimp only
      rw [done_geminiChunk, if_neg Bool.false_ne_true, chunksOf]
      dsimp only [GeminiSseProbe.calls] at hnext ⊢
      rw [hnext]

/-- The first finish reason is kept. -/
theorem stopReason_feedChunk (serde : AccumulatorSerde) (s : UnaryAccumulator) (chunkId : Text) (counter : Nat)
    (probe : GeminiSseProbe) (jsonStr : Text) :
    (s.feedChunk serde (geminiChunk chunkId counter probe) jsonStr).1.stopReason = s.stopReason.or probe.finishReason ∧
      (s.feedChunk serde (geminiChunk chunkId counter probe) jsonStr).2 = false := by
  rcases geminiChunk_eq chunkId counter probe with ⟨heq, hfinish, _⟩ | ⟨content, usage, reasoning, hasContent, heq⟩
  · rw [heq, hfinish, Option.or_none]
    exact ⟨rfl, rfl⟩
  · rw [heq]
    refine ⟨?_, rfl⟩
    cases hstop : s.stopReason <;> cases hfinish : probe.finishReason <;> cases usage <;> cases reasoning <;>
      simp [UnaryAccumulator.feedChunk, isLiveness, UnaryAccumulator.setStopReason, UnaryAccumulator.setUsage, hstop]

theorem foldLines_eq (serde : AccumulatorSerde) (model : Text) (created : Nat) {lines : List Text} (counter : Nat)
    (s : UnaryAccumulator) {probes : List GeminiSseProbe} (h : documents lines = some probes) :
    ∃ s', foldLines serde model created counter s lines = .ok s' ∧
      s'.stopReason = s.stopReason.or (probes.filterMap (·.finishReason)).head? := by
  induction lines generalizing counter s probes with
  | nil =>
    cases h
    exact ⟨s, rfl, by simp⟩
  | cons line lines ih =>
    rw [foldLines]
    dsimp only
    by_cases hempty : (trimLineEnd line).isEmpty
    · rw [if_pos hempty]
      have hskip := parseSseDataOrDone_nil hempty
      rw [documents, hskip] at h
      exact ih counter s h
    · rw [if_neg hempty, parseGeminiSseLine, parseSseDataOrDone_trimLineEnd]
      rcases documents_cons h with ⟨hparse, rfl⟩ | ⟨hparse, hrest⟩ | ⟨payload, probe, rest, hparse, hprobe, hrest, rfl⟩
      · rw [hparse]
        exact ⟨_, rfl, by simp [UnaryAccumulator.feedChunk, isLiveness, doneChunk]⟩
      · rw [hparse]
        exact ih counter s hrest
      · rw [hparse]
        dsimp only
        rw [hprobe]
        dsimp only
        have hfeed := stopReason_feedChunk serde s unaryChunkId counter probe
          (intoJsonString unaryChunkId model created (geminiChunk unaryChunkId counter probe))
        obtain ⟨s', hfold, hstop⟩ := ih (counter + (deltaToolCalls unaryChunkId counter
          (extractGeminiCandidates probe)).length) (s.feedChunk serde (geminiChunk unaryChunkId counter probe)
          (intoJsonString unaryChunkId model created (geminiChunk unaryChunkId counter probe))).1 hrest
        refine ⟨s', ?_, ?_⟩
        · rw [hfeed.2]
          exact hfold
        · rw [hstop, hfeed.1]
          cases hfinish : probe.finishReason <;> cases s.stopReason <;> simp [hfinish]

/-! ### Indices, arguments and reasons -/

theorem index_toolCalls (chunkId : Text) (counter : Nat) (fcs : List GeminiFunctionCallProbe) :
    (toolCalls chunkId counter fcs).map (·.index) =
      (List.range' counter (toolCalls chunkId counter fcs).length).map some := by
  induction fcs generalizing counter with
  | nil => rfl
  | cons fc fcs ih => simp [toolCalls, List.range'_succ, ih]

theorem index_calls (chunkId : Text) (counter : Nat) (probe : GeminiSseProbe) :
    (probe.calls chunkId counter).map (·.index) =
      (List.range' counter (probe.calls chunkId counter).length).map some := by
  unfold GeminiSseProbe.calls deltaToolCalls
  dsimp only
  split
  · unfold malformedToolCall
    split
    · rfl
    · split
      · rfl
      · split <;> rfl
  · exact index_toolCalls chunkId counter _

theorem index_chunksOf (chunkId : Text) (counter : Nat) (probes : List GeminiSseProbe) :
    ∃ n, ((chunksOf chunkId counter probes).flatMap (·.deltaToolCalls)).map (·.index) =
      (List.range' counter n).map some := by
  induction probes generalizing counter with
  | nil => exact ⟨0, rfl⟩
  | cons probe probes ih =>
    obtain ⟨n, hrest⟩ := ih (counter + (probe.calls chunkId counter).length)
    rw [chunksOf]
    rcases geminiChunk_eq chunkId counter probe with ⟨heq, _, hcalls⟩ | ⟨content, usage, reasoning, hasContent, heq⟩
    · rw [hcalls] at hrest
      refine ⟨n, ?_⟩
      rw [heq, hcalls]
      exact hrest
    · refine ⟨(probe.calls chunkId counter).length + n, ?_⟩
      rw [heq]
      show (List.flatMap (·.deltaToolCalls) (_ :: chunksOf chunkId _ probes)).map (·.index) = _
      rw [List.flatMap_cons, List.map_append, hrest, index_calls, ← List.map_append, List.range'_append_1]

theorem arguments_toolCalls (chunkId : Text) (counter : Nat) (fcs : List GeminiFunctionCallProbe) :
    (toolCalls chunkId counter fcs).map (·.arguments) = fcs.map (·.arguments) := by
  induction fcs generalizing counter with
  | nil => rfl
  | cons fc fcs ih => simp [toolCalls, ih]

/-- The arguments of the calls of a document. -/
def GeminiSseProbe.arguments (probe : GeminiSseProbe) : List Text := (probe.calls [] 0).map (·.arguments)

theorem arguments_calls (chunkId : Text) (counter : Nat) (probe : GeminiSseProbe) :
    (probe.calls chunkId counter).map (·.arguments) = probe.arguments := by
  unfold GeminiSseProbe.arguments GeminiSseProbe.calls deltaToolCalls
  dsimp only
  split
  · unfold malformedToolCall
    split
    · rfl
    · split
      · rfl
      · split <;> rfl
  · rw [arguments_toolCalls, arguments_toolCalls]

/-- The arguments that are sent are those of the documents. -/
theorem arguments_chunksOf (chunkId : Text) (counter : Nat) (probes : List GeminiSseProbe) :
    (chunksOf chunkId counter probes).flatMap (fun chunk => chunk.deltaToolCalls.map (·.arguments)) =
      probes.flatMap (·.arguments) := by
  induction probes generalizing counter with
  | nil => rfl
  | cons probe probes ih =>
    have hcalls := arguments_calls chunkId counter probe
    rw [chunksOf, List.flatMap_cons, ← hcalls]
    rcases geminiChunk_eq chunkId counter probe with ⟨heq, _, hnone⟩ | ⟨content, usage, reasoning, hasContent, heq⟩
    · rw [heq, hnone]
      exact ih _
    · rw [heq, ← ih (counter + (probe.calls chunkId counter).length)]
      rfl

/-- The reasons that are sent are those of the documents. -/
theorem finishReason_chunksOf (chunkId : Text) (counter : Nat) (probes : List GeminiSseProbe) :
    lastFinishReason (chunksOf chunkId counter probes) = (probes.filterMap (·.finishReason)).getLast? := by
  unfold lastFinishReason
  congr 1
  induction probes generalizing counter with
  | nil => rfl
  | cons probe probes ih =>
    rw [chunksOf]
    rcases geminiChunk_eq chunkId counter probe with ⟨heq, hfinish, _⟩ | ⟨content, usage, reasoning, hasContent, heq⟩
    · rw [heq, List.filterMap_cons, hfinish]
      exact ih _
    · rw [heq]
      show List.filterMap (fun chunk : UpstreamSseChunk => chunk.payload.bind (·.finishReason)) (_ :: _) = _
      rw [List.filterMap_cons, List.filterMap_cons, ih]
      rfl

/-! ### The end of a stream -/

theorem finishReason_of_unfinished {probe : GeminiSseProbe} (h : probe.reason = none) :
    probe.finishReason = if probe.functionCalls = [] then none else some "tool_calls".toList := by
  have hpos := calls_length_pos_iff [] 0 probe
  unfold GeminiSseProbe.finishReason chunkFinishReason
  rw [h] at hpos ⊢
  by_cases hcalls : probe.functionCalls = []
  · have hnone : probe.calls [] 0 = [] := by
      rw [← List.length_eq_zero_iff]
      simp [hcalls] at hpos
      simp [hpos]
    rw [if_pos hcalls, hnone]
    rfl
  · have hsome : (probe.calls [] 0).isEmpty = false := by
      rw [List.isEmpty_eq_false_iff, ← List.length_pos_iff, hpos]
      exact Or.inl hcalls
    rw [if_neg hcalls, hsome]
    rfl

/-- The reason of the last chunk is one of four, and it is `tool_calls` for two kinds of chunks. -/
theorem finishReason_of_reason {probe : GeminiSseProbe} {reason : Text} (h : probe.reason = some reason) :
    ∃ finish ∈ ["stop".toList, "length".toList, "content_filter".toList, "tool_calls".toList],
      probe.finishReason = some finish ∧
      (finish = "tool_calls".toList ↔ reason ∈ malformedReasons ∨ (probe.functionCalls ≠ [] ∧
        reason ∉ ["MAX_TOKENS".toList, "SAFETY".toList, "RECITATION".toList, "BLOCKLIST".toList])) := by
  have hcalls : (!(probe.calls [] 0).isEmpty) = true ↔ probe.functionCalls ≠ [] ∨ reason ∈ malformedReasons := by
    have hpos := calls_length_pos_iff [] 0 probe
    rw [List.length_pos_iff, h] at hpos
    rw [Bool.not_eq_true', List.isEmpty_eq_false_iff, hpos]
    simp
  unfold GeminiSseProbe.finishReason chunkFinishReason
  rw [h, Option.map_some]
  generalize (!(probe.calls [] 0).isEmpty) = hasCalls at hcalls ⊢
  by_cases hmalformed : reason ∈ malformedReasons
  · have hmapped : mapGeminiFinishReason reason = "tool_calls".toList := by
      unfold malformedReasons at hmalformed
      simp only [List.mem_cons, List.not_mem_nil, or_false] at hmalformed
      rcases hmalformed with rfl | rfl <;> rfl
    refine ⟨"tool_calls".toList, by decide, ?_, iff_of_true rfl (Or.inl hmalformed)⟩
    rw [hmapped]
    cases hasCalls <;> rfl
  · by_cases hother : reason ∈ ["MAX_TOKENS".toList, "SAFETY".toList, "RECITATION".toList, "BLOCKLIST".toList]
    · have hmapped : mapGeminiFinishReason reason = "length".toList ∨
          mapGeminiFinishReason reason = "content_filter".toList := by
        simp only [List.mem_cons, List.not_mem_nil, or_false] at hother
        rcases hother with rfl | rfl | rfl | rfl
        · exact Or.inl rfl
        · exact Or.inr rfl
        · exact Or.inr rfl
        · exact Or.inr rfl
      have hneither : ¬ (reason ∈ malformedReasons ∨ (probe.functionCalls ≠ [] ∧
          reason ∉ ["MAX_TOKENS".toList, "SAFETY".toList, "RECITATION".toList, "BLOCKLIST".toList])) := by
        rintro (h | ⟨_, h⟩)
        · exact hmalformed h
        · exact h hother
      refine ⟨mapGeminiFinishReason reason, ?_, ?_, iff_of_false ?_ hneither⟩
      · rcases hmapped with hmapped | hmapped <;> rw [hmapped] <;> decide
      · rcases hmapped with hmapped | hmapped <;> rw [hmapped] <;> cases hasCalls <;> rfl
      · rcases hmapped with hmapped | hmapped <;> rw [hmapped] <;> decide
    · have hmapped : mapGeminiFinishReason reason = "stop".toList := by
        have hmax : reason ≠ "MAX_TOKENS".toList := by
          rintro rfl
          exact hother List.mem_cons_self
        have hcontent : reason ∉ ["SAFETY".toList, "RECITATION".toList, "BLOCKLIST".toList] :=
          fun h => hother (List.mem_cons_of_mem _ h)
        unfold malformedReasons at hmalformed
        unfold mapGeminiFinishReason
        rw [if_neg hmax, if_neg hcontent, if_neg hmalformed, ite_self]
      rw [hmapped]
      cases hasCalls with
      | false =>
        refine ⟨"stop".toList, by decide, rfl, iff_of_false (by decide) ?_⟩
        rintro (hmem | ⟨hcall, _⟩)
        · exact hmalformed hmem
        · exact Bool.false_ne_true (hcalls.mpr (Or.inl hcall))
      | true =>
        have hsome := (hcalls.mp rfl).resolve_right hmalformed
        exact ⟨"tool_calls".toList, by decide, rfl, iff_of_true rfl (Or.inr ⟨hsome, hother⟩)⟩

/-- The unary response has the first reason, and the client sees the last one. -/
theorem finish_iff {before after : List GeminiSseProbe} {last : GeminiSseProbe} {reason : Text}
    (hreason : last.reason = some reason) (hunfinished : ∀ probe ∈ before ++ after, probe.reason = none)
    (hfinished : ∀ probe ∈ after, probe.functionCalls = []) (s : UnaryAccumulator)
    (hs : s.stopReason = ((before ++ last :: after).filterMap (·.finishReason)).head?) :
    s.finish.finishReason = ((before ++ last :: after).filterMap (·.finishReason)).getLast? ↔
      KeepsReason before last reason := by
  obtain ⟨finish, hmem, hfinish, htool⟩ := finishReason_of_reason hreason
  have hafter : after.filterMap (·.finishReason) = [] := by
    rw [List.filterMap_eq_nil_iff]
    intro probe hprobe
    rw [finishReason_of_unfinished (hunfinished probe (List.mem_append_right _ hprobe)), if_pos (hfinished probe hprobe)]
  have hlast : ((before ++ last :: after).filterMap (·.finishReason)).getLast? = some finish := by
    rw [List.filterMap_append, List.filterMap_cons, hfinish, hafter]
    simp
  have hkept : ∀ r, s.stopReason = some r →
      r ∈ ["stop".toList, "length".toList, "content_filter".toList, "tool_calls".toList] →
        s.finish.finishReason = some r := by
    intro r hr hmem
    simp only [List.mem_cons, List.not_mem_nil, or_false] at hmem
    unfold UnaryAccumulator.finish
    rw [hr]
    rcases hmem with rfl | rfl | rfl | rfl <;> rfl
  rw [hlast]
  by_cases hbefore : ∀ probe ∈ before, probe.functionCalls = []
  · have hnone : before.filterMap (·.finishReason) = [] := by
      rw [List.filterMap_eq_nil_iff]
      intro probe hprobe
      rw [finishReason_of_unfinished (hunfinished probe (List.mem_append_left _ hprobe)), if_pos (hbefore probe hprobe)]
    have hstop : s.stopReason = some finish := by
      rw [hs, List.filterMap_append, hnone, List.filterMap_cons, hfinish]
      rfl
    exact iff_of_true (hkept finish hstop hmem) (Or.inl hbefore)
  · -- a chunk with calls came before, and its reason is the one that is kept
    have hall : ∀ r ∈ before.filterMap (·.finishReason), r = "tool_calls".toList := by
      intro r hr
      obtain ⟨probe, hprobe, hpr⟩ := List.mem_filterMap.mp hr
      rw [finishReason_of_unfinished (hunfinished probe (List.mem_append_left _ hprobe))] at hpr
      split at hpr
      · cases hpr
      · exact (Option.some.inj hpr).symm
    push Not at hbefore
    obtain ⟨probe, hprobe, hcalls⟩ := hbefore
    have hin : "tool_calls".toList ∈ before.filterMap (·.finishReason) := by
      rw [List.mem_filterMap]
      refine ⟨probe, hprobe, ?_⟩
      rw [finishReason_of_unfinished (hunfinished probe (List.mem_append_left _ hprobe)), if_neg hcalls]
    have hstop : s.stopReason = some "tool_calls".toList := by
      rw [hs, List.filterMap_append]
      cases hreasons : before.filterMap (·.finishReason) with
      | nil =>
        rw [hreasons] at hin
        cases hin
      | cons r rs =>
        rw [hall r (by rw [hreasons]; exact List.mem_cons_self)]
        rfl
    have hkeeps : KeepsReason before last reason ↔ finish = "tool_calls".toList := by
      rw [htool, KeepsReason]
      refine or_iff_right fun hnone => hcalls (hnone probe hprobe)
    rw [hkept _ hstop (by decide), hkeeps, Option.some_inj]
    exact eq_comm

/-! ### The arguments of a stream -/

theorem isObjectText_arguments {fc : GeminiFunctionCallProbe}
    (h : fc.args = none ∨ ∃ fields, fc.args = some (object fields)) : IsObjectText fc.arguments := by
  rcases h with h | ⟨fields, h⟩
  · refine ⟨[], ?_⟩
    rw [GeminiFunctionCallProbe.arguments, h]
    exact read_write (object [])
  · refine ⟨fields, ?_⟩
    rw [GeminiFunctionCallProbe.arguments, h]
    exact read_write (object fields)

/-- The made up call has an object unless the message has another text behind a brace. -/
theorem isObjectText_malformedCall (reason finishMsg : Text) : IsObjectText (malformedCall reason finishMsg).2 ↔
    ∀ idx braceIdx, find finishMsg "call:".toList = some idx →
      find (finishMsg.drop (idx + 5)) ['\x7b'] = some braceIdx →
      IsObjectText ((finishMsg.drop (idx + 5)).drop braceIdx) := by
  have hunknown : IsObjectText
      (write (object [("error".toList, string reason), ("message".toList, string finishMsg)])) := ⟨_, read_write _⟩
  unfold malformedCall
  dsimp only
  cases hcall : find finishMsg "call:".toList with
  | none => simpa using hunknown
  | some idx =>
    dsimp only
    cases hbrace : find (finishMsg.drop (idx + 5)) ['\x7b'] with
    | none =>
      refine iff_of_true hunknown ?_
      intro idx' braceIdx' hidx hbrace'
      cases hidx
      rw [hbrace] at hbrace'
      cases hbrace'
    | some braceIdx =>
      constructor
      · intro h idx' braceIdx' hidx hbrace'
        cases hidx
        rw [hbrace] at hbrace'
        cases hbrace'
        exact h
      · intro h
        exact h idx braceIdx rfl hbrace

/-- The calls of a document have objects, up to one that is made up. -/
theorem isObjectText_of_probe {probe : GeminiSseProbe}
    (hargs : ∀ fc ∈ probe.functionCalls, fc.args = none ∨ ∃ fields, fc.args = some (object fields)) :
    (∀ t ∈ probe.arguments, IsObjectText t) ↔ ∀ reason, probe.reason = some reason → HasReadableCall probe reason := by
  unfold GeminiSseProbe.arguments GeminiSseProbe.calls deltaToolCalls
  dsimp only
  cases hcalls : probe.functionCalls with
  | cons fc fcs =>
    have hne : probe.functionCalls ≠ [] := by simp [hcalls]
    refine iff_of_true ?_ fun reason _ _ hnone => absurd hnone hne
    rw [show (extractGeminiParts (extractGeminiCandidates probe)).2.2 = fc :: fcs from hcalls, if_neg (by simp),
      arguments_toolCalls]
    intro t ht
    obtain ⟨call, hcall, rfl⟩ := List.mem_map.mp ht
    rw [hcalls] at hargs
    exact isObjectText_arguments (hargs call hcall)
  | nil =>
    rw [show (extractGeminiParts (extractGeminiCandidates probe)).2.2 = [] from hcalls, if_pos List.isEmpty_nil]
    unfold GeminiSseProbe.reason HasReadableCall GeminiSseProbe.message
    cases hfirst : (extractGeminiCandidates probe).head? with
    | none => simp [malformedToolCall]
    | some candidate =>
      cases hreason : candidate.finishReason with
      | none => simp [malformedToolCall, hreason]
      | some reason =>
        rw [malformedToolCall]
        dsimp only [Option.bind_some]
        rw [hreason]
        dsimp only
        by_cases hmem : reason ∈ malformedReasons
        · rw [if_pos hmem, List.map_singleton, List.forall_mem_singleton, isObjectText_malformedCall]
          constructor
          · intro h reason' heq _ _
            cases heq
            exact h
          · intro h
            exact h reason rfl hmem hcalls
        · rw [if_neg hmem]
          refine iff_of_true (by simp) ?_
          intro reason' heq hmem'
          cases heq
          exact absurd hmem' hmem

/-! ### Streams end as they are folded -/

/-- A stream ends as its unary response if the reason of the last chunk is the one of a chunk with calls, or no chunk with
calls came before, and if the message of a call that is made up has an object. -/
theorem endsAsFolded_iff (serde : AccumulatorSerde) (chunkId model : Text) (created : Nat) {bodyStr : Text}
    {before after : List GeminiSseProbe} {last : GeminiSseProbe} {reason : Text}
    (h : IsStream bodyStr before last after reason) :
    EndsAsFolded serde chunkId model created bodyStr ↔ KeepsReason before last reason ∧ HasReadableCall last reason := by
  have hsent := sentChunks_eq chunkId 0 h.documents
  obtain ⟨s, hfold, hstop⟩ := foldLines_eq serde model created 0 .new h.documents
  have hresponse : parseSseStreamToOpenaiResponse serde model created bodyStr = .ok s.finish := by
    rw [parseSseStreamToOpenaiResponse, hfold]
    rfl
  have hfinish := finish_iff h.reason h.unfinished h.finished s hstop
  have harguments : (∀ chunk ∈ sentChunks chunkId 0 (lines bodyStr), ∀ call ∈ chunk.deltaToolCalls,
      IsObjectText call.arguments) ↔ HasReadableCall last reason := by
    have hprobes : (∀ t ∈ (before ++ last :: after).flatMap (·.arguments), IsObjectText t) ↔
        HasReadableCall last reason := by
      rw [List.forall_mem_flatMap]
      constructor
      · intro hall
        have hlast := hall last (by simp)
        rw [isObjectText_of_probe (h.args last (by simp))] at hlast
        exact hlast reason h.reason
      · intro hreadable probe hprobe
        rw [isObjectText_of_probe (h.args probe hprobe)]
        intro reason' hreason'
        rw [List.mem_append, List.mem_cons] at hprobe
        rcases hprobe with hprobe | rfl | hprobe
        · rw [h.unfinished probe (List.mem_append_left _ hprobe)] at hreason'
          cases hreason'
        · rw [h.reason] at hreason'
          cases hreason'
          exact hreadable
        · rw [h.unfinished probe (List.mem_append_right _ hprobe)] at hreason'
          cases hreason'
    rw [← hprobes, ← arguments_chunksOf chunkId 0, hsent, List.forall_mem_flatMap]
    simp only [List.forall_mem_map]
  constructor
  · rintro ⟨_, hargs, response, hok, hlast⟩
    refine ⟨?_, harguments.mp hargs⟩
    rw [hresponse] at hok
    cases hok
    rw [hsent, finishReason_chunksOf] at hlast
    exact hfinish.mp hlast
  · rintro ⟨hkeeps, hreadable⟩
    refine ⟨?_, harguments.mpr hreadable, s.finish, hresponse, ?_⟩
    · obtain ⟨n, hindex⟩ := index_chunksOf chunkId 0 (before ++ last :: after)
      exact ⟨n, by rw [hsent, hindex, List.range_eq_range']⟩
    · rw [hsent, finishReason_chunksOf]
      exact hfinish.mpr hkeeps

/-- A document with one candidate. -/
private def document (content : Option (List GeminiPartProbe)) (reason message : Option Text) : GeminiSseProbe :=
  ⟨[⟨content, reason, message⟩], none, none⟩

private def callPart (args : Option Json) : GeminiPartProbe := ⟨none, none, some ⟨some ['f'], args, none⟩⟩

/-- A call and the end of the stream in one chunk. -/
def callWithStop : Text :=
  ("data: \x7b\"candidates\":[\x7b\"content\":\x7b\"parts\":[" ++
    "\x7b\"functionCall\":\x7b\"name\":\"f\",\"args\":\x7b\x7d\x7d\x7d]\x7d," ++
    "\"finishReason\":\"STOP\"\x7d]\x7d\n").toList

theorem callWithStop_endsAsFolded : EndsAsFolded (fun _ => none) [] [] 0 callWithStop := by
  let last := document (some [callPart (some (object []))]) (some "STOP".toList) none
  have hargs : ∀ probe ∈ [last], ∀ fc ∈ probe.functionCalls, fc.args = some (object []) := by decide +kernel
  have hstream : IsStream callWithStop [] last [] "STOP".toList :=
    ⟨by decide +kernel, rfl, by decide +kernel, by decide +kernel,
      fun probe hprobe fc hfc => Or.inr ⟨[], hargs probe hprobe fc hfc⟩⟩
  exact (endsAsFolded_iff (fun _ => none) [] [] 0 hstream).mpr
    ⟨Or.inl (by decide +kernel), fun hmem => absurd hmem (by decide)⟩

/-- A call, and then the end of the stream in a chunk of its own. -/
def callThenStop : Text :=
  ("data: \x7b\"candidates\":[\x7b\"content\":\x7b\"parts\":[\x7b\"functionCall\":\x7b\"name\":\"f\"\x7d\x7d]\x7d\x7d]\x7d\n" ++
    "data: \x7b\"candidates\":[\x7b\"finishReason\":\"STOP\"\x7d]\x7d\n").toList

/-- A call that Gemini gave up, with arguments that are no document. -/
def malformed : Text :=
  ("data: \x7b\"candidates\":[\x7b\"finishReason\":\"MALFORMED_FUNCTION_CALL\"," ++
    "\"finishMessage\":\"Malformed function call: call:terminal\x7bcommand:\\\"ls\\\"\x7d\"\x7d]\x7d\n").toList

/-- The client is told `stop` where the unary response has `tool_calls`, and it is sent arguments that are no object. -/
theorem not_endsAsFolded :
    (∃ before last after reason, IsStream callThenStop before last after reason ∧
      ¬ EndsAsFolded (fun _ => none) [] [] 0 callThenStop) ∧
    ∃ before last after reason, IsStream malformed before last after reason ∧
      ¬ EndsAsFolded (fun _ => none) [] [] 0 malformed := by
  constructor
  · let first := document (some [callPart none]) none none
    let last := document none (some "STOP".toList) none
    have hargs : ∀ probe ∈ [first, last], ∀ fc ∈ probe.functionCalls, fc.args = none := by decide +kernel
    have hstream : IsStream callThenStop [first] last [] "STOP".toList :=
      ⟨by decide +kernel, rfl, by decide +kernel, by decide +kernel,
        fun probe hprobe fc hfc => Or.inl (hargs probe hprobe fc hfc)⟩
    refine ⟨_, _, _, _, hstream, ?_⟩
    rintro ⟨_, _, response, hok, hfinish⟩
    obtain ⟨s, hfold, hstop⟩ := foldLines_eq (fun _ => none) [] 0 0 .new hstream.documents
    rw [parseSseStreamToOpenaiResponse, hfold] at hok
    cases hok
    rw [sentChunks_eq [] 0 hstream.documents, finishReason_chunksOf,
      finish_iff hstream.reason hstream.unfinished hstream.finished s hstop] at hfinish
    rcases hfinish with hcalls | hmem | ⟨hcalls, _⟩
    · exact absurd hcalls (by decide +kernel)
    · exact absurd hmem (by decide)
    · exact hcalls rfl
  · let last := document none (some "MALFORMED_FUNCTION_CALL".toList)
      (some "Malformed function call: call:terminal\x7bcommand:\"ls\"\x7d".toList)
    have hargs : ∀ probe ∈ [last], ∀ fc ∈ probe.functionCalls, fc.args = none := by decide +kernel
    have hstream : IsStream malformed [] last [] "MALFORMED_FUNCTION_CALL".toList :=
      ⟨by decide +kernel, rfl, by decide +kernel, by decide +kernel,
        fun probe hprobe fc hfc => Or.inl (hargs probe hprobe fc hfc)⟩
    refine ⟨_, _, _, _, hstream, ?_⟩
    rintro ⟨_, harguments, _⟩
    rw [sentChunks_eq [] 0 hstream.documents] at harguments
    have hsent : ∃ chunk ∈ chunksOf [] 0 [last], ∃ call ∈ chunk.deltaToolCalls,
        call.arguments = "\x7bcommand:\"ls\"\x7d".toList := by decide +kernel
    obtain ⟨chunk, hchunk, call, hcall, heq⟩ := hsent
    obtain ⟨fields, hread⟩ := harguments chunk hchunk call hcall
    have hnone : read "\x7bcommand:\"ls\"\x7d".toList = none := by decide +kernel
    rw [heq, hnone] at hread
    cases hread

end OpenProxy.Upstream.Gemini
