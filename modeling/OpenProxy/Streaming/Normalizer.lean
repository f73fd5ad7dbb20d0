import OpenProxy.Inline.Extractor
import OpenProxy.Data.JsonDecode
import OpenProxy.Think.Extractor

/-!
# The reasoning normalizer

The model of `streaming_state/normalizer.rs`: a stage of the chat stream that renames fields of reasoning, moves the
reasoning blocks of the content into `reasoning_content`, turns running totals of tool call arguments into fragments and
hands the chunk to the extractor of inline tool calls.
-/

namespace OpenProxy.Streaming

open Json Inline Think

/-! ### Fields of reasoning with other names -/

/-- `should_check_reasoning_fields`. -/
def shouldCheckReasoningFields (payload : Text) : Bool :=
  (find payload "reasoning".toList).isSome &&
    ((find payload "\"reasoning\":".toList).isSome && (find payload "\"reasoning_content\":".toList).isNone ||
      (find payload "\"reasoning_details\":".toList).isSome)

/-- `convert_reasoning_field`, and whether the field was there. -/
def convertReasoningField (obj : List (Text × Json)) : Bool × List (Text × Json) :=
  match getField obj "reasoning".toList with
  | none => (false, obj)
  | some reasoning =>
    let obj := removeField "reasoning".toList obj
    match reasoning.asStr with
    | some text =>
      if !text.isEmpty && (getField obj Key.reasoningContent).isNone then
        (true, insertField Key.reasoningContent (string text) obj)
      else (true, obj)
    | none => (true, obj)

/-- `merge_reasoning_details`. -/
def mergeReasoningDetails (obj : List (Text × Json)) (details : Json) : List (Text × Json) :=
  match details.asArray with
  | none => obj
  | some arr =>
    let combined := (arr.filterMap fun d => (d.get "text".toList).bind asStr).flatten
    if combined.isEmpty then obj
    else match getField obj Key.reasoningContent with
      | some (string existing) => insertField Key.reasoningContent (string (existing ++ combined)) obj
      | _ => insertField Key.reasoningContent (string combined) obj

/-- `apply_reasoning_normalizations` of `sse_accumulator/parser.rs`. -/
def applyReasoningFields (obj : List (Text × Json)) : List (Text × Json) :=
  let (reasoningWasPresent, obj) := convertReasoningField obj
  match getField obj "reasoning_details".toList with
  | none => obj
  | some details =>
    let obj := removeField "reasoning_details".toList obj
    if reasoningWasPresent then obj else mergeReasoningDetails obj details

/-- `normalize_nonstandard_reasoning_fields`. -/
def normalizeNonstandardReasoningFields (payload : Text) : Option Text :=
  if shouldCheckReasoningFields payload then
    (fromStr payload).bind fun v =>
      (firstChoice v).bind fun choice =>
        (choice.get Key.delta).bind fun delta =>
          delta.asObject.map fun obj =>
            write (setFirstChoice (setField Key.delta (object (applyReasoningFields obj)) choice) v)
  else none

/-! ### Chunks as structures -/

/-- `FastFunction`.  In the structures of this section, `extra` has the fields without a name of their own. -/
structure FastFunction where
  arguments : Option Text
  extra : List (Text × Json)

/-- `FastToolCall`. -/
structure FastToolCall where
  index : Option Nat
  function : Option FastFunction
  extra : List (Text × Json)

/-- `FastDelta`. -/
structure FastDelta where
  content : Option Text
  reasoningContent : Option Text
  toolCalls : Option (List FastToolCall)
  extra : List (Text × Json)

/-- `FastChoice`. -/
structure FastChoice where
  delta : Option FastDelta
  extra : List (Text × Json)

/-- `FastChunk`. -/
structure FastChunk where
  choices : Option (List FastChoice)
  extra : List (Text × Json)

def FastFunction.decode (v : Json) : Option FastFunction := do
  let fields ← v.asObject
  let arguments ← optionalField asStr Key.arguments fields
  return ⟨arguments, extraFields [Key.arguments] fields⟩

def FastToolCall.decode (v : Json) : Option FastToolCall := do
  let fields ← v.asObject
  let index ← optionalField decodeU64 Key.index fields
  let function ← optionalField FastFunction.decode Key.function fields
  return ⟨index, function, extraFields [Key.index, Key.function] fields⟩

def FastDelta.decode (v : Json) : Option FastDelta := do
  let fields ← v.asObject
  let content ← optionalField asStr Key.content fields
  let reasoningContent ← optionalField asStr Key.reasoningContent fields
  let toolCalls ← optionalField (decodeList FastToolCall.decode) Key.toolCalls fields
  return ⟨content, reasoningContent, toolCalls,
    extraFields [Key.content, Key.reasoningContent, Key.toolCalls] fields⟩

def FastChoice.decode (v : Json) : Option FastChoice := do
  let fields ← v.asObject
  let delta ← optionalField FastDelta.decode Key.delta fields
  return ⟨delta, extraFields [Key.delta] fields⟩

/-- `serde_json::from_str::<FastChunk>`. -/
def FastChunk.fromStr (payload : Text) : Option FastChunk := do
  let v ← read payload
  let fields ← (if v.depth ≤ 127 then v.asObject else none)
  let choices ← optionalField (decodeList FastChoice.decode) Key.choices fields
  return ⟨choices, extraFields [Key.choices] fields⟩

/-- A field that is left out if it has no value. -/
def encodeOptional {α : Type} (encode : α → Json) (key : Text) : Option α → List (Text × Json)
  | none => []
  | some a => [(key, encode a)]

def FastFunction.encode (f : FastFunction) : Json :=
  object (encodeOptional string Key.arguments f.arguments ++ f.extra)

def FastToolCall.encode (t : FastToolCall) : Json :=
  object (encodeOptional (fun index => number (.ofNat index)) Key.index t.index ++
    encodeOptional FastFunction.encode Key.function t.function ++ t.extra)

def FastDelta.encode (d : FastDelta) : Json :=
  object (encodeOptional string Key.content d.content ++ encodeOptional string Key.reasoningContent d.reasoningContent ++
    encodeOptional (fun calls => array (calls.map FastToolCall.encode)) Key.toolCalls d.toolCalls ++ d.extra)

def FastChoice.encode (c : FastChoice) : Json := object (encodeOptional FastDelta.encode Key.delta c.delta ++ c.extra)

/-- The fields of `extra` are written in the order of their names here; the code writes them in no order. -/
def FastChunk.encode (c : FastChunk) : Json :=
  object (encodeOptional (fun choices => array (choices.map FastChoice.encode)) Key.choices c.choices ++ c.extra)

/-! ### Payloads inside payloads -/

/-- An optional field of a structure whose other fields are not looked at. -/
def probeField {α : Type} (decode : Json → Option α) (key : Text) (position count : Nat) (v : Json) :
    Option (Option α) := (structMember key position count false v).bind (asOptional decode)

/-- `NestedOpenAiDeltaProbe`. -/
structure NestedOpenAiDeltaProbe where
  content : Option Text
  reasoningContent : Option Text
  reasoning : Option Text

def NestedOpenAiDeltaProbe.decode (v : Json) : Option NestedOpenAiDeltaProbe := do
  let content ← probeField asStr Key.content 0 3 v
  let reasoningContent ← probeField asStr Key.reasoningContent 1 3 v
  let reasoning ← probeField asStr "reasoning".toList 2 3 v
  return ⟨content, reasoningContent, reasoning⟩

/-- `NestedOpenAiChoiceProbe`, which has a delta only. -/
def decodeChoiceProbe (v : Json) : Option (Option NestedOpenAiDeltaProbe) :=
  probeField NestedOpenAiDeltaProbe.decode Key.delta 0 1 v

/-- `NestedOpenAiChunkProbe`. -/
structure NestedOpenAiChunkProbe where
  choices : Option (List (Option NestedOpenAiDeltaProbe))
  response : Option Json

/-- The value of `response` is read; the other fields are skipped, however deep they are. -/
def NestedOpenAiChunkProbe.fromStr (payload : Text) : Option NestedOpenAiChunkProbe := do
  let v ← read payload
  let fields ← v.asObject
  let choices ← optionalField (decodeList decodeChoiceProbe) Key.choices fields
  let response ← optionalField (decodeValue 1) "response".toList fields
  return ⟨choices, response⟩

/-- What a nested frame holds: the content, the reasoning and whether it ends the stream. -/
structure NestedSse where
  content : Option Text
  reasoning : Option Text
  isDone : Bool
  deriving DecidableEq, Repr

/-- The text of a response that is not a chunk. -/
def responseText : Json → Text
  | .string s => s
  | .number n => n.digits
  | .bool true => "true".toList
  | .bool false => "false".toList
  | _ => []

/-- `unwrap_nested_sse_content`. -/
def unwrapNestedSseContent (content : Text) : Option NestedSse :=
  match stripPrefix "data:".toList (trim content) with
  | none => none
  | some rest =>
    let payload := trim rest
    if payload = "[DONE]".toList then some ⟨none, none, true⟩
    else if payload.head? ≠ some '\x7b' then none
    else match NestedOpenAiChunkProbe.fromStr payload with
      | none => none
      | some probe =>
        match probe.choices, probe.response with
        | some (some delta :: _), _ => some ⟨delta.content, delta.reasoningContent.or delta.reasoning, false⟩
        | some _, _ => some ⟨some [], none, false⟩
        | none, some resp => some ⟨some (responseText resp), none, false⟩
        | none, none =>
          if (find payload "\"usage\"".toList).isSome || (find payload "\"object\"".toList).isSome then
            some ⟨some [], none, false⟩
          else none

/-! ### The content of a choice -/

/-- The delta has reasoning of its own. -/
def FastDelta.hasNativeReasoning (d : FastDelta) : Bool :=
  d.reasoningContent.isSome || (getField d.extra Key.reasoningContent).isSome

/-- Reasoning of another source is added only if the delta has none of its own. -/
def FastDelta.withReasoning (d : FastDelta) (reasoning : Text) : FastDelta × Bool :=
  if d.hasNativeReasoning then (d, false) else ({ d with reasoningContent := some reasoning }, true)

/-- `normalize_choice_content`: the delta, whether it was changed, and the extractor. -/
def normalizeChoiceContent (delta : FastDelta) (x : ThinkStreamExtractor) :
    (FastDelta × Bool) × ThinkStreamExtractor :=
  match delta.content with
  | none => ((delta, false), x)
  | some contentCow =>
    let nested := unwrapNestedSseContent contentCow
    let modified := nested.isSome
    if nested.any (·.isDone) then (({ delta with content := some [] }, true), x)
    else
      let targetContent := match nested with
        | some n => n.content
        | none => some contentCow
      let (delta, fromNested) := match nested.bind (·.reasoning) with
        | some r => delta.withReasoning r
        | none => (delta, false)
      match targetContent with
      | none => (({ delta with content := some [] }, modified || fromNested || !contentCow.isEmpty), x)
      | some c =>
        let ((cleanContent, extractedReasoning), x) := x.process c
        let (delta, fromThink) := if extractedReasoning.isEmpty then (delta, false)
          else delta.withReasoning extractedReasoning
        (({ delta with content := some cleanContent },
          modified || fromNested || fromThink || cleanContent != contentCow), x)

/-! ### Tool call arguments -/

def maxToolCallArgsBytes : Nat := 1048576

def maxToolCallIndices : Nat := 256

/-- `ToolCallAccumulator`: the running total of the arguments for each index. -/
abbrev ToolCallAccumulator := List (Nat × Text)

def extractArgumentFragment (prev arguments : Text) : Text :=
  if prev.isEmpty then arguments else (stripPrefix prev arguments).getD arguments

/-- `process`: the fragment to forward. -/
def ToolCallAccumulator.process (acc : ToolCallAccumulator) (index : Nat) (arguments : Text) :
    Text × ToolCallAccumulator :=
  if (acc.lookup index).isNone && maxToolCallIndices ≤ acc.length then ([], acc)
  else
    let prev := (acc.lookup index).getD []
    let fragment := extractArgumentFragment prev arguments
    let others := acc.filter fun entry => entry.1 != index
    if maxToolCallArgsBytes < utf8Len prev + utf8Len fragment then ([], (index, prev) :: others)
    else (fragment, (index, prev ++ fragment) :: others)

/-- One tool call of a delta. -/
def normalizeToolCall (tc : FastToolCall) (acc : ToolCallAccumulator) :
    (FastToolCall × Bool) × ToolCallAccumulator :=
  match tc.function with
  | none => ((tc, false), acc)
  | some func =>
    match func.arguments with
    | none => ((tc, false), acc)
    | some arguments =>
      let (newFragment, acc) := acc.process (tc.index.getD 0) arguments
      if newFragment != arguments then
        (({ tc with function := some { func with arguments := some newFragment } }, true), acc)
      else ((tc, false), acc)

/-- The tool calls of a delta one after the other. -/
def normalizeToolCalls : List FastToolCall → ToolCallAccumulator → (List FastToolCall × Bool) × ToolCallAccumulator
  | [], acc => (([], false), acc)
  | tc :: tcs, acc =>
    let ((tc, modified), acc) := normalizeToolCall tc acc
    let ((tcs, modified'), acc) := normalizeToolCalls tcs acc
    ((tc :: tcs, modified || modified'), acc)

/-- `normalize_choice_tool_calls`. -/
def normalizeChoiceToolCalls (delta : FastDelta) (acc : ToolCallAccumulator) :
    (FastDelta × Bool) × ToolCallAccumulator :=
  match delta.toolCalls with
  | none => ((delta, false), acc)
  | some tcs =>
    let ((tcs, modified), acc) := normalizeToolCalls tcs acc
    (({ delta with toolCalls := some tcs }, modified), acc)

/-! ### The stage -/

/-- `ReasoningNormalizer`. -/
structure ReasoningNormalizer where
  thinkExtractor : ThinkStreamExtractor
  toolCallAcc : ToolCallAccumulator
  inlineToolExtractor : InlineToolStreamExtractor

namespace ReasoningNormalizer

def new : ReasoningNormalizer := ⟨.new, [], .new⟩

/-- `has_active_state_or_tag`. -/
def hasActiveStateOrTag (x : ThinkStreamExtractor) (text : Text) : Bool :=
  x.insideThink || !x.tagBuffer.isEmpty || text.contains '<'

/-- The first choice of a chunk with its content and its tool calls normalized, and whether it was changed. -/
def normalizeChunk (s : ReasoningNormalizer) (fc : FastChunk) : (FastChunk × Bool) × ReasoningNormalizer :=
  match fc.choices with
  | some (choice :: rest) =>
    match choice.delta with
    | some delta =>
      let ((delta, cMod), think) := normalizeChoiceContent delta s.thinkExtractor
      let ((delta, tMod), acc) := normalizeChoiceToolCalls delta s.toolCallAcc
      (({ fc with choices := some ({ choice with delta := some delta } :: rest) }, cMod || tMod),
        { s with thinkExtractor := think, toolCallAcc := acc })
    | none => ((fc, false), s)
  | _ => ((fc, false), s)

/-- `apply_reasoning_normalizations`: the new payload, if there is one. -/
def applyReasoningNormalizations (s : ReasoningNormalizer) (payload : Text) : Option Text × ReasoningNormalizer :=
  let normalized := normalizeNonstandardReasoningFields payload
  let p := normalized.getD payload
  let escaped := p.contains '\\'
  let hasContent := escaped || (find p "\"content\"".toList).isSome
  let hasToolCalls := escaped || (find p "\"tool_calls\"".toList).isSome
  let hasNestedSse := (find p "data:".toList).isSome
  if !hasContent && !hasToolCalls then (normalized, s)
  else if !hasToolCalls &&
      (!hasContent || (!escaped && !hasNestedSse && !hasActiveStateOrTag s.thinkExtractor p)) then (normalized, s)
  else match FastChunk.fromStr p with
    | none => (normalized, s)
    | some fc =>
      let ((fc, modified), s) := s.normalizeChunk fc
      if modified then (some (write fc.encode), s) else (normalized, s)

/-- `process_chunk`. -/
def processChunk (p : ToolParsers) (s : ReasoningNormalizer) (payload : Text) : StreamAction × ReasoningNormalizer :=
  let (normalized, s) := s.applyReasoningNormalizations payload
  let (action, inline) := s.inlineToolExtractor.processChunk p (normalized.getD payload)
  let action := match action, normalized with
    | .passthrough, some payload' => .mutate payload'
    | action, _ => action
  (action, { s with inlineToolExtractor := inline })

/-- `finalize`. -/
def finalize (p : ToolParsers) (s : ReasoningNormalizer) : Option Text × ReasoningNormalizer :=
  match s.inlineToolExtractor.finalize p with
  | (some toolChunk, inline) => (some toolChunk, { s with inlineToolExtractor := inline })
  | (none, inline) =>
    let ((cleanContent, _), think) := s.thinkExtractor.flush
    (if cleanContent.isEmpty then none else some cleanContent,
      { s with inlineToolExtractor := inline, thinkExtractor := think })

end ReasoningNormalizer

end OpenProxy.Streaming
