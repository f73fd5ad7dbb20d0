import OpenProxy.Streaming.Chunk

/-!
# Inline tool calls: the stream extractor

The model of `inline_tools/stream.rs`.  A model that writes its tool calls into the content of its chunks is read by
`InlineToolStreamExtractor`: it holds back the text from an opening tag to the closing tag, and a tail that may be the
beginning of a tag, and puts the calls of a block into the `tool_calls` of the chunk.  The two syntaxes of the blocks are
parameters, of which the code relies on the contract of `InlineToolParser`.
-/

namespace OpenProxy.Inline

open Json Streaming

/-- `ParsedToolCall`. -/
structure ParsedToolCall where
  id : Text
  name : Text
  arguments : Text
  deriving DecidableEq, Repr

/-- `InlineToolParser`: a parser gives at least one call, or nothing. -/
structure InlineToolParser where
  parseBlock : Text → Option (List ParsedToolCall)
  nonempty : ∀ block calls, parseBlock block = some calls → calls ≠ []

/-! ### Tags -/

/-- The tags that open a block, with the tags that close it. -/
def toolTagCandidates : List (Text × Text) :=
  [("<tool_call".toList, "</tool_call>".toList),
    ("<tool_calls".toList, "</tool_calls>".toList),
    ("<function_calls".toList, "</function_calls>".toList),
    ("<tools".toList, "</tools>".toList),
    ("<tool".toList, "</tool>".toList),
    ("<｜｜DSML｜｜ calls>".toList, "</｜｜DSML｜｜ calls>".toList),
    ("<｜｜DSML｜｜ calls".toList, "</｜｜DSML｜｜ calls>".toList),
    ("<｜DSML｜ calls>".toList, "</｜DSML｜ calls>".toList),
    ("<｜DSML｜ calls".toList, "</｜DSML｜ calls>".toList),
    ("<｜｜DSML｜｜ invoke".toList, "</｜｜DSML｜｜ invoke>".toList),
    ("<｜DSML｜ invoke".toList, "</｜DSML｜ invoke>".toList),
    ("<invoke".toList, "</invoke>".toList),
    ("<function_call".toList, "</function_call>".toList),
    ("<function".toList, "</function>".toList),
    ("<call".toList, "</call>".toList),
    ("<action".toList, "</action>".toList)]

/-- The marker that opens a JSON block without tags. -/
def toolCallsMarker : Text := "[TOOL_CALLS]".toList

def maxToolBufferBytes : Nat := 262144

/-- `str::rfind` of a character. -/
def rfind (c : Char) (s : Text) : Option Nat := (s.reverse.findIdx? (· == c)).map fun n => s.length - 1 - n

/-- What may follow the name of a tag. -/
def isBoundary : Option Char → Bool
  | none => true
  | some c => isAsciiWhitespace c || c == '>' || c == '/' || c == '='

/-- The first occurrence of an opening tag at which its name ends. -/
def findTag (input openTag : Text) : Option Nat :=
  firstAt (fun s => startsWithIgnoreAsciiCase s openTag && isBoundary (s.drop openTag.length).head?) input

/-- The range of an opening tag that ends with `>`. -/
def candidateTag (input : Text) (tags : Text × Text) : Option (Nat × Nat × Text) :=
  (findTag input tags.1).bind fun pos =>
    (find (input.drop pos) ['>']).map fun tagEnd => (pos, pos + tagEnd + 1, tags.2)

/-- A tag that comes before all those found so far. -/
def earlierTag (earliest : Option (Nat × Nat × Text)) (hit : Option (Nat × Nat × Text)) : Option (Nat × Nat × Text) :=
  match earliest, hit with
  | some e, some h => if h.1 < e.1 then some h else some e
  | none, hit => hit
  | earliest, none => earliest

/-- `find_earliest_tool_tag`: the range of the first opening tag, with its closing tag. -/
def findEarliestToolTag (input : Text) : Option (Nat × Nat × Text) :=
  let marker := (findIgnoreAsciiCase input toolCallsMarker).map fun pos => (pos, pos + toolCallsMarker.length, [']'])
  (toolTagCandidates.map (candidateTag input)).foldl earlierTag marker

/-- The end of the first of the closing tags. -/
def findAlternative (buffer : Text) (alternatives : List Text) : Option Nat :=
  alternatives.findSome? fun alt => (findIgnoreAsciiCase buffer alt).map (· + alt.length)

/-- `find_close_tag_in_buffer`: the end of the closing tag. -/
def findCloseTagInBuffer (buffer expectedClose : Text) : Option Nat :=
  if expectedClose = [']'] then
    match rfind ']' buffer with
    | some pos => some (pos + 1)
    | none => (rfind '\x7d' buffer).map (· + 1)
  else
    match findIgnoreAsciiCase buffer expectedClose with
    | some pos => some (pos + expectedClose.length)
    | none =>
      let calls := if (find expectedClose "calls>".toList).isSome then
          findAlternative buffer
            ["</｜｜DSML｜｜ calls>".toList, "</｜DSML｜ calls>".toList, "</calls>".toList]
        else none
      let invoke := if (find expectedClose "invoke>".toList).isSome then
          findAlternative buffer
            ["</｜｜DSML｜｜ invoke>".toList, "</｜DSML｜ invoke>".toList, "</invoke>".toList]
        else none
      calls.or invoke

/-- The test of `extract_trailing_partial_tag_prefix` for a tail and an opening tag. -/
def matchesTag (suffix openTag : Text) : Bool :=
  (lower suffix).isPrefixOf (lower openTag) ||
    (lower openTag).isPrefixOf (lower suffix) &&
      (suffix.drop openTag.length).head?.all fun c => isAsciiWhitespace c || c == '/' || c == '>'

/-- The test of `extract_trailing_partial_tag_prefix` for a tail. -/
def matchesPrefix (suffix : Text) : Bool :=
  toolTagCandidates.any (fun tags => matchesTag suffix tags.1) ||
    (lower suffix).isPrefixOf (lower toolCallsMarker) || (lower toolCallsMarker).isPrefixOf (lower suffix)

/-- The later of two offsets. -/
def laterOf : Option Nat → Option Nat → Option Nat
  | some a, some b => some (max a b)
  | some a, none => some a
  | none, b => b

/-- `extract_trailing_partial_tag_prefix`: the text, and the tail of it that may become a tag. -/
def extractTrailingPartialTagPrefix (s : Text) : Text × Text :=
  match laterOf (rfind '<' s) (rfind '[' s) with
  | none => (s, [])
  | some start =>
    let suffix := s.drop start
    if !suffix.contains '>' && !suffix.contains ']' && utf8Len suffix ≤ 1024 && matchesPrefix suffix then
      (s.take start, suffix)
    else (s, [])

/-- `append_clean_text`. -/
def appendCleanText (clean part : Text) : Text :=
  if clean.getLast?.any isWhitespace && part.head?.any isWhitespace then clean ++ trimStart part else clean ++ part

/-- An opening tag that closes itself. -/
def isSelfClosing (openTag : Text) : Bool := (trimEnd (openTag.take (openTag.length - 1))).getLast? == some '/'

/-! ### Blocks -/

/-- `strip_tool_call_tags`. -/
def stripToolCallTags (s : Text) : Text :=
  let trimmed := trim s
  let trimmed := if findIgnoreAsciiCase trimmed toolCallsMarker = some 0 then
      trim (trimmed.drop toolCallsMarker.length)
    else trimmed
  let trimmed := (toolTagCandidates.findSome? fun tags =>
    if findIgnoreAsciiCase trimmed tags.1 = some 0 then (find trimmed ['>']).map fun pos => trim (trimmed.drop (pos + 1))
    else none).getD trimmed
  (toolTagCandidates.findSome? fun tags =>
    (findIgnoreAsciiCase trimmed tags.2).map fun pos => trim (trimmed.take pos)).getD trimmed

/-- The two syntaxes of blocks, `MiniMaxXmlParser` and `HermesJsonParser`. -/
structure ToolParsers where
  xml : InlineToolParser
  json : InlineToolParser

/-- `parse_tool_block`. -/
def ToolParsers.parseToolBlock (p : ToolParsers) (block : Text) : Option (List ParsedToolCall) :=
  let trimmed := trim block
  if trimmed.isEmpty then none
  else match p.xml.parseBlock trimmed with
    | some calls => some calls
    | none => p.json.parseBlock (stripToolCallTags trimmed)

/-! ### The extractor -/

/-- `InlineToolStreamExtractor`. -/
structure InlineToolStreamExtractor where
  insideToolCall : Bool
  expectedCloseTag : Option Text
  toolBuffer : Text
  partialTagBuffer : Text
  emittedToolCall : Bool
  toolCallIndex : Nat
  deriving DecidableEq, Repr

namespace InlineToolStreamExtractor

def new : InlineToolStreamExtractor := ⟨false, none, [], [], false, 0⟩

/-- The value of a call in `tool_calls`. -/
def toolCallValue (index : Nat) (call : ParsedToolCall) : Json :=
  object [(Key.function, object [(Key.arguments, string call.arguments), (Key.name, string call.name)]),
    (Key.id, string call.id), (Key.index, number (.ofNat index)), (Key.type, string "function".toList)]

/-- `build_tool_calls_value`. -/
def buildToolCallsValue (x : InlineToolStreamExtractor) (calls : List ParsedToolCall) :
    List Json × InlineToolStreamExtractor :=
  (calls.zipIdx.map fun call => toolCallValue (x.toolCallIndex + call.2) call.1,
    { x with toolCallIndex := x.toolCallIndex + calls.length })

/-- What reading a content leaves: the calls and the text of the chunk, and the state. -/
structure Scanned where
  calls : List ParsedToolCall
  cleanText : Text
  extractor : InlineToolStreamExtractor

/-- A block goes into the calls, or into the text if it has none. -/
def Scanned.addBlock (p : ToolParsers) (append : Text → Text → Text) (r : Scanned) (block : Text) : Scanned :=
  match p.parseToolBlock block with
  | some calls =>
    { r with calls := r.calls ++ calls, extractor := { r.extractor with emittedToolCall := true } }
  | none => { r with cleanText := append r.cleanText block }

/-- Text that belongs to no block. -/
def Scanned.addText (r : Scanned) (part : Text) : Scanned :=
  if part.isEmpty then r else { r with cleanText := appendCleanText r.cleanText part }

/-- The loop over the text outside the blocks.  Every round reads at least a tag, so the length bounds the rounds. -/
def scan (p : ToolParsers) : Nat → Scanned → Text → Scanned
  | 0, r, _ => r
  | fuel + 1, r, slice =>
    if slice.isEmpty then r
    else match findEarliestToolTag slice with
      | some (openStart, openEnd, closeTag) =>
        let r := r.addText (slice.take openStart)
        let openTag := (slice.take openEnd).drop openStart
        if isSelfClosing openTag then scan p fuel (r.addBlock p appendCleanText openTag) (slice.drop openEnd)
        else match findCloseTagInBuffer (slice.drop openEnd) closeTag with
          | some closePos =>
            let block := (slice.take (openEnd + closePos)).drop openStart
            scan p fuel (r.addBlock p appendCleanText block) (slice.drop (openEnd + closePos))
          | none =>
            { r with extractor := { r.extractor with
                insideToolCall := true
                expectedCloseTag := some closeTag
                toolBuffer := r.extractor.toolBuffer ++ slice.drop openStart } }
      | none =>
        let (safe, tail) := extractTrailingPartialTagPrefix slice
        let r := r.addText safe
        if tail.isEmpty then r else { r with extractor := { r.extractor with partialTagBuffer := tail } }

/-- The text outside the blocks after the block that a content continues.  `none` is the early return of a content
that does not complete it. -/
def processContent (p : ToolParsers) (x : InlineToolStreamExtractor) (content : Text) :
    Option Scanned × InlineToolStreamExtractor :=
  let fullContent := x.partialTagBuffer ++ content
  let x := { x with partialTagBuffer := [] }
  if x.insideToolCall then
    let buffer := x.toolBuffer ++ fullContent
    let closed := { x with toolBuffer := [], insideToolCall := false, expectedCloseTag := none }
    if maxToolBufferBytes < utf8Len buffer then
      (some ⟨[], buffer, closed⟩, closed)
    else match findCloseTagInBuffer buffer (x.expectedCloseTag.getD "</tool_call>".toList) with
      | some closePos =>
        let r := Scanned.addBlock p (· ++ ·) ⟨[], [], closed⟩ (buffer.take closePos)
        let rest := buffer.drop closePos
        let r := scan p (rest.length + 1) r rest
        (some r, r.extractor)
      | none => (none, { x with toolBuffer := buffer })
  else
    let r := scan p (fullContent.length + 1) ⟨[], [], x⟩ fullContent
    (some r, r.extractor)

/-- `"finish_reason"` with the values that the fast path replaces, as they are written in a payload. -/
def finishTargets : List (Text × Text) :=
  [("\"finish_reason\":\"stop\"".toList, "\"finish_reason\":\"tool_calls\"".toList),
    ("\"finish_reason\": \"stop\"".toList, "\"finish_reason\": \"tool_calls\"".toList),
    ("\"finish_reason\":\"end_turn\"".toList, "\"finish_reason\":\"tool_calls\"".toList),
    ("\"finish_reason\": \"end_turn\"".toList, "\"finish_reason\": \"tool_calls\"".toList)]

/-- The payload with the first of the targets replaced. -/
def replaceFinish (payload : Text) : Option Text :=
  finishTargets.findSome? fun target =>
    (find payload target.1).map fun pos => payload.take pos ++ target.2 ++ payload.drop (pos + target.1.length)

/-- The chunk of a content that has been read. -/
def rewriteChunk (x : InlineToolStreamExtractor) (isStop : Bool) (chunkVal choice delta : Json) (contentVal : Text)
    (r : Scanned) : StreamAction × InlineToolStreamExtractor :=
  let withDelta (delta : Json) := setField Key.delta delta choice
  if !r.calls.isEmpty then
    let (tcArray, x) := x.buildToolCallsValue r.calls
    let trimmedClean := trim r.cleanText
    let delta := match delta with
      | object fields =>
        let fields := if trimmedClean.isEmpty then removeField Key.content fields
          else insertField Key.content (string trimmedClean) fields
        object (insertField Key.toolCalls (array tcArray) fields)
      | delta => delta
    let choice := withDelta delta
    let choice := if (choice.get Key.finishReason).isSome then
        setField Key.finishReason (string "tool_calls".toList) choice
      else choice
    (.mutate (write (setFirstChoice choice chunkVal)), x)
  else if x.insideToolCall || !x.partialTagBuffer.isEmpty then
    if r.cleanText.isEmpty then (.skip, x)
    else (.mutate (write (setFirstChoice (withDelta (setField Key.content (string r.cleanText) delta)) chunkVal)), x)
  else if isStop && x.emittedToolCall then
    (.mutate (write (setFirstChoice (setField Key.finishReason (string "tool_calls".toList) choice) chunkVal)), x)
  else if r.cleanText != contentVal then
    (.mutate (write (setFirstChoice (withDelta (setField Key.content (string r.cleanText) delta)) chunkVal)), x)
  else (.passthrough, x)

/-- The finish reason is one that ends the message. -/
def isStop (chunkVal : Json) : Bool :=
  (((firstChoice chunkVal).bind (·.get Key.finishReason)).bind asStr).any fun reason =>
    reason == "stop".toList || reason == "end_turn".toList

/-- The content of the first choice. -/
def contentDelta (chunkVal : Json) : Option Text :=
  (((firstChoice chunkVal).bind (·.get Key.delta)).bind (·.get Key.content)).bind asStr

/-- `process_chunk` of a payload that has been read. -/
def processValue (p : ToolParsers) (x : InlineToolStreamExtractor) (chunkVal : Json) :
    StreamAction × InlineToolStreamExtractor :=
  match firstChoice chunkVal with
  | none => (.passthrough, x)
  | some choice =>
    if isStop chunkVal && x.emittedToolCall && (contentDelta chunkVal).isNone then
      (.mutate (write (setFirstChoice (setField Key.finishReason (string "tool_calls".toList) choice) chunkVal)), x)
    else match choice.get Key.delta with
      | none => (.passthrough, x)
      | some delta =>
        match (delta.get Key.content).bind asStr with
        | none => (.passthrough, x)
        | some contentVal =>
          match x.processContent p contentVal with
          | (none, x) => (.skip, x)
          | (some r, x) => x.rewriteChunk (isStop chunkVal) chunkVal choice delta contentVal r

/-- `process_chunk`. -/
def processChunk (p : ToolParsers) (x : InlineToolStreamExtractor) (payload : Text) :
    StreamAction × InlineToolStreamExtractor :=
  if !x.insideToolCall && x.toolBuffer.isEmpty && x.partialTagBuffer.isEmpty && !payload.contains '<' &&
      (find payload toolCallsMarker).isNone then
    match if x.emittedToolCall then replaceFinish payload else none with
    | some res => (.mutate res, x)
    | none => (.passthrough, x)
  else match fromStr payload with
    | none => (.passthrough, x)
    | some chunkVal => x.processValue p chunkVal

/-- The chunk that `finalize` makes. -/
def finalChunk (delta : List (Text × Json)) (finishReason : Json) : Json :=
  object [(Key.choices, array [object [(Key.delta, object delta), (Key.finishReason, finishReason),
    (Key.index, number (.ofNat 0))]])]

/-- The text that is held back. -/
def residual (x : InlineToolStreamExtractor) : Text := x.partialTagBuffer ++ x.toolBuffer

/-- `finalize`. -/
def finalize (p : ToolParsers) (x : InlineToolStreamExtractor) : Option Text × InlineToolStreamExtractor :=
  let residual := x.residual
  let x := { x with partialTagBuffer := [], toolBuffer := [], insideToolCall := false, expectedCloseTag := none }
  if (trim residual).isEmpty then (none, x)
  else match p.parseToolBlock residual with
    | some calls =>
      let (tcArray, x) := { x with emittedToolCall := true }.buildToolCallsValue calls
      (some (write (finalChunk [(Key.toolCalls, array tcArray)] (string "tool_calls".toList))), x)
    | none => (some (write (finalChunk [(Key.content, string residual)] .null)), x)

end InlineToolStreamExtractor

end OpenProxy.Inline
