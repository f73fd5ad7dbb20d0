import OpenProxy.Streaming.Sanitizer
import OpenProxy.Upstream.InlineErrors
import OpenProxy.Upstream.Openai

/-!
# The processor of chunks

The model of `streaming_state/processor.rs`, `openai.rs` and `translated.rs`.  A chunk of the upstream goes through the
normalizer and the restoration stage and may be sanitized before it is sent; at the end of the stream what the two stages
still hold is sent.  A step of the processor gives the frames that the client is sent.  An error of the upstream inside the
stream ends it: nothing more is sent.
-/

namespace OpenProxy.Streaming

open Json Inline Pii

/-- What is sent to the client: the payload of a frame, or the end of the stream. -/
inductive Frame
  | data (payload : Text)
  | done
  deriving DecidableEq, Repr

/-- The settings of a stream. -/
structure StreamContext where
  chars : CharTables
  parsers : ToolParsers
  sanitizeResponse : Bool
  modelOverride : Text

/-- `StreamingState`, with the stages that a chunk goes through. -/
structure StreamingState where
  normalizer : ReasoningNormalizer
  piiStage : Option PiiRestorationStage
  doneSent : Bool
  /-- The error of the upstream with which the processor has returned. -/
  failed : Option Upstream.ParsedInlineError

namespace StreamingState

variable (ctx : StreamContext)

/-- `normalizer.process_chunk`. -/
def normalize (s : StreamingState) (payload : Text) : Streaming.StreamAction × StreamingState :=
  let (action, normalizer) := s.normalizer.processChunk ctx.parsers payload
  (action, { s with normalizer })

/-- `pii_stage.process_chunk`. -/
def restore (s : StreamingState) (payload : Text) : Streaming.StreamAction × StreamingState :=
  match s.piiStage with
  | none => (.passthrough, s)
  | some stage =>
    let (action, stage) := restorePayload ctx.chars stage payload
    (action, { s with piiStage := some stage })

/-- The payload of an action that changes it, or the payload that it was. -/
def effectivePayload (payload : Text) : Streaming.StreamAction → Text
  | .mutate payload' => payload'
  | _ => payload

/-- `deliver_payload_through_pii`. -/
def deliverPayloadThroughPii (s : StreamingState) (payload : Text) : List Frame × StreamingState :=
  let (piiAction, s) := s.restore ctx payload
  let finalPayload := effectivePayload payload piiAction
  if ctx.sanitizeResponse then
    match sanitizeStreamingChunk finalPayload ctx.modelOverride with
    | some sanitized => ([.data sanitized], s)
    | none => ([], s)
  else ([.data finalPayload], s)

/-! ### The end of the stream -/

/-- The frame of what the normalizer holds. -/
def finalizeNormalizer (s : StreamingState) : List Frame × StreamingState :=
  let (residual, normalizer) := s.normalizer.finalize ctx.parsers
  ((residual.map Frame.data).toList, { s with normalizer })

/-- `finish_chat_stream`. -/
def finishChatStream (s : StreamingState) : List Frame × StreamingState :=
  match s.piiStage with
  | none => ([.done], { s with doneSent := true })
  | some stage =>
    let (residual, stage) := stage.finalize ctx.chars
    ((residual.map fun r => Frame.data (residualPayload r)).toList ++ [.done],
      { s with piiStage := some stage, doneSent := true })

/-- `handle_done_sentinel`. -/
def handleDoneSentinel (s : StreamingState) : List Frame × StreamingState :=
  let (residual, s) := s.finalizeNormalizer ctx
  let (frames, s) := s.finishChatStream ctx
  (residual ++ frames, s)

/-! ### Lines of an OpenAI upstream -/

/-- What follows the colon after a name. -/
def afterColon (rest : Text) : Option Text :=
  match rest.dropWhile isAsciiWhitespace with
  | ':' :: rest => some (rest.dropWhile isAsciiWhitespace)
  | _ => none

/-- `check_finish_reason_non_null`. -/
def checkFinishReasonNonNull (payload : Text) : Bool :=
  match (find payload "\"finish_reason\"".toList).bind fun idx => afterColon (payload.drop (idx + 15)) with
  | none => false
  | some value =>
    !value.isEmpty && !("null".toList.isPrefixOf value &&
      (value.drop 4).head?.all fun c => [',', '\x7d', ']', ' ', '\t', '\r', '\n'].contains c)

/-- `check_usage_present`. -/
def checkUsagePresent (payload : Text) : Bool :=
  match (find payload "\"usage\"".toList).bind fun idx => afterColon (payload.drop (idx + 7)) with
  | none => false
  | some value => value.head? == some '\x7b'

/-- `sse_payload_needs_parse`. -/
def ssePayloadNeedsParse (payload : Text) : Bool := checkUsagePresent payload || checkFinishReasonNonNull payload

/-- The payload of a data line. -/
def jsonPayload (line : Text) : Option Text :=
  (stripPrefix "data:".toList line).map fun rest =>
    ((rest.dropWhile (· == ' ')).reverse.dropWhile fun c => c == '\r' || c == '\n' || c == ' ').reverse

/-- `process_openai_metadata_chunk`. -/
def processOpenaiMetadataChunk (s : StreamingState) (line payload : Text) : List Frame × StreamingState :=
  match Upstream.Openai.parseOpenaiSseLine line with
  | .ok (some _) =>
    let (normAction, s) := s.normalize ctx payload
    if normAction = .skip then ([], s)
    else s.deliverPayloadThroughPii ctx (effectivePayload payload normAction)
  | _ => ([], s)

/-- `process_openai_content_chunk`, with `prepare_content_chunk_bytes`. -/
def processOpenaiContentChunk (s : StreamingState) (payload : Text) : List Frame × StreamingState :=
  let (normAction, s) := s.normalize ctx payload
  if normAction = .skip then ([], s)
  else
    let normalizedPayload := effectivePayload payload normAction
    let (piiAction, s) := s.restore ctx normalizedPayload
    if piiAction = .skip then ([], s) else ([.data (effectivePayload normalizedPayload piiAction)], s)

/-- What `process_openai_format` does with the payload of a line. -/
def processOpenaiPayload (s : StreamingState) (line payload : Text) : List Frame × StreamingState :=
  if payload = "[DONE]".toList then s.handleDoneSentinel ctx
  else
    -- `check_and_handle_inline_upstream_error`
    match Upstream.parseInlineSseError payload with
    | some parsed => ([], { s with failed := some parsed })
    | none =>
      if ssePayloadNeedsParse payload || ctx.sanitizeResponse then s.processOpenaiMetadataChunk ctx line payload
      else s.processOpenaiContentChunk ctx payload

/-- `process_openai_format`. -/
def processOpenaiFormat (s : StreamingState) (line : Text) : List Frame × StreamingState :=
  match jsonPayload line with
  | none => ([], s)
  | some payload => s.processOpenaiPayload ctx line payload

/-! ### Chunks of a translated upstream -/

/-- A chunk that the parser of another format makes: its payload, and the usage of the stream if it is the last one. -/
inductive TranslatedChunk
  | chunk (payload : Json)
  | done (payload : Json) (usage : Option Json)

/-- The payload of the last chunk with the usage of the stream. -/
def forwardUsage (payload : Json) (usage : Option Json) : Json :=
  match payload, usage with
  | object obj, some u =>
    if (getField obj "usage".toList).isSome then object obj else object (insertField "usage".toList u obj)
  | payload, _ => payload

/-- `handle_translated_done`. -/
def handleTranslatedDone (s : StreamingState) (payload : Json) (usage : Option Json) : List Frame × StreamingState :=
  let (residual, s) := s.finalizeNormalizer ctx
  let jsonStr := write (forwardUsage payload usage)
  let (normAction, s) := s.normalize ctx jsonStr
  let (delivered, s) :=
    if isNull payload then ([], s) else s.deliverPayloadThroughPii ctx (effectivePayload jsonStr normAction)
  let (frames, s) := s.finishChatStream ctx
  (residual ++ delivered ++ frames, s)

/-- `handle_translated_chunk`; a chunk without a payload is a sign of life. -/
def handleTranslatedChunk (s : StreamingState) (payload : Json) : List Frame × StreamingState :=
  if isNull payload then ([], s)
  else
    let jsonStr := write payload
    let (normAction, s) := s.normalize ctx jsonStr
    if normAction = .skip then ([], s) else s.deliverPayloadThroughPii ctx (effectivePayload jsonStr normAction)

/-! ### The stream -/

/-- What comes of the upstream: a line in the OpenAI format, or a chunk of a translated one. -/
inductive UpstreamEvent
  | openai (line : Text)
  | translated (chunk : TranslatedChunk)

/-- `process_chunk` of the interceptor, which is not called again after an error. -/
def processChunk (s : StreamingState) (event : UpstreamEvent) : StreamingState × List Frame :=
  if s.doneSent || s.failed.isSome then (s, [])
  else
    match event with
    | .openai line => (s.processOpenaiFormat ctx line).swap
    | .translated (.chunk payload) => (s.handleTranslatedChunk ctx payload).swap
    | .translated (.done payload usage) => (s.handleTranslatedDone ctx payload usage).swap

end StreamingState

end OpenProxy.Streaming
