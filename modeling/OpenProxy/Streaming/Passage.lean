import OpenProxy.Streaming.Processor

/-!
# The passage of a chunk

What a chunk of the upstream becomes on its way to the client: the normalizer emits a payload for it or holds it back, the
restoration stage restores this payload, and it is sent in a frame, sanitized if the stream is.
-/

namespace OpenProxy.Streaming

open Json Inline Pii

theorem effectivePayload_of_emitted {payload out : Text} {action : Streaming.StreamAction}
    (h : action.emitted payload = some out) : StreamingState.effectivePayload payload action = out ∧ action ≠ .skip := by
  cases action with
  | passthrough =>
    cases h
    exact ⟨rfl, by simp⟩
  | mutate payload' =>
    cases h
    exact ⟨rfl, by simp⟩
  | skip => cases h
  | done => cases h

/-! ### The normalizer -/

namespace ReasoningNormalizer

/-- A chunk is held back, or a payload is emitted for it. -/
theorem processChunk_cases (p : ToolParsers) (s : ReasoningNormalizer) (payload : Text) :
    (s.processChunk p payload).1 = .skip ∨ ∃ out, (s.processChunk p payload).1.emitted payload = some out := by
  have hdone : (s.processChunk p payload).1 ≠ .done := by
    unfold processChunk
    dsimp only
    split
    · simp
    · exact InlineToolStreamExtractor.processChunk_ne_done p _ _
  cases haction : (s.processChunk p payload).1 with
  | passthrough => exact Or.inr ⟨payload, rfl⟩
  | mutate out => exact Or.inr ⟨out, rfl⟩
  | skip => exact Or.inl rfl
  | done => exact absurd haction hdone

end ReasoningNormalizer

namespace StreamingState

variable (ctx : StreamContext)

/-! ### Events -/

/-- The event is the end of an answer. -/
def UpstreamEvent.finishes : UpstreamEvent → Bool
  | .openai line => jsonPayload line == some "[DONE]".toList
  | .translated (.chunk _) => false
  | .translated (.done _ _) => true

/-- The event is an error of the upstream. -/
def UpstreamEvent.fails : UpstreamEvent → Bool
  | .openai line => (jsonPayload line).any fun payload => (Upstream.parseInlineSseError payload).isSome
  | .translated _ => false

/-- The event ends the stream. -/
def UpstreamEvent.endsStream (event : UpstreamEvent) : Bool := event.finishes || event.fails

/-- The stream has not ended. -/
structure Running (s : StreamingState) : Prop where
  notDone : s.doneSent = false
  notFailed : s.failed = none

/-- `parse_openai_sse_line` makes a chunk of the line. -/
def isChunkLine (line : Text) : Bool :=
  match Upstream.Openai.parseOpenaiSseLine line with
  | .ok (some _) => true
  | _ => false

/-- The payload of a chunk that goes through the stages. -/
def UpstreamEvent.payload : UpstreamEvent → Option Text
  | .openai line => (jsonPayload line).filter fun payload =>
      isChunkLine line || !(ssePayloadNeedsParse payload || ctx.sanitizeResponse)
  | .translated (.chunk payload) => if isNull payload then none else some (write payload)
  | .translated (.done _ _) => none

/-- The frames for a payload that has been restored. -/
def sentFrames (payload : Text) : List Frame :=
  if ctx.sanitizeResponse then ((sanitizeStreamingChunk payload ctx.modelOverride).map Frame.data).toList
  else [.data payload]

/-- What the restoration stage makes of a payload. -/
def restored (s : StreamingState) (payload : Text) : Text := effectivePayload payload (s.restore ctx payload).1

/-- The chunk has been normalized. -/
def normalized (s : StreamingState) (payload : Text) : StreamingState :=
  { s with normalizer := (s.normalizer.step ctx.parsers payload).1 }

variable {ctx}

theorem normalize_eq (s : StreamingState) (payload : Text) :
    s.normalize ctx payload = ((s.normalizer.processChunk ctx.parsers payload).1, s.normalized ctx payload) := by
  unfold normalize normalized
  rfl

theorem deliverPayloadThroughPii_eq (s : StreamingState) (payload : Text) :
    s.deliverPayloadThroughPii ctx payload =
      (sentFrames ctx (s.restored ctx payload), (s.restore ctx payload).2) := by
  unfold deliverPayloadThroughPii sentFrames restored
  dsimp only
  split
  · cases sanitizeStreamingChunk (effectivePayload payload (s.restore ctx payload).1) ctx.modelOverride <;> rfl
  · rfl

/-- A line that does not end the stream is neither its end nor an error. -/
theorem of_endsStream_eq_false {line payload : Text} (hends : (UpstreamEvent.openai line).endsStream = false)
    (hpayload : jsonPayload line = some payload) :
    payload ≠ "[DONE]".toList ∧ Upstream.parseInlineSseError payload = none := by
  simpa [UpstreamEvent.endsStream, UpstreamEvent.finishes, UpstreamEvent.fails, hpayload] using hends

/-- The line that is the end of the stream. -/
theorem processOpenaiFormat_done {line : Text} (hline : jsonPayload line = some "[DONE]".toList) (s : StreamingState) :
    s.processOpenaiFormat ctx line = s.handleDoneSentinel ctx := by
  unfold processOpenaiFormat
  rw [hline]
  exact if_pos rfl

/-- A line that does not end the stream is a chunk, for one of two paths. -/
theorem processOpenaiFormat_chunk {line payload : Text} (hends : (UpstreamEvent.openai line).endsStream = false)
    (hpayload : jsonPayload line = some payload) (s : StreamingState) :
    s.processOpenaiFormat ctx line =
      if ssePayloadNeedsParse payload || ctx.sanitizeResponse then s.processOpenaiMetadataChunk ctx line payload
      else s.processOpenaiContentChunk ctx payload := by
  obtain ⟨hdone, hnoError⟩ := of_endsStream_eq_false hends hpayload
  unfold processOpenaiFormat processOpenaiPayload
  simp only [hpayload, if_neg hdone, hnoError]

/-- An event that does not go through the stages is passed over. -/
theorem processChunk_of_none {s : StreamingState} {event : UpstreamEvent} (hends : event.endsStream = false)
    (h : event.payload ctx = none) : s.processChunk ctx event = (s, []) := by
  unfold processChunk
  split
  · rfl
  · cases event with
    | openai line =>
      dsimp only
      cases hpayload : jsonPayload line with
      | none =>
        unfold processOpenaiFormat
        rw [hpayload]
        rfl
      | some payload =>
        rw [processOpenaiFormat_chunk hends hpayload]
        simp only [UpstreamEvent.payload, hpayload, Option.filter_eq_none_iff, Option.some.injEq, forall_eq',
          Bool.or_eq_true, not_or, Bool.not_eq_true, Bool.not_eq_false'] at h
        rw [if_pos (by simpa using h.2)]
        unfold processOpenaiMetadataChunk
        have hline := h.1
        unfold isChunkLine at hline
        split
        · rename_i heq
          rw [heq] at hline
          cases hline
        · rfl
    | translated chunk =>
      cases chunk with
      | chunk payload =>
        simp only [UpstreamEvent.payload, ite_eq_left_iff, reduceCtorEq, imp_false, Bool.not_eq_true,
          Bool.not_eq_false] at h
        simp [handleTranslatedChunk, h]
      | done payload usage => cases hends

/-- The three paths of a chunk are one, if the restoration stage does not hold it back. -/
theorem processChunk_of_payload {s : StreamingState} (hrunning : s.Running) {event : UpstreamEvent}
    (hends : event.endsStream = false) {payload : Text} (h : event.payload ctx = some payload)
    (hskip : ∀ out, (s.normalizer.processChunk ctx.parsers payload).1.emitted payload = some out →
      ((s.normalized ctx payload).restore ctx out).1 ≠ .skip) :
    s.processChunk ctx event =
      if (s.normalizer.processChunk ctx.parsers payload).1 = .skip then (s.normalized ctx payload, [])
      else
        let out := effectivePayload payload (s.normalizer.processChunk ctx.parsers payload).1
        (((s.normalized ctx payload).restore ctx out).2, sentFrames ctx ((s.normalized ctx payload).restored ctx out)) := by
  unfold processChunk
  rw [if_neg (by simp [hrunning.notDone, hrunning.notFailed])]
  cases event with
  | openai line =>
    simp only [UpstreamEvent.payload, Option.filter_eq_some_iff] at h
    obtain ⟨hpayload, haccepted⟩ := h
    simp only [processOpenaiFormat_chunk hends hpayload]
    split
    · rename_i hneeds
      rw [hneeds, Bool.not_true, Bool.or_false] at haccepted
      unfold processOpenaiMetadataChunk
      unfold isChunkLine at haccepted
      split
      · rw [normalize_eq]
        dsimp only
        split
        · rfl
        · rw [deliverPayloadThroughPii_eq]
          rfl
      · rename_i hnot
        split at haccepted
        · rename_i c heq
          exact absurd heq (hnot c)
        · cases haccepted
    · rename_i hneeds
      rw [Bool.not_eq_true, Bool.or_eq_false_iff] at hneeds
      unfold processOpenaiContentChunk
      rw [normalize_eq]
      dsimp only
      split
      · rfl
      · rename_i hnorm
        rcases s.normalizer.processChunk_cases ctx.parsers payload with hcase | ⟨out, hout⟩
        · exact absurd hcase hnorm
        · rw [(effectivePayload_of_emitted hout).1, if_neg (hskip out hout), sentFrames, hneeds.2]
          rfl
  | translated chunk =>
    cases chunk with
    | chunk v =>
      simp only [UpstreamEvent.payload, Option.ite_none_left_eq_some, Option.some.injEq] at h
      obtain ⟨hnull, rfl⟩ := h
      dsimp only
      unfold handleTranslatedChunk
      rw [if_neg hnull]
      dsimp only
      rw [normalize_eq]
      dsimp only
      split
      · rfl
      · rw [deliverPayloadThroughPii_eq]
        rfl
    | done v usage => cases hends

/-! ### The restoration stage and the frame -/

/-- What the restoration stage makes of a document is one too, and the stage goes on to read documents. -/
theorem restore_spec (ctx : StreamContext) {s : StreamingState} {stage : PiiRestorationStage}
    (hstage : s.piiStage = some stage) (hreads : Reads stage) {payload : Text} {v : Json} (h : IsDocument payload v) :
    s.restore ctx payload = ((restorePayload ctx.chars stage payload).1,
        { s with piiStage := some (stage.processChunk ctx.chars parsePayload payload).2 }) ∧
      stage.Keeps (stage.processChunk ctx.chars parsePayload payload).2 ∧ (s.restore ctx payload).1 ≠ .skip ∧
      Readable v (s.restored ctx payload) ∧
      contentsOf (s.restored ctx payload) =
        ((stage.processChunk ctx.chars parsePayload payload).1.choices (parsePayload payload)).flatMap contentText := by
  obtain ⟨hkeeps, out, hout, hreadable, hcontents⟩ := restorePayload_spec ctx.chars hreads h
  obtain ⟨heffective, hskip⟩ := effectivePayload_of_emitted hout
  have hrestore : s.restore ctx payload = ((restorePayload ctx.chars stage payload).1,
      { s with piiStage := some (stage.processChunk ctx.chars parsePayload payload).2 }) := by
    unfold restore
    rw [hstage]
    rfl
  have hrestored : s.restored ctx payload = out := by rw [restored, hrestore, heffective]
  exact ⟨hrestore, hkeeps, by rwa [hrestore], hrestored ▸ hreadable, hrestored ▸ hcontents⟩

end StreamingState

/-- The content that a client reads in a frame. -/
def Frame.content : Frame → Text
  | .data payload => contentsOf payload
  | .done => []

/-- To sanitize a chunk leaves its content alone. -/
theorem contentOf_sanitizeChoice (choice : Json) : ((sanitizeChoice choice).map contentOf).getD [] = contentOf choice := by
  unfold sanitizeChoice
  split
  · rfl
  · rename_i fields hfields
    have hkept : getField (fields.filter fun field => !isReasoningOrInternalKey field.1) Key.content =
        getField fields Key.content :=
      getField_filter (fun _ => rfl) fields
    have hdelta := deltaFields_eq_some hfields
    have hold : contentOf choice = ((getField fields Key.content).bind asStr).getD [] := by
      rw [contentOf, hdelta, Option.bind_some, get_object]
    dsimp only
    split
    · -- a choice that is dropped has no content
      rename_i hdropped
      rw [hkept, Bool.and_eq_true, Bool.not_eq_true', Bool.or_eq_false_iff, Bool.or_eq_false_iff] at hdropped
      rw [hold, Option.isNone_iff_eq_none.mp (Option.isSome_eq_false_iff.mp hdropped.1.1.1)]
      rfl
    · cases choice with
      | object outer =>
        rw [Option.map_some, Option.getD_some, contentOf_setDelta, hkept, hold]
      | null | bool b | number n | string s | array items => cases hdelta

theorem contents_sanitizeStreamingChunk {payload : Text} {v : Json} (h : fromStr payload = some v) (model : Text) :
    ((sanitizeStreamingChunk payload model).map contentsOf).getD [] = contentsOf payload := by
  have hne : Key.systemFingerprint ≠ Key.choices ∧ Key.serviceTier ≠ Key.choices ∧ Key.model ≠ Key.choices := by decide
  have hfilter : ∀ cs : List Json, (cs.filterMap sanitizeChoice).flatMap contentOf = cs.flatMap contentOf := by
    intro cs
    induction cs with
    | nil => rfl
    | cons c cs ih =>
      have hc := contentOf_sanitizeChoice c
      rw [List.filterMap_cons, List.flatMap_cons, ← hc, ← ih]
      cases sanitizeChoice c <;> rfl
  have hbefore := contentsOf_of_fromStr h
  unfold sanitizeStreamingChunk
  rw [h]
  split
  · rename_i obj heq
    cases heq
    have hchoices : choices (object (removeField Key.serviceTier (removeField Key.systemFingerprint
        (insertField Key.model (string model) obj)))) = choices (object obj) := by
      rw [choices_object, choices_object, getField_removeField_of_ne hne.2.1, getField_removeField_of_ne hne.1,
        getField_insertField_of_ne hne.2.2]
    dsimp only
    rw [hchoices]
    split
    · rename_i hnone
      rw [Option.map_some, Option.getD_some, contentsOf_write, hchoices, hbefore]
    · rename_i cs hcs
      rw [hcs, Option.getD_some, ← hfilter] at hbefore
      split
      · rename_i hempty
        rw [Bool.and_eq_true, List.isEmpty_iff (l := cs.filterMap sanitizeChoice)] at hempty
        rw [hbefore, hempty.2]
        rfl
      · rw [Option.map_some, Option.getD_some, contentsOf_write, choices_object, getField_insertField, hbefore]
        rfl
  · rfl

theorem contents_sentFrames (ctx : StreamContext) {payload : Text} {v : Json} (h : fromStr payload = some v) :
    (StreamingState.sentFrames ctx payload).flatMap Frame.content = contentsOf payload := by
  unfold StreamingState.sentFrames
  split
  · rw [← contents_sanitizeStreamingChunk h ctx.modelOverride]
    cases sanitizeStreamingChunk payload ctx.modelOverride <;> simp [Frame.content]
  · simp [Frame.content]

end OpenProxy.Streaming
