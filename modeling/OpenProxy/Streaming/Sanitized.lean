import OpenProxy.Streaming.Delivery

/-!
# Sanitized streams

In a stream that is sanitized, every frame of a chunk says nothing of the upstream, and so does the text that the normalizer
holds at the end; but what the restoration stage holds then is sent as it is.  If that is no reasoning, every frame of the
stream is sanitized, and no chunk that has something for the client is lost (`sanitized_stream`).
-/

namespace OpenProxy.Streaming

open Json Inline Pii

/-- A frame that is JSON says nothing of the upstream. -/
def Frame.Clean (model : Text) : Frame → Prop
  | .data payload => ∀ v, read payload = some v → Sanitized model v
  | .done => True

/-- Each choice of the chunk that has something for the client is in a frame. -/
def Reaches (v : Json) (frames : List Frame) : Prop :=
  ∀ choice ∈ (choices v).getD [], isUseful choice = true → ∃ out v', Frame.data out ∈ frames ∧ read out = some v' ∧
    ∃ choice' ∈ (choices v').getD [], choiceIndex choice' = choiceIndex choice ∧ isUseful choice' = true

theorem exists_follows {cs cs' : List Json} (h : List.Forall₂ Follows cs cs') {c : Json} (hc : c ∈ cs) :
    ∃ c' ∈ cs', Follows c c' := by
  induction h with
  | nil => cases hc
  | cons hfollows _ ih =>
    rcases List.mem_cons.mp hc with rfl | hc
    · exact ⟨_, List.mem_cons_self, hfollows⟩
    · obtain ⟨c', hmem, hc'⟩ := ih hc
      exact ⟨c', List.mem_cons_of_mem _ hmem, hc'⟩

/-! ### What the restoration stage holds -/

/-- No reasoning is held back. -/
def HoldsNoReasoning (stage : PiiRestorationStage) : Prop := ∀ e ∈ stage.reasoningReplacers.entries, e.2.pending = []

instance (stage : PiiRestorationStage) : Decidable (HoldsNoReasoning stage) :=
  inferInstanceAs (Decidable (∀ _ ∈ _, _))

theorem holdsNoReasoning_iff {stage : PiiRestorationStage} :
    HoldsNoReasoning stage ↔ ∀ c r, stage.reasoningReplacers.lookup c = some r → r.pending = [] := by
  constructor
  · intro h c r hr
    exact h _ (AList.mem_lookup_iff.mp hr)
  · rintro h ⟨c, r⟩ he
    exact h c r (AList.mem_lookup_iff.mpr he)

theorem reasoningReplacers_processField {u : CharTables} {stage : PiiRestorationStage} {field : Field}
    (hfield : field ≠ .reasoningContent) (choiceIdx : Nat) :
    (stage.processField u field choiceIdx none true).2.reasoningReplacers = stage.reasoningReplacers := by
  unfold PiiRestorationStage.processField
  simp only [↓reduceIte]
  split
  · rfl
  · cases field with
    | reasoningContent => exact absurd rfl hfield
    | content | text => rfl

theorem processField_reasoning {u : CharTables} {stage : PiiRestorationStage} (h : HoldsNoReasoning stage)
    (choiceIdx : Nat) :
    (stage.processField u .reasoningContent choiceIdx none true).1 = none ∧
      HoldsNoReasoning (stage.processField u .reasoningContent choiceIdx none true).2 := by
  rw [holdsNoReasoning_iff] at h
  unfold PiiRestorationStage.processField
  simp only [↓reduceIte]
  split
  · exact ⟨rfl, holdsNoReasoning_iff.mpr h⟩
  · rename_i r hr
    have hpending := h choiceIdx r hr
    rw [StreamingWindowReplacer.flush_of_pending hpending]
    refine ⟨rfl, holdsNoReasoning_iff.mpr fun c r' hr' => ?_⟩
    by_cases hc : c = choiceIdx
    · subst hc
      rw [show (stage.setReplacer .reasoningContent c r).reasoningReplacers = stage.reasoningReplacers.insert c r from rfl,
        AList.lookup_insert, Option.some.injEq] at hr'
      exact hr' ▸ hpending
    · rw [show (stage.setReplacer .reasoningContent choiceIdx r).reasoningReplacers =
        stage.reasoningReplacers.insert choiceIdx r from rfl, AList.lookup_insert_ne hc] at hr'
      exact h c r' hr'

theorem finalizeChoices_reasoning {u : CharTables} {stage : PiiRestorationStage} (h : HoldsNoReasoning stage)
    (choiceIndices : List Nat) :
    ∀ choice ∈ (PiiRestorationStage.finalizeChoices u stage choiceIndices).1, ∀ delta, choice.delta = some delta →
      delta.reasoningContent = none := by
  induction choiceIndices generalizing stage with
  | nil => nofun
  | cons i rest ih =>
    have h₁ : HoldsNoReasoning (stage.processField u .content i none true).2 := by
      rw [HoldsNoReasoning, reasoningReplacers_processField (by simp)]
      exact h
    obtain ⟨hnone, h₂⟩ := processField_reasoning (u := u) h₁ i
    have h₃ : HoldsNoReasoning (((stage.processField u .content i none true).2.processField u .reasoningContent i none
        true).2.processField u .text i none true).2 := by
      rw [HoldsNoReasoning, reasoningReplacers_processField (by simp)]
      exact h₂
    -- the tool calls are not reasoning
    have hrest := @ih ((((stage.processField u .content i none true).2.processField u .reasoningContent i none
      true).2.processField u .text i none true).2.flushTools u i).2 h₃
    unfold PiiRestorationStage.finalizeChoices
    dsimp only
    split
    · exact hrest
    · intro choice hchoice delta hdelta
      rcases List.mem_cons.mp hchoice with rfl | hchoice
      · cases hdelta
        exact hnone
      · exact hrest choice hchoice delta hdelta

/-- A delta that is written without reasoning. -/
theorem not_reasoning_writeDelta {restored : Delta} (h : restored.reasoningContent = none) :
    ∀ field ∈ writeDelta [] restored, isReasoningOrInternalKey field.1 = false := by
  have hnames : isReasoningOrInternalKey Key.content = false ∧ isReasoningOrInternalKey Key.toolCalls = false ∧
      isReasoningOrInternalKey Key.text = false := by decide
  have hset : ∀ (key : Text) (value : Option Json) (fields : List (Text × Json)), isReasoningOrInternalKey key = false →
      (∀ field ∈ fields, isReasoningOrInternalKey field.1 = false) →
      ∀ field ∈ Json.setField key value fields, isReasoningOrInternalKey field.1 = false := by
    intro key value fields hkey hfields field hfield
    cases value with
    | none => exact hfields field hfield
    | some v =>
      rcases mem_of_mem_insertField hfield with rfl | hmem
      · exact hkey
      · exact hfields field hmem
  unfold writeDelta
  rw [h]
  show ∀ field ∈ Json.setField Key.text _ (Json.setField Key.toolCalls _ (Json.setField Key.content _ [])), _
  exact hset _ _ _ hnames.2.2 (hset _ _ _ hnames.2.1 (hset _ _ _ hnames.1 (by simp)))

namespace StreamingState

variable {ctx : StreamContext}

/-! ### The frame of a chunk -/

/-- What is sent for a chunk of a sanitized stream that has been rewritten. -/
theorem sentFrames_spec (hsanitize : ctx.sanitizeResponse = true) {payload out : Text} {v : Json}
    (h : IsDocument payload v) (hout : Readable v out) :
    (∀ frame ∈ sentFrames ctx out, frame.Clean ctx.modelOverride) ∧ Reaches v (sentFrames ctx out) := by
  obtain ⟨v₁, hdoc, hreshapes⟩ := h.of_readable hout
  have hfrom : fromStr out = some v₁.normal := fromStr_eq_some.mpr ⟨v₁, hdoc.read, hdoc.depth, rfl⟩
  obtain ⟨fields, hfields⟩ : ∃ fields, v₁.normal = object fields := by
    obtain ⟨fields, rfl⟩ := hdoc.isObject
    exact ⟨_, rfl⟩
  have hframes : sentFrames ctx out =
      ((sanitizeStreamingChunk out ctx.modelOverride).map Frame.data).toList := if_pos hsanitize
  rw [hframes]
  constructor
  · intro frame hframe
    rw [Option.mem_toList, Option.map_eq_some_iff] at hframe
    obtain ⟨sanitized, hsome, rfl⟩ := hframe
    obtain ⟨w, hw, hclean⟩ := sanitized_of_sanitizeStreamingChunk (hfields ▸ hfrom) hsome
    intro v' hv'
    rw [hw, Option.some.injEq] at hv'
    exact hv' ▸ hclean
  · intro choice hchoice huseful
    obtain ⟨c, hc, hfollows⟩ := exists_follows (hreshapes.trans (reshapes_normal v₁)).choices hchoice
    obtain ⟨sanitized, v', c', hsome, hread, hc', hfollows'⟩ :=
      exists_sanitizeStreamingChunk ctx.modelOverride hfrom hc (hfollows.useful huseful)
    refine ⟨sanitized, v', ?_, hread, c', hc', ?_, ?_⟩
    · rw [hsome]
      exact List.mem_singleton_self _
    · exact hfollows'.index.trans hfollows.index
    · exact hfollows'.useful (hfollows.useful huseful)

/-! ### The state of a stream -/

/-- The stream has not ended, and its restoration stage reads documents. -/
structure Settled (s : StreamingState) : Prop extends s.Running where
  stage : ∀ stage, s.piiStage = some stage → Reads stage ∧ stage.Fresh

/-- What the restoration stage makes of a document. -/
theorem restore_settled (ctx : StreamContext) {s : StreamingState} (hs : s.Settled) {payload : Text} {v : Json}
    (h : IsDocument payload v) :
    (s.restore ctx payload).1 ≠ .skip ∧ (s.restore ctx payload).2.Settled ∧ Readable v (s.restored ctx payload) := by
  cases hstage : s.piiStage with
  | none =>
    have hrestore : s.restore ctx payload = (.passthrough, s) := by
      unfold restore
      rw [hstage]
    unfold restored
    rw [hrestore]
    exact ⟨by simp, hs, .of_read h.read⟩
  | some stage =>
    obtain ⟨hreads, hfresh⟩ := hs.stage stage hstage
    obtain ⟨hrestore, hkeeps, hskip, hreadable, -⟩ := restore_spec ctx hstage hreads h
    refine ⟨hskip, ?_, hreadable⟩
    rw [hrestore]
    refine ⟨⟨hs.notDone, hs.notFailed⟩, ?_⟩
    rintro stage' ⟨⟩
    exact ⟨hreads.of_keeps hkeeps, hkeeps.fresh hfresh⟩

/-- A document that the normalizer has emitted is delivered. -/
theorem deliver_settled (hsanitize : ctx.sanitizeResponse = true) {s : StreamingState} (hs : s.Settled)
    {payload out : Text} {v : Json} (h : IsDocument payload v) (hout : Readable v out) :
    (s.restore ctx out).2.Settled ∧
      (∀ frame ∈ sentFrames ctx (s.restored ctx out), frame.Clean ctx.modelOverride) ∧
      Reaches v (sentFrames ctx (s.restored ctx out)) := by
  obtain ⟨v₁, hdoc, hreshapes⟩ := h.of_readable hout
  obtain ⟨-, hsettled, hreadable⟩ := restore_settled ctx hs hdoc
  exact ⟨hsettled, sentFrames_spec hsanitize h (hreadable.trans hreshapes)⟩

theorem normalized_settled (ctx : StreamContext) {s : StreamingState} (hs : s.Settled) (payload : Text) :
    (s.normalized ctx payload).Settled :=
  ⟨⟨hs.notDone, hs.notFailed⟩, hs.stage⟩

/-- What the normalizer makes of a document, if it does not hold it back. -/
theorem readable_effectivePayload (ctx : StreamContext) (n : ReasoningNormalizer) {payload : Text} {v : Json}
    (h : IsDocument payload v) :
    Readable v (effectivePayload payload (n.processChunk ctx.parsers payload).1) := by
  rcases n.processChunk_cases ctx.parsers payload with hskip | ⟨out, hout⟩
  · rw [hskip]
    exact .of_read h.read
  · rw [(effectivePayload_of_emitted hout).1]
    refine readable_step ctx.parsers n h.read ?_
    rw [ReasoningNormalizer.step, hout]
    exact List.mem_singleton_self _

theorem restore_normalizer (s : StreamingState) (payload : Text) :
    (s.restore ctx payload).2.normalizer = s.normalizer := by
  unfold restore
  cases s.piiStage <;> rfl

/-- A chunk of a sanitized stream. -/
theorem chunk_settled (hsanitize : ctx.sanitizeResponse = true) {s : StreamingState} (hs : s.Settled)
    {event : UpstreamEvent} (hends : event.endsStream = false) {payload : Text}
    (hpayload : event.payload ctx = some payload) {v : Json} (h : IsDocument payload v) :
    (s.processChunk ctx event).1.Settled ∧
      (s.processChunk ctx event).1.normalizer = (s.normalizer.step ctx.parsers payload).1 ∧
      (∀ frame ∈ (s.processChunk ctx event).2, frame.Clean ctx.modelOverride) ∧
      ((s.normalizer.processChunk ctx.parsers payload).1 ≠ .skip → Reaches v (s.processChunk ctx event).2) := by
  have hs' := normalized_settled ctx hs payload
  have hreadable := readable_effectivePayload ctx s.normalizer h
  have hchunk := processChunk_of_payload hs.toRunning hends hpayload fun out hout => by
    obtain ⟨heffective, -⟩ := effectivePayload_of_emitted hout
    obtain ⟨v₁, hdoc, -⟩ := h.of_readable (heffective ▸ hreadable)
    exact (restore_settled ctx hs' hdoc).1
  rw [hchunk]
  split
  · rename_i hskip
    exact ⟨hs', rfl, by simp, fun hne => absurd hskip hne⟩
  · obtain ⟨hsettled, hclean, hreaches⟩ := deliver_settled hsanitize hs' h hreadable
    exact ⟨hsettled, restore_normalizer _ _, hclean, fun _ => hreaches⟩

/-! ### What the stages hold at the end -/

theorem clean_write {model : Text} {v : Json} (h : Sanitized model v) : (Frame.data (write v)).Clean model := by
  intro v' hv'
  rw [read_write, Option.some.injEq] at hv'
  exact hv' ▸ h

/-- A chunk that a stage makes itself. -/
theorem sanitized_ownChunk {model : Text} {items : List Json}
    (h : ∀ item ∈ items, ∀ fields, deltaFields item = some fields → ∀ field ∈ fields,
      isReasoningOrInternalKey field.1 = false) :
    Sanitized model (object [(Key.choices, array items)]) := by
  have hne : Key.choices ≠ Key.model ∧ Key.choices ≠ Key.systemFingerprint ∧ Key.choices ≠ Key.serviceTier := by decide
  have hget : ∀ key, Key.choices ≠ key → (object [(Key.choices, array items)]).get key = none := by
    intro key hkey
    simp [get_object, getField_cons, hkey]
  refine ⟨fun m hm => ?_, hget _ hne.2.1, hget _ hne.2.2, ?_⟩
  · rw [hget _ hne.1] at hm
    cases hm
  · rw [choices_object, getField_cons, getField_nil]
    exact h

/-- What the normalizer holds is sent as a chunk without reasoning, or as a text that is no JSON. -/
theorem clean_finalizeNormalizer {s : StreamingState} (hs : s.normalizer.Holding) (model : Text) :
    ∀ frame ∈ (s.finalizeNormalizer ctx).1, frame.Clean model := by
  have hne : Key.finishReason ≠ Key.delta ∧ Key.index ≠ Key.delta := by decide
  have hchunk : ∀ key value reason, isReasoningOrInternalKey key = false →
      Sanitized model (InlineToolStreamExtractor.finalChunk [(key, value)] reason) := by
    intro key value reason hkey
    refine sanitized_ownChunk fun item hitem fields hfields field hfield => ?_
    rw [List.mem_singleton.mp hitem] at hfields
    simp only [deltaFields, get_object, getField_cons, getField_nil, hne, ↓reduceIte, Option.none_or, Option.bind_some,
      asObject, Option.some.injEq] at hfields
    rw [← hfields, List.mem_singleton] at hfield
    rw [hfield]
    exact hkey
  have hnames : isReasoningOrInternalKey Key.content = false ∧ isReasoningOrInternalKey Key.toolCalls = false := by decide
  intro frame hframe
  unfold finalizeNormalizer at hframe
  dsimp only at hframe
  rw [Option.mem_toList, Option.map_eq_some_iff] at hframe
  obtain ⟨out, hout, rfl⟩ := hframe
  rcases InlineToolStreamExtractor.finalize_eq ctx.parsers hs.inline with ⟨-, hfin⟩ | ⟨-, calls, reason, -, hfin⟩ |
    ⟨-, -, hfin⟩
  · -- text that may begin a reasoning block
    rw [ReasoningNormalizer.finalize_of_think hfin] at hout
    split at hout
    · cases hout
    · rename_i hflush
      cases hout
      have hne : s.normalizer.thinkExtractor.tagBuffer ≠ [] := by
        intro hnil
        rw [Think.ThinkStreamExtractor.flush, hnil] at hflush
        exact hflush rfl
      rcases ReasoningNormalizer.exists_flush_eq hs hne with hnil | ⟨t, ht⟩
      · rw [hnil] at hflush
        exact absurd rfl hflush
      · intro v hv
        rw [ht, read_angle] at hv
        cases hv
  · rw [ReasoningNormalizer.finalize_of_inline hfin, Option.some.injEq] at hout
    exact hout ▸ clean_write (hchunk _ _ _ hnames.2)
  · rw [ReasoningNormalizer.finalize_of_inline hfin, Option.some.injEq] at hout
    exact hout ▸ clean_write (hchunk _ _ _ hnames.1)

/-- What a stage that holds no reasoning gives at the end. -/
theorem clean_finishChatStream {s : StreamingState}
    (hs : ∀ stage, s.piiStage = some stage → stage.Fresh ∧ HoldsNoReasoning stage) (model : Text) :
    ∀ frame ∈ (s.finishChatStream ctx).1, frame.Clean model := by
  have hne : Key.index ≠ Key.delta := by decide
  intro frame hframe
  unfold finishChatStream at hframe
  split at hframe
  · rw [List.mem_singleton.mp hframe]
    trivial
  · rename_i stage hstage
    obtain ⟨hfresh, hnone⟩ := hs stage hstage
    dsimp only at hframe
    rcases List.mem_append.mp hframe with hframe | hframe
    · rw [Option.mem_toList, Option.map_eq_some_iff] at hframe
      obtain ⟨residual, hresidual, rfl⟩ := hframe
      unfold PiiRestorationStage.finalize at hresidual
      split at hresidual
      · rw [StreamingWindowReplacer.flush_of_pending hfresh.raw] at hresidual
        cases hresidual
      · dsimp only at hresidual
        split at hresidual
        · cases hresidual
        · cases hresidual
          refine clean_write (sanitized_ownChunk fun item hitem fields hfields => ?_)
          obtain ⟨choice, hchoice, rfl⟩ := List.mem_map.mp hitem
          simp only [residualChoice, deltaFields, get_object, getField_cons, getField_nil, hne, ↓reduceIte, Option.none_or,
            Option.bind_some, asObject, Option.some.injEq] at hfields
          rw [← hfields]
          refine not_reasoning_writeDelta ?_
          cases hdelta : choice.delta with
          | none => rfl
          | some delta => exact finalizeChoices_reasoning hnone _ choice hchoice delta hdelta
    · rw [List.mem_singleton.mp hframe]
      trivial

/-- The state in which the restoration stage is asked for what it holds: the normalizer has given what it held, and the
last chunk has gone through. -/
def beforeFinish (ctx : StreamContext) (s : StreamingState) (last : UpstreamEvent) : StreamingState :=
  let s := (s.finalizeNormalizer ctx).2
  match last.lastPayload with
  | none => s
  | some payload =>
    ((s.normalized ctx payload).restore ctx (effectivePayload payload (s.normalizer.processChunk ctx.parsers payload).1)).2

theorem finishChatStream_normalized (s : StreamingState) (payload : Text) :
    ((s.normalized ctx payload).finishChatStream ctx).1 = (s.finishChatStream ctx).1 := by
  unfold finishChatStream normalized
  cases s.piiStage <;> rfl

/-- The end of a stream: what the normalizer holds, the last chunk, and what the restoration stage holds. -/
theorem mem_processChunk_last {s : StreamingState} (hrunning : s.Running) {last : UpstreamEvent}
    (hends : last.finishes = true) {frame : Frame} :
    frame ∈ (s.processChunk ctx last).2 ↔ frame ∈ (s.finalizeNormalizer ctx).1 ∨
      (∃ payload, last.lastPayload = some payload ∧
        frame ∈ sentFrames ctx (((s.finalizeNormalizer ctx).2.normalized ctx payload).restored ctx (effectivePayload payload
          ((s.finalizeNormalizer ctx).2.normalizer.processChunk ctx.parsers payload).1))) ∨
      frame ∈ ((beforeFinish ctx s last).finishChatStream ctx).1 := by
  unfold processChunk beforeFinish
  rw [if_neg (by simp [hrunning.notDone, hrunning.notFailed])]
  cases last with
  | openai line =>
    have hline : jsonPayload line = some "[DONE]".toList := by simpa [UpstreamEvent.finishes] using hends
    dsimp only
    rw [processOpenaiFormat_done hline]
    simp only [handleDoneSentinel, Prod.snd_swap, List.mem_append, UpstreamEvent.lastPayload, reduceCtorEq, false_and,
      exists_false, false_or]
  | translated chunk =>
    cases chunk with
    | chunk payload => cases hends
    | done payload usage =>
      dsimp only
      unfold handleTranslatedDone
      by_cases hnull : isNull payload = true
      · have hlast : UpstreamEvent.lastPayload (.translated (.done payload usage)) = none := if_pos hnull
        rw [hlast]
        simp only [hnull, ↓reduceIte, Prod.snd_swap, List.append_nil, List.mem_append, reduceCtorEq, false_and,
          exists_false, false_or, normalize_eq, finishChatStream_normalized]
      · have hlast : UpstreamEvent.lastPayload (.translated (.done payload usage)) =
            some (write (forwardUsage payload usage)) := if_neg hnull
        rw [hlast]
        simp only [hnull, Bool.false_eq_true, ↓reduceIte, Prod.snd_swap, List.mem_append, Option.some.injEq,
          exists_eq_left', deliverPayloadThroughPii_eq, or_assoc]
        exact Iff.rfl

/-! ### Runs -/

/-- The payload of an event, whether or not it goes through the stages. -/
def UpstreamEvent.carried : UpstreamEvent → Option Text
  | .openai line => jsonPayload line
  | .translated (.chunk payload) => some (write payload)
  | .translated (.done payload usage) => some (write (forwardUsage payload usage))

/-- A step at which nothing goes around the sanitizer and nothing is lost: a payload that is sent on can be read, a chunk
that has something for the client is accepted and is not held back, and the restoration stage holds no reasoning at the
end. -/
structure Clear (ctx : StreamContext) (s : StreamingState) (event : UpstreamEvent) : Prop where
  chunk : event.endsStream = false → ∀ payload, event.payload ctx = some payload → ∃ v, IsDocument payload v
  lastChunk : ∀ payload, event.lastPayload = some payload → ∃ v, IsDocument payload v
  passes : event.endsStream = false → ∀ payload, event.carried = some payload → ∀ v, IsDocument payload v →
    (∃ choice ∈ (choices v).getD [], isUseful choice = true) →
      event.payload ctx = some payload ∧ (s.normalizer.processChunk ctx.parsers payload).1 ≠ .skip
  reasoning : event.finishes = true → ∀ stage, (beforeFinish ctx s event).piiStage = some stage →
    HoldsNoReasoning stage

/-- Every frame of the event is sanitized, and every choice that has something for the client is in one. -/
def Covered (model : Text) (event : UpstreamEvent) (frames : List Frame) : Prop :=
  (∀ frame ∈ frames, frame.Clean model) ∧
    ∀ payload, event.carried = some payload → ∀ v, IsDocument payload v → Reaches v frames

/-- A chunk that has nothing for the client reaches it. -/
theorem reaches_of_not_useful {v : Json} (h : ¬ ∃ choice ∈ (choices v).getD [], isUseful choice = true)
    (frames : List Frame) : Reaches v frames := fun choice hchoice huseful => absurd ⟨choice, hchoice, huseful⟩ h

theorem covered_chunk (hsanitize : ctx.sanitizeResponse = true) {s : StreamingState} (hs : s.Settled)
    (hholding : s.normalizer.Holding) {event : UpstreamEvent} (hclear : Clear ctx s event)
    (hends : event.endsStream = false) :
    Covered ctx.modelOverride event (s.processChunk ctx event).2 ∧ (s.processChunk ctx event).1.Settled ∧
      (s.processChunk ctx event).1.normalizer.Holding := by
  cases hpayload : event.payload ctx with
  | none =>
    rw [processChunk_of_none hends hpayload]
    refine ⟨⟨by simp, fun payload hcarried v hv => ?_⟩, hs, hholding⟩
    refine reaches_of_not_useful (fun huseful => ?_) _
    have := (hclear.passes hends payload hcarried v hv huseful).1
    rw [hpayload] at this
    cases this
  | some payload =>
    obtain ⟨v, hdoc⟩ := hclear.chunk hends payload hpayload
    obtain ⟨hsettled, hnormalizer, hclean, hreaches⟩ := chunk_settled hsanitize hs hends hpayload hdoc
    refine ⟨⟨hclean, fun payload' hcarried v' hv' => ?_⟩, hsettled, ?_⟩
    · by_cases huseful : ∃ choice ∈ (choices v').getD [], isUseful choice = true
      · obtain ⟨hsame, hskip⟩ := hclear.passes hends payload' hcarried v' hv' huseful
        rw [hpayload, Option.some.injEq] at hsame
        subst hsame
        have hv : v = v' := by
          have := hdoc.read
          rw [hv'.read, Option.some.injEq] at this
          exact this.symm
        exact hv ▸ hreaches hskip
      · exact reaches_of_not_useful huseful _
    · rw [hnormalizer]
      exact s.normalizer.step_holding ctx.parsers hholding payload

theorem covered_last (hsanitize : ctx.sanitizeResponse = true) {s : StreamingState} (hs : s.Settled)
    (hholding : s.normalizer.Holding) {last : UpstreamEvent} (hclear : Clear ctx s last) (hends : last.finishes = true) :
    Covered ctx.modelOverride last (s.processChunk ctx last).2 := by
  have hs₁ : (s.finalizeNormalizer ctx).2.Settled := ⟨⟨hs.notDone, hs.notFailed⟩, hs.stage⟩
  have hdeliver : ∀ payload v, last.lastPayload = some payload → IsDocument payload v →
      (beforeFinish ctx s last).Settled ∧
        (∀ frame ∈ sentFrames ctx (((s.finalizeNormalizer ctx).2.normalized ctx payload).restored ctx (effectivePayload
          payload ((s.finalizeNormalizer ctx).2.normalizer.processChunk ctx.parsers payload).1)),
          frame.Clean ctx.modelOverride) ∧
        Reaches v (sentFrames ctx (((s.finalizeNormalizer ctx).2.normalized ctx payload).restored ctx (effectivePayload
          payload ((s.finalizeNormalizer ctx).2.normalizer.processChunk ctx.parsers payload).1))) := by
    intro payload v hlast hdoc
    unfold beforeFinish
    rw [hlast]
    exact deliver_settled hsanitize (normalized_settled ctx hs₁ payload) hdoc
      (readable_effectivePayload ctx (s.finalizeNormalizer ctx).2.normalizer hdoc)
  have hbefore : (beforeFinish ctx s last).Settled := by
    cases hlast : last.lastPayload with
    | none =>
      unfold beforeFinish
      rw [hlast]
      exact hs₁
    | some payload =>
      obtain ⟨v, hdoc⟩ := hclear.lastChunk payload hlast
      exact (hdeliver payload v hlast hdoc).1
  constructor
  · intro frame hframe
    rcases (mem_processChunk_last hs.toRunning hends).mp hframe with hframe | ⟨payload, hlast, hframe⟩ | hframe
    · exact clean_finalizeNormalizer hholding _ frame hframe
    · obtain ⟨v, hdoc⟩ := hclear.lastChunk payload hlast
      exact (hdeliver payload v hlast hdoc).2.1 frame hframe
    · refine clean_finishChatStream (fun stage hstage => ?_) _ frame hframe
      exact ⟨(hbefore.stage stage hstage).2, hclear.reasoning hends stage hstage⟩
  · intro payload hcarried v hdoc choice hchoice huseful
    have hlast : last.lastPayload = some payload := by
      cases last with
      | openai line =>
        have hline : jsonPayload line = some "[DONE]".toList := by simpa [UpstreamEvent.finishes] using hends
        rw [UpstreamEvent.carried, hline, Option.some.injEq] at hcarried
        have hread : read "[DONE]".toList = none := by decide
        rw [← hcarried] at hdoc
        rw [hdoc.read] at hread
        cases hread
      | translated chunk =>
        cases chunk with
        | chunk payload => cases hends
        | done last usage =>
          rw [UpstreamEvent.carried] at hcarried
          rw [UpstreamEvent.lastPayload]
          split
          · -- a payload that is null is no chunk
            rename_i hnull
            cases last with
            | null =>
              obtain ⟨fields, hfields⟩ := hdoc.isObject
              have hread := hdoc.read
              have hnone : forwardUsage null usage = null := by cases usage <;> rfl
              rw [← Option.some.inj hcarried, hfields, hnone, read_write] at hread
              cases hread
            | bool b | number n | string s | array items | object fields => cases hnull
          · exact hcarried
    obtain ⟨out, v', hmem, hread, hfound⟩ := (hdeliver payload v hlast hdoc).2.2 choice hchoice huseful
    exact ⟨out, v', (mem_processChunk_last hs.toRunning hends).mpr (Or.inr (Or.inl ⟨payload, hlast, hmem⟩)), hread, hfound⟩

/-- An error of the upstream sends nothing, and has no choice that is lost. -/
theorem covered_failed {s : StreamingState} (hs : s.Running) {last : UpstreamEvent} (hfinishes : last.finishes = false)
    (hfails : last.fails = true) : Covered ctx.modelOverride last (s.processChunk ctx last).2 := by
  cases last with
  | openai line =>
    obtain ⟨payload, hline, herror⟩ : ∃ payload, jsonPayload line = some payload ∧
        (Upstream.parseInlineSseError payload).isSome = true := by
      simpa [UpstreamEvent.fails, Option.any_eq_true] using hfails
    obtain ⟨parsed, hparsed⟩ := Option.isSome_iff_exists.mp herror
    have hne : payload ≠ "[DONE]".toList := by simpa [UpstreamEvent.finishes, hline] using hfinishes
    have hframes : (s.processChunk ctx (.openai line)).2 = [] := by
      unfold processChunk
      rw [if_neg (by simp [hs.notDone, hs.notFailed])]
      dsimp only
      unfold processOpenaiFormat
      simp only [hline]
      unfold processOpenaiPayload
      rw [if_neg hne, hparsed]
      rfl
    rw [hframes]
    refine ⟨by simp, fun payload' hcarried v hdoc => reaches_of_not_useful ?_ _⟩
    rw [UpstreamEvent.carried, hline, Option.some.injEq] at hcarried
    subst hcarried
    rintro ⟨choice, hchoice, -⟩
    obtain ⟨fields, rfl⟩ := hdoc.isObject
    -- a payload with choices is no error
    have hhas : Upstream.HasChoices (object fields) := by
      cases hchoices : choices (object fields) with
      | none => simp [hchoices] at hchoice
      | some items =>
        cases items with
        | nil => simp [hchoices] at hchoice
        | cons item items =>
          obtain ⟨found, hget, harray⟩ := Option.bind_eq_some_iff.mp hchoices
          cases found with
          | array items' =>
            cases harray
            exact ⟨item, items, hget⟩
          | null | bool b | number n | string raw | object fields => cases harray
    rw [Upstream.parseInlineSseError_of_choices hdoc.read hhas] at hparsed
    cases hparsed
  | translated chunk => cases hfails

theorem covered_run (hsanitize : ctx.sanitizeResponse = true) {s : StreamingState} (hs : s.Settled)
    (hholding : s.normalizer.Holding) {events : List UpstreamEvent} {last : UpstreamEvent}
    (hevents : ∀ event ∈ events, event.endsStream = false) (hlast : last.endsStream = true)
    (hsteps : AllSteps (processChunk ctx) (Clear ctx) s (events ++ [last])) :
    List.Forall₂ (Covered ctx.modelOverride) (events ++ [last]) (outputs (processChunk ctx) s (events ++ [last])) := by
  induction events generalizing s with
  | nil =>
    refine .cons ?_ .nil
    cases hfinishes : last.finishes with
    | true => exact covered_last hsanitize hs hholding hsteps.1 hfinishes
    | false =>
      refine covered_failed hs.toRunning hfinishes ?_
      simpa [UpstreamEvent.endsStream, hfinishes] using hlast
  | cons event events ih =>
    obtain ⟨hcovered, hs', hholding'⟩ :=
      covered_chunk hsanitize hs hholding hsteps.1 (hevents event List.mem_cons_self)
    exact .cons hcovered (ih hs' hholding' (fun e he => hevents e (List.mem_cons_of_mem _ he)) hsteps.2)

/-- A stream that is sanitized. -/
def sanitizedContext : StreamContext := ⟨.ascii, ReasoningNormalizer.noBlocks, true, "gpt".toList⟩

/-- A line with a chunk whose delta has this field. -/
def deltaLine (field : String) : UpstreamEvent :=
  .openai ("data: \x7b\"choices\":[\x7b\"index\":0,\"delta\":\x7b".toList ++ field.toList ++
    "\x7d\x7d]\x7d".toList)

/-- A chunk with content and reasoning. -/
def mixedLine : UpstreamEvent := deltaLine "\"content\":\"met Alex Vance.\",\"reasoning\":\"x\""

/-- A chunk whose reasoning ends with the beginning of a name. -/
def reasoningLine : UpstreamEvent := deltaLine "\"reasoning_content\":\"met Al\""

/-- What the restoration stage holds of this reasoning. -/
def leakedChunk : Json :=
  object [("choices".toList, array [object [("delta".toList, object [("reasoning_content".toList, string "Al".toList)]),
    ("index".toList, number (.ofNat 0))]])]

end StreamingState

end OpenProxy.Streaming
