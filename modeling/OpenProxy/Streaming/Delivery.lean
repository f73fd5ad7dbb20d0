import OpenProxy.Streaming.Passage

/-!
# The delivery of a stream

The chunks of one choice pass through the normalizer and the restoration stage.  At the end of the stream what the
normalizer holds is sent as it is, before what the restoration stage holds.  If the normalizer holds nothing then, the
client reads the content restored (`delivered_restored`); otherwise it may read it in another order and with its pseudonyms
(`delivered_out_of_order`).
-/

namespace OpenProxy.Streaming

open Json Inline Pii
open StreamingWindowReplacer (flush_of_pending fromSession restoreChunks_singleton secretCalls)

/-! ### Contents -/

/-- The content of choices. -/
def entriesContent (entries : List (Choice × Nat)) : Text := entries.flatMap fun entry => contentText entry.1

theorem entriesContent_append (xs ys : List (Choice × Nat)) :
    entriesContent (xs ++ ys) = entriesContent xs ++ entriesContent ys := List.flatMap_append

theorem entriesContent_zipIdx (choices : List Choice) (k : Nat) :
    entriesContent (choices.zipIdx k) = choices.flatMap contentText := by
  unfold entriesContent
  induction choices generalizing k with
  | nil => rfl
  | cons choice choices ih => rw [List.zipIdx_cons, List.flatMap_cons, List.flatMap_cons, ih]

/-- Where the other choices have no content, the content is that of one channel. -/
theorem entriesContent_eq {i : Nat} {entries : List (Choice × Nat)}
    (h : ∀ j, j ≠ i → (fragments (.field .content j) entries).flatten = []) :
    entriesContent entries = (fragments (.field .content i) entries).flatten := by
  have hown : ∀ entry : Choice × Nat,
      (entry.1.fragments entry.2 (.field .content (entry.1.choiceIdx entry.2))).flatten = contentText entry.1 := by
    intro entry
    unfold Choice.fragments contentText
    rw [if_pos (by rfl)]
    cases hget : entry.1.get .content <;> simp [hget]
  induction entries with
  | nil => rfl
  | cons entry entries ih =>
    have hsplit : ∀ j, fragments (.field .content j) (entry :: entries) =
        entry.1.fragments entry.2 (.field .content j) ++ fragments (.field .content j) entries :=
      fun j => List.flatMap_cons
    have hrest := ih fun j hj => by
      have hj' := h j hj
      rw [hsplit, List.flatten_append, List.append_eq_nil_iff] at hj'
      exact hj'.2
    have hcons : entriesContent (entry :: entries) = contentText entry.1 ++ entriesContent entries := List.flatMap_cons
    rw [hsplit, List.flatten_append, hcons, hrest]
    congr 1
    by_cases hidx : entry.1.choiceIdx entry.2 = i
    · rw [← hidx, hown]
    · have hnone := h _ hidx
      rw [hsplit, List.flatten_append, List.append_eq_nil_iff, hown] at hnone
      have hother : entry.1.fragments entry.2 (.field .content i) = [] := if_neg hidx
      rw [hnone.1, hother, List.flatten_nil]

/-! ### Chunks of one choice -/

/-- The payload is a chunk that has no other choice than the one with this index. -/
def OfChoice (i : Nat) (payload : Text) : Prop :=
  ∃ v, IsDocument payload v ∧ ∀ entry ∈ ((choices v).getD []).zipIdx, (choiceIndex entry.1).getD entry.2 = i

instance (i : Nat) (payload : Text) : Decidable (OfChoice i payload) :=
  decidable_of_iff ((read payload).any (fun v => decide (v.depth ≤ 127 ∧ v.asObject.isSome = true ∧
      ∀ entry ∈ ((choices v).getD []).zipIdx, (choiceIndex entry.1).getD entry.2 = i)) = true) <| by
    rw [Option.any_eq_true]
    refine exists_congr fun v => ?_
    rw [decide_eq_true_iff]
    constructor
    · rintro ⟨hread, hdepth, hobject, hidx⟩
      obtain ⟨fields, hfields⟩ := Option.isSome_iff_exists.mp hobject
      exact ⟨⟨hread, hdepth, fields, asObject_eq_some hfields⟩, hidx⟩
    · rintro ⟨⟨hread, hdepth, fields, rfl⟩, hidx⟩
      exact ⟨hread, hdepth, rfl, hidx⟩

theorem exists_follows_of_mem {cs cs' : List Json} (h : List.Forall₂ Follows cs cs') {k : Nat} {entry : Json × Nat}
    (hentry : entry ∈ cs'.zipIdx k) : ∃ c, (c, entry.2) ∈ cs.zipIdx k ∧ Follows c entry.1 := by
  induction h generalizing k with
  | nil => cases hentry
  | cons hc _ ih =>
    rw [List.zipIdx_cons, List.mem_cons] at hentry
    rw [List.zipIdx_cons]
    rcases hentry with rfl | hentry
    · exact ⟨_, List.mem_cons_self, hc⟩
    · obtain ⟨c, hmem, hfollows⟩ := ih hentry
      exact ⟨c, List.mem_cons_of_mem _ hmem, hfollows⟩

/-- A chunk of one choice is still one when it is rewritten. -/
theorem OfChoice.of_readable {i : Nat} {payload out : Text} {v : Json} (h : IsDocument payload v)
    (hidx : ∀ entry ∈ ((choices v).getD []).zipIdx, (choiceIndex entry.1).getD entry.2 = i) (hout : Readable v out) :
    OfChoice i out := by
  obtain ⟨v', hv', hreshapes⟩ := h.of_readable hout
  refine ⟨v', hv', fun entry hentry => ?_⟩
  obtain ⟨c, hmem, hfollows⟩ := exists_follows_of_mem hreshapes.choices hentry
  rw [hfollows.index]
  exact hidx _ hmem

theorem choices_parsePayload {payload : Text} {v : Json} (h : IsDocument payload v) :
    (parsePayload payload).choices = ((choices v).getD []).map fun choice => readChoice choice.normal := by
  rw [h.parsePayload, Parsed.choices, choices_normal]
  cases choices v <;> simp

theorem OfChoice.choiceIdx_eq {i : Nat} {payload : Text} (h : OfChoice i payload) {entry : Choice × Nat}
    (hentry : entry ∈ (parsePayload payload).choices.zipIdx) : entry.1.choiceIdx entry.2 = i := by
  obtain ⟨v, hdoc, hidx⟩ := h
  rw [choices_parsePayload hdoc, List.zipIdx_map, List.mem_map] at hentry
  obtain ⟨⟨c, k⟩, hmem, rfl⟩ := hentry
  have := hidx _ hmem
  rwa [← choiceIndex_normal] at this

/-- The content of the payloads is the one of the choice. -/
theorem fragments_inputEntries {i : Nat} {payloads : List Text} (h : ∀ payload ∈ payloads, OfChoice i payload) :
    (∀ j, j ≠ i → fragments (.field .content j) (inputEntries parsePayload payloads) = []) ∧
      (fragments (.field .content i) (inputEntries parsePayload payloads)).flatten = payloads.flatMap contentsOf := by
  have hother : ∀ j, j ≠ i → fragments (.field .content j) (inputEntries parsePayload payloads) = [] := by
    intro j hj
    unfold fragments
    rw [List.flatMap_eq_nil_iff]
    intro entry hentry
    obtain ⟨payload, hpayload, hmem⟩ := List.mem_flatMap.mp hentry
    have hidx := (h payload hpayload).choiceIdx_eq hmem
    exact if_neg (by rw [hidx]; exact hj.symm)
  refine ⟨hother, ?_⟩
  rw [← entriesContent_eq fun j hj => by rw [hother j hj, List.flatten_nil]]
  unfold inputEntries
  clear hother
  induction payloads with
  | nil => rfl
  | cons payload payloads ih =>
    obtain ⟨v, hdoc, -⟩ := h payload List.mem_cons_self
    rw [List.flatMap_cons, List.flatMap_cons, entriesContent_append, entriesContent_zipIdx, hdoc.contents_choices,
      ih fun p hp => h p (List.mem_cons_of_mem _ hp)]

/-- What the stage of a session gives for the chunks of one choice is their content restored. -/
theorem entriesContent_restored (u : CharTables) {s : PiiSession} (hspelled : s.WellSpelled)
    (order order' order₂ order₂' : HashOrder) {i : Nat} {payloads : List Text}
    (h : ∀ payload ∈ payloads, OfChoice i payload) (hlast : FinishLast (inputEntries parsePayload payloads))
    (hsafe : CutSafe u (fromSession s order order').pairs none (payloads.flatMap contentsOf)) :
    entriesContent
      (emittedEntries parsePayload payloads
          (PiiRestorationStage.processChunks u parsePayload (.new s order order') payloads).1 ++
        residualEntries
          ((PiiRestorationStage.processChunks u parsePayload (.new s order order') payloads).2.finalize u).1) =
      s.restoreText u order₂ order₂' (payloads.flatMap contentsOf) := by
  have hparse : ∀ payload ∈ payloads, ∃ choices, parsePayload payload = .object choices := by
    intro payload hpayload
    obtain ⟨v, hdoc, -⟩ := h payload hpayload
    exact ⟨_, hdoc.parsePayload⟩
  have htemplate : ∀ j, (PiiRestorationStage.new s order order').template (.field .content j) =
      fromSession s order order' := by
    intro j
    unfold fromSession PiiRestorationStage.new
    split <;> rfl
  obtain ⟨hother, hcontent⟩ := fragments_inputEntries h
  have hchannel := fun j => PiiRestorationStage.fragments_of_wellSpelled u hspelled order order' parsePayload payloads
    hparse hlast (.field .content j) (finishOnce_field .content j _)
  rw [entriesContent_eq (i := i)]
  · have := hchannel i
    rw [htemplate, hcontent] at this
    rw [this (CutSafe.chunksSafe (by rwa [hcontent])), restoreChunks_singleton]
  · intro j hj
    have := hchannel j
    rw [htemplate, hother j hj] at this
    rw [this (CutSafe.chunksSafe (cutSafe_nil _ _ _)), List.flatten_nil,
      restoreChunks_singleton u s order order' order₂ order₂']
    simp [PiiSession.restoreText]

/-! ### Runs -/

/-- The normalizer holds no text that the end of the stream would give. -/
def ReasoningNormalizer.Drained (n : ReasoningNormalizer) : Prop :=
  n.inlineToolExtractor.residual = [] ∧ (n.thinkExtractor.tagBuffer = [] ∨ n.thinkExtractor.insideThink = true)

instance (n : ReasoningNormalizer) : Decidable n.Drained := inferInstanceAs (Decidable (_ ∧ _))

theorem ReasoningNormalizer.finalize_of_drained (p : ToolParsers) {n : ReasoningNormalizer} (h : n.Drained) :
    (n.finalize p).1 = none := by
  have hinline : (n.inlineToolExtractor.finalize p).1 = none := by
    unfold InlineToolStreamExtractor.finalize
    rw [h.1]
    rfl
  have hflush : n.thinkExtractor.flush.1.1 = [] := by
    unfold Think.ThinkStreamExtractor.flush
    rcases h.2 with hnil | hinside
    · simp [hnil]
    · rw [if_pos hinside]
      split <;> rfl
  rw [ReasoningNormalizer.finalize_of_think hinline, hflush]
  rfl

namespace StreamingState

variable {ctx : StreamContext}

/-- The stream has not ended, and its restoration stage is this one. -/
structure Restoring (s : StreamingState) (stage : PiiRestorationStage) : Prop extends s.Running where
  piiStage : s.piiStage = some stage
  reads : Reads stage

/-- A chunk of one choice goes through the restoration stage. -/
theorem deliver_spec (ctx : StreamContext) {s : StreamingState} {stage : PiiRestorationStage} (hs : s.Restoring stage)
    {payload : Text} {i : Nat} (h : OfChoice i payload) :
    (s.restore ctx payload).1 ≠ .skip ∧
      (s.restore ctx payload).2 =
        { s with piiStage := some (stage.processChunks ctx.chars parsePayload [payload]).2 } ∧
      stage.Keeps (stage.processChunks ctx.chars parsePayload [payload]).2 ∧
      (sentFrames ctx (s.restored ctx payload)).flatMap Frame.content =
        entriesContent (emittedEntries parsePayload [payload] (stage.processChunks ctx.chars parsePayload [payload]).1) := by
  obtain ⟨v, hdoc, -⟩ := h
  obtain ⟨hrestore, hkeeps, hskip, hreadable, hcontents⟩ := restore_spec ctx hs.piiStage hs.reads hdoc
  obtain ⟨v', hv', -⟩ := hreadable.exists_fromStr hdoc.depth
  refine ⟨hskip, congrArg Prod.snd hrestore, hkeeps, ?_⟩
  rw [contents_sentFrames ctx hv', hcontents]
  unfold emittedEntries PiiRestorationStage.processChunks
  dsimp only
  rw [List.zip_cons_cons, List.flatMap_cons, entriesContent_append, entriesContent_zipIdx]
  exact (List.append_nil _).symm

/-- A chunk of one choice: what the normalizer emits for it is restored and sent. -/
theorem step_spec {s : StreamingState} {stage : PiiRestorationStage} (hs : s.Restoring stage) {event : UpstreamEvent}
    (hends : event.endsStream = false) {payload : Text} (hpayload : event.payload ctx = some payload) {i : Nat}
    (h : OfChoice i payload) {outs : List Text} (houts : (s.normalizer.step ctx.parsers payload).2 = outs) :
    (∀ out ∈ outs, OfChoice i out) ∧ stage.Keeps (stage.processChunks ctx.chars parsePayload outs).2 ∧
      (s.processChunk ctx event).1 =
        { normalizer := (s.normalizer.step ctx.parsers payload).1
          piiStage := some (stage.processChunks ctx.chars parsePayload outs).2
          doneSent := false
          failed := none } ∧
      (s.processChunk ctx event).2.flatMap Frame.content =
        entriesContent (emittedEntries parsePayload outs (stage.processChunks ctx.chars parsePayload outs).1) := by
  have hs' : (s.normalized ctx payload).Restoring stage := ⟨⟨hs.notDone, hs.notFailed⟩, hs.piiStage, hs.reads⟩
  have hnormalized : ∀ out, (s.normalizer.processChunk ctx.parsers payload).1.emitted payload = some out →
      OfChoice i out := by
    intro out hout
    obtain ⟨v, hdoc, hidx⟩ := h
    refine .of_readable hdoc hidx (readable_step ctx.parsers s.normalizer hdoc.read ?_)
    rw [ReasoningNormalizer.step, hout]
    exact List.mem_singleton_self _
  have hchunk := processChunk_of_payload hs.toRunning hends hpayload fun out hout =>
    (deliver_spec ctx hs' (hnormalized out hout)).1
  rw [hchunk]
  rcases s.normalizer.processChunk_cases ctx.parsers payload with hskip | ⟨out, hout⟩
  · -- the chunk is held back
    obtain rfl : outs = [] := by rw [← houts, ReasoningNormalizer.step, hskip]; rfl
    rw [if_pos hskip]
    refine ⟨by simp, .refl _, ?_, rfl⟩
    rw [normalized, PiiRestorationStage.processChunks, ← hs.piiStage, ← hs.notDone, ← hs.notFailed]
  · obtain ⟨heffective, hne⟩ := effectivePayload_of_emitted hout
    obtain rfl : outs = [out] := by rw [← houts, ReasoningNormalizer.step, hout]; rfl
    obtain ⟨-, hstate, hkeeps, hcontent⟩ := deliver_spec ctx hs' (hnormalized out hout)
    rw [if_neg hne]
    dsimp only
    rw [heffective, hstate]
    refine ⟨fun q hq => ?_, hkeeps, ?_, hcontent⟩
    · rw [List.mem_singleton.mp hq]
      exact hnormalized out hout
    · rw [normalized, ← hs.notDone, ← hs.notFailed]

/-- The payloads that the normalizer emits for the chunks of a stream. -/
def normalizedPayloads (ctx : StreamContext) (n : ReasoningNormalizer) (events : List UpstreamEvent) : List Text :=
  emitted (ReasoningNormalizer.step ctx.parsers) n (events.filterMap (UpstreamEvent.payload ctx))

/-- The normalizer after the chunks of a stream. -/
def normalizerAfter (ctx : StreamContext) (n : ReasoningNormalizer) (events : List UpstreamEvent) : ReasoningNormalizer :=
  runState (ReasoningNormalizer.step ctx.parsers) n (events.filterMap (UpstreamEvent.payload ctx))

theorem run_spec {s : StreamingState} {stage : PiiRestorationStage} (hs : s.Restoring stage) {events : List UpstreamEvent}
    (hends : ∀ event ∈ events, event.endsStream = false) {i : Nat}
    (h : ∀ event ∈ events, ∀ payload, event.payload ctx = some payload → OfChoice i payload) :
    (∀ out ∈ normalizedPayloads ctx s.normalizer events, OfChoice i out) ∧
      stage.Keeps (stage.processChunks ctx.chars parsePayload (normalizedPayloads ctx s.normalizer events)).2 ∧
      runState (processChunk ctx) s events =
        { normalizer := normalizerAfter ctx s.normalizer events
          piiStage := some (stage.processChunks ctx.chars parsePayload (normalizedPayloads ctx s.normalizer events)).2
          doneSent := false
          failed := none } ∧
      (emitted (processChunk ctx) s events).flatMap Frame.content =
        entriesContent (emittedEntries parsePayload (normalizedPayloads ctx s.normalizer events)
          (stage.processChunks ctx.chars parsePayload (normalizedPayloads ctx s.normalizer events)).1) := by
  induction events generalizing s stage with
  | nil =>
    refine ⟨by simp [normalizedPayloads], .refl _, ?_, rfl⟩
    show s = { normalizer := s.normalizer, piiStage := some stage, doneSent := false, failed := none }
    rw [← hs.piiStage, ← hs.notDone, ← hs.notFailed]
  | cons event events ih =>
    have hends' := hends event List.mem_cons_self
    have hrest := fun {s' stage'} (hs' : StreamingState.Restoring s' stage') =>
      ih hs' (fun e he => hends e (List.mem_cons_of_mem _ he)) fun e he => h e (List.mem_cons_of_mem _ he)
    rw [emitted_cons, List.flatMap_append]
    cases hpayload : event.payload ctx with
    | none =>
      have hskip := processChunk_of_none (s := s) hends' hpayload
      have hsame : (event :: events).filterMap (UpstreamEvent.payload ctx) =
          events.filterMap (UpstreamEvent.payload ctx) := List.filterMap_cons_none hpayload
      unfold normalizedPayloads normalizerAfter at hrest ⊢
      rw [runState, hskip, hsame]
      exact hrest hs
    | some payload =>
      obtain ⟨hone, hkeeps, hstate, hcontent⟩ := step_spec hs hends' hpayload
        (h event List.mem_cons_self payload hpayload) rfl
      have hpayloads : (event :: events).filterMap (UpstreamEvent.payload ctx) =
          payload :: events.filterMap (UpstreamEvent.payload ctx) := List.filterMap_cons_some hpayload
      have hnormalized : normalizedPayloads ctx s.normalizer (event :: events) =
          (s.normalizer.step ctx.parsers payload).2 ++
            normalizedPayloads ctx (s.normalizer.step ctx.parsers payload).1 events := by
        unfold normalizedPayloads
        rw [hpayloads, emitted_cons]
      have hafter : normalizerAfter ctx s.normalizer (event :: events) =
          normalizerAfter ctx (s.normalizer.step ctx.parsers payload).1 events := by
        unfold normalizerAfter
        rw [hpayloads, runState]
      have hs' : (s.processChunk ctx event).1.Restoring (stage.processChunks ctx.chars parsePayload _).2 :=
        ⟨⟨by rw [hstate], by rw [hstate]⟩, by rw [hstate], hs.reads.of_keeps hkeeps⟩
      obtain ⟨hones, hkeeps', hstate', hcontent'⟩ := hrest hs'
      rw [hstate] at hones hkeeps' hstate' hcontent'
      rw [runState, hstate, hafter, hnormalized, hstate', PiiRestorationStage.processChunks_append]
      dsimp only at hcontent' hones ⊢
      refine ⟨fun q hq => ?_, hkeeps.trans hkeeps', rfl, ?_⟩
      · rcases List.mem_append.mp hq with hq | hq
        · exact hone q hq
        · exact hones q hq
      · rw [PiiRestorationStage.emittedEntries_append _ (PiiRestorationStage.length_processChunks _ _), entriesContent_append,
          hcontent, hcontent']

/-! ### The end of the stream -/

theorem contentOf_residualChoice (choice : Choice) : contentOf (residualChoice choice) = contentText choice := by
  have hne : Key.index ≠ Key.delta := by decide
  unfold residualChoice
  rw [contentOf, get_object, getField_cons, getField_cons, getField_nil]
  simp only [hne, ↓reduceIte, Option.none_or, Option.bind_some, get_object, getField_writeDelta_content,
    getField_nil, Option.or_none]
  unfold contentText Choice.get Delta.get
  cases choice.delta with
  | none => rfl
  | some delta => cases hcontent : delta.content <;> simp [hcontent, asStr]

/-- A stage that has restored no text as it is ends with a chunk. -/
theorem contents_finishChatStream {s : StreamingState} {stage : PiiRestorationStage} (hstage : s.piiStage = some stage)
    (hfresh : stage.Fresh) :
    (s.finishChatStream ctx).1.flatMap Frame.content = entriesContent (residualEntries (stage.finalize ctx.chars).1) := by
  unfold finishChatStream
  rw [hstage]
  dsimp only
  rw [List.flatMap_append]
  cases hresidual : (stage.finalize ctx.chars).1 with
  | none => rfl
  | some residual =>
    cases residual with
    | choices cs =>
      simp only [Option.map_some, Option.toList_some, List.flatMap_cons, List.flatMap_nil, List.append_nil, Frame.content,
        residualPayload, contentsOf_write, residualEntries, entriesContent_zipIdx]
      rw [choices_object, getField_cons, getField_nil]
      simp only [↓reduceIte, Option.none_or, Option.bind_some, asArray, Option.getD_some, List.flatMap_map]
      exact List.flatMap_congr fun choice _ => contentOf_residualChoice choice
    | raw text =>
      unfold PiiRestorationStage.finalize at hresidual
      split at hresidual
      · rw [flush_of_pending hfresh.raw] at hresidual
        cases hresidual
      · dsimp only at hresidual
        split at hresidual <;> cases hresidual

/-- The payload of the last chunk of a translated stream. -/
def UpstreamEvent.lastPayload : UpstreamEvent → Option Text
  | .translated (.done payload usage) => if isNull payload then none else some (write (forwardUsage payload usage))
  | _ => none

/-- What the normalizer makes of the last chunk, after it has given what it held. -/
def lastPayloads (ctx : StreamContext) (n : ReasoningNormalizer) (last : UpstreamEvent) : List Text :=
  (last.lastPayload.map fun payload =>
    effectivePayload payload ((n.finalize ctx.parsers).2.processChunk ctx.parsers payload).1).toList

theorem ofChoice_lastPayloads (ctx : StreamContext) {n : ReasoningNormalizer} {last : UpstreamEvent} {i : Nat}
    (h : ∀ payload ∈ last.lastPayload, OfChoice i payload) : ∀ out ∈ lastPayloads ctx n last, OfChoice i out := by
  intro out hout
  unfold lastPayloads at hout
  cases hpayload : last.lastPayload with
  | none => simp [hpayload] at hout
  | some payload =>
    rw [hpayload, Option.map_some, Option.toList_some, List.mem_singleton] at hout
    have hone := h payload hpayload
    rcases (n.finalize ctx.parsers).2.processChunk_cases ctx.parsers payload with hskip | ⟨q, hq⟩
    · rw [hskip] at hout
      rw [hout]
      exact hone
    · rw [(effectivePayload_of_emitted hq).1] at hout
      obtain ⟨v, hdoc, hidx⟩ := hone
      refine .of_readable hdoc hidx (readable_step ctx.parsers (n.finalize ctx.parsers).2 hdoc.read ?_)
      rw [ReasoningNormalizer.step, hq, hout]
      exact List.mem_singleton_self _

/-- The end of a stream whose normalizer holds nothing: the last chunk is restored, and then comes what the restoration
stage holds. -/
theorem end_spec (ctx : StreamContext) {s : StreamingState} {stage : PiiRestorationStage} (hs : s.Restoring stage)
    (hfresh : stage.Fresh) (hdrained : s.normalizer.Drained) {last : UpstreamEvent} (hends : last.finishes = true) {i : Nat}
    (h : ∀ payload ∈ last.lastPayload, OfChoice i payload) :
    (s.processChunk ctx last).2.flatMap Frame.content =
      entriesContent
        (emittedEntries parsePayload (lastPayloads ctx s.normalizer last)
            (stage.processChunks ctx.chars parsePayload (lastPayloads ctx s.normalizer last)).1 ++
          residualEntries ((stage.processChunks ctx.chars parsePayload (lastPayloads ctx s.normalizer last)).2.finalize
            ctx.chars).1) := by
  have hones := ofChoice_lastPayloads ctx (n := s.normalizer) h
  have hfinalize : s.finalizeNormalizer ctx = ([], { s with normalizer := (s.normalizer.finalize ctx.parsers).2 }) := by
    unfold finalizeNormalizer
    dsimp only
    rw [ReasoningNormalizer.finalize_of_drained ctx.parsers hdrained]
    rfl
  have hnone : ∀ {s' : StreamingState}, s'.piiStage = some stage → last.lastPayload = none →
      (s'.finishChatStream ctx).1.flatMap Frame.content = entriesContent
        (emittedEntries parsePayload (lastPayloads ctx s.normalizer last)
            (stage.processChunks ctx.chars parsePayload (lastPayloads ctx s.normalizer last)).1 ++
          residualEntries ((stage.processChunks ctx.chars parsePayload (lastPayloads ctx s.normalizer last)).2.finalize
            ctx.chars).1) := by
    intro s' hs' hlast
    rw [lastPayloads, hlast]
    exact contents_finishChatStream hs' hfresh
  unfold processChunk
  rw [if_neg (by simp [hs.notDone, hs.notFailed])]
  cases last with
  | openai line =>
    have hline : jsonPayload line = some "[DONE]".toList := by simpa [UpstreamEvent.finishes] using hends
    dsimp only
    rw [processOpenaiFormat_done hline]
    unfold handleDoneSentinel
    rw [hfinalize]
    exact hnone hs.piiStage rfl
  | translated chunk =>
    cases chunk with
    | chunk payload => cases hends
    | done payload usage =>
      dsimp only
      unfold handleTranslatedDone
      rw [hfinalize]
      dsimp only
      by_cases hnull : isNull payload = true
      · rw [if_pos hnull]
        exact hnone hs.piiStage (if_pos hnull)
      · rw [if_neg hnull]
        have hlast : lastPayloads ctx s.normalizer (.translated (.done payload usage)) =
            [effectivePayload (write (forwardUsage payload usage)) ((s.normalizer.finalize ctx.parsers).2.processChunk
              ctx.parsers (write (forwardUsage payload usage))).1] := by
          rw [lastPayloads, UpstreamEvent.lastPayload, if_neg hnull]
          rfl
        rw [hlast] at hones ⊢
        generalize hout : effectivePayload (write (forwardUsage payload usage)) _ = out at hones ⊢
        rw [normalize_eq]
        dsimp only
        rw [hout, deliverPayloadThroughPii_eq]
        have hs' : (StreamingState.normalized ctx { s with normalizer := (s.normalizer.finalize ctx.parsers).2 }
            (write (forwardUsage payload usage))).Restoring stage := ⟨⟨hs.notDone, hs.notFailed⟩, hs.piiStage, hs.reads⟩
        obtain ⟨-, hstate, hkeeps, hcontent⟩ := deliver_spec ctx hs' (hones out (List.mem_singleton_self _))
        dsimp only [Prod.swap]
        rw [List.nil_append, List.flatMap_append, hcontent, hstate,
          contents_finishChatStream rfl (hkeeps.fresh hfresh), entriesContent_append]

/-! ### Streams of a session -/

/-- The state before the first chunk of a stream. -/
def start (s : PiiSession) (order order' : HashOrder) : StreamingState where
  normalizer := .new
  piiStage := some (.new s order order')
  doneSent := false
  failed := none

/-- What the normalizer produces in a stream: for its chunks, of what it holds then, and for the last chunk. -/
def producedPayloads (ctx : StreamContext) (events : List UpstreamEvent) (last : UpstreamEvent) : List Text :=
  normalizedPayloads ctx .new events ++ ((normalizerAfter ctx .new events).finalize ctx.parsers).1.toList ++
    lastPayloads ctx (normalizerAfter ctx .new events) last

/-- The content that the client reads in a stream. -/
def clientContent (ctx : StreamContext) (s : StreamingState) (events : List UpstreamEvent) : Text :=
  (emitted (processChunk ctx) s events).flatMap Frame.content

/-- A stream that is not sanitized. -/
def plainContext : StreamContext := ⟨.ascii, ReasoningNormalizer.noBlocks, false, []⟩

/-- A line with a chunk that carries content. -/
def contentLine (content : String) : UpstreamEvent :=
  .openai ("data: \x7b\"choices\":[\x7b\"index\":0,\"delta\":\x7b\"content\":\"".toList ++ content.toList ++
    "\"\x7d\x7d]\x7d".toList)

def doneLine : UpstreamEvent := .openai "data: [DONE]".toList

/-- A name that is cut. -/
def nameLines : List UpstreamEvent := [contentLine "Hi Al", contentLine "ex Vance."]

/-- A text that ends in an inline tool call that is not closed. -/
def unclosedLines : List UpstreamEvent := [contentLine "Hi Al<tool_call>Alex Vance"]

end StreamingState

end OpenProxy.Streaming
