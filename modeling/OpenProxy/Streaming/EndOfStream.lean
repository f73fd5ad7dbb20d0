import OpenProxy.Streaming.Normalizer
import OpenProxy.Inline.Invariant
import OpenProxy.Think.Stream

/-!
# The end of a normalized stream

Every payload that the reasoning normalizer emits for a chunk is a chunk.  At the end of the stream, `finalize` gives
the text that the extractors still hold back, as a chunk if it is the extractor of inline tool calls that holds it.  The
text that the extractor of reasoning blocks holds is lost or given as it is, so that nothing is lost and only chunks are
emitted if and only if that extractor holds nothing back (`run_delivers_iff`).
-/

namespace OpenProxy.Streaming

open Json Inline Think
open InlineToolStreamExtractor (finalCalls finalChunk finalText)

/-! ### Renaming fields -/

theorem isChunk_normalizeNonstandard {payload out : Text} (h : IsChunk payload)
    (hout : normalizeNonstandardReasoningFields payload = some out) : IsChunk out := by
  unfold normalizeNonstandardReasoningFields at hout
  split at hout
  · simp only [Option.bind_eq_some_iff, Option.map_eq_some_iff] at hout
    obtain ⟨v, hv, choice, -, delta, -, obj, -, rfl⟩ := hout
    exact isChunk_write (isSome_choices_setFirstChoice _ (isSome_choices_of_fromStr h hv))
  · cases hout

/-! ### Chunks as structures -/

/-- A chunk that has been read has no field `choices` besides its choices. -/
theorem FastChunk.getField_extra {payload : Text} {fc : FastChunk} (h : FastChunk.fromStr payload = some fc) :
    getField fc.extra Key.choices = none := by
  simp only [FastChunk.fromStr, Option.bind_eq_bind, Option.bind_eq_some_iff] at h
  obtain ⟨v, -, fields, -, choices, -, h⟩ := h
  cases h
  exact getField_extraFields (by simp) fields

theorem FastChunk.isChunk_encode {fc : FastChunk} (hextra : getField fc.extra Key.choices = none)
    (hchoices : fc.choices.isSome = true) : IsChunk (write fc.encode) := by
  apply isChunk_write
  obtain ⟨choices, hchoices⟩ := Option.isSome_iff_exists.mp hchoices
  simp [FastChunk.encode, hchoices, encodeOptional, choices_object, getField_cons, hextra, asArray]

namespace ReasoningNormalizer

/-- A chunk whose first choice has been changed has choices, and the other fields it had before. -/
theorem normalizeChunk_spec (s : ReasoningNormalizer) (fc : FastChunk) :
    (s.normalizeChunk fc).1.1.extra = fc.extra ∧
      ((s.normalizeChunk fc).1.2 = true → (s.normalizeChunk fc).1.1.choices.isSome = true) := by
  unfold normalizeChunk
  split
  · split
    · exact ⟨rfl, fun _ => rfl⟩
    · exact ⟨rfl, fun h => by cases h⟩
  · exact ⟨rfl, fun h => by cases h⟩

theorem isChunk_applyReasoningNormalizations {s : ReasoningNormalizer} {payload out : Text} (h : IsChunk payload)
    (hout : (s.applyReasoningNormalizations payload).1 = some out) : IsChunk out := by
  unfold applyReasoningNormalizations at hout
  simp only at hout
  have hnormalized : normalizeNonstandardReasoningFields payload = some out → IsChunk out :=
    isChunk_normalizeNonstandard h
  split at hout
  · exact hnormalized hout
  · split at hout
    · exact hnormalized hout
    · split at hout
      · exact hnormalized hout
      · rename_i fc hfc
        obtain ⟨hextra, hchoices⟩ := s.normalizeChunk_spec fc
        split at hout
        · rename_i hmodified
          cases hout
          exact FastChunk.isChunk_encode (hextra ▸ FastChunk.getField_extra hfc) (hchoices hmodified)
        · exact hnormalized hout

/-! ### Runs -/

/-- One chunk: the state after it and the payload that goes on. -/
def step (p : ToolParsers) (s : ReasoningNormalizer) (payload : Text) : ReasoningNormalizer × List Text :=
  ((s.processChunk p payload).2, ((s.processChunk p payload).1.emitted payload).toList)

/-- What a chunk becomes is a chunk. -/
theorem isChunk_step (p : ToolParsers) {s : ReasoningNormalizer} {payload out : Text} (h : IsChunk payload)
    (hout : out ∈ (s.step p payload).2) : IsChunk out := by
  have hreasoning : IsChunk ((s.applyReasoningNormalizations payload).1.getD payload) := by
    cases hnormalized : (s.applyReasoningNormalizations payload).1 with
    | none => exact h
    | some payload' => exact isChunk_applyReasoningNormalizations h hnormalized
  rw [step, Option.mem_toList] at hout
  unfold processChunk at hout
  simp only at hout
  split at hout
  · -- the extractor of tool calls forwards what it was given
    rename_i payload' _ hnormalized
    cases hout
    rw [hnormalized] at hreasoning
    exact hreasoning
  · rename_i hforward
    cases haction : ((s.applyReasoningNormalizations payload).2.inlineToolExtractor.processChunk p
        ((s.applyReasoningNormalizations payload).1.getD payload)).1 with
    | passthrough =>
      rw [haction] at hout
      cases hout
      exact h
    | mutate out' =>
      rw [haction] at hout
      cases hout
      exact InlineToolStreamExtractor.isChunk_processChunk hreasoning haction
    | skip => rw [haction] at hout; cases hout
    | done => rw [haction] at hout; cases hout

/-- What the extractors can hold back in a state that a run reaches. -/
structure Holding (s : ReasoningNormalizer) : Prop where
  think : s.thinkExtractor.WellFormed
  inline : s.inlineToolExtractor.Held

theorem new_holding : new.Holding := ⟨ThinkStreamExtractor.new_wellFormed, InlineToolStreamExtractor.new_held⟩

theorem normalizeChoiceContent_wellFormed {x : ThinkStreamExtractor} (h : x.WellFormed) (delta : FastDelta) :
    (normalizeChoiceContent delta x).2.WellFormed := by
  unfold normalizeChoiceContent
  split
  · exact h
  · simp only
    split
    · exact h
    · split
      · exact h
      · exact (ThinkStreamExtractor.process_spec h _).wf

theorem applyReasoningNormalizations_holding {s : ReasoningNormalizer} (h : s.Holding) (payload : Text) :
    (s.applyReasoningNormalizations payload).2.Holding := by
  have hchunk : ∀ fc, (s.normalizeChunk fc).2.Holding := by
    intro fc
    unfold normalizeChunk
    split
    · split
      · exact ⟨normalizeChoiceContent_wellFormed h.think _, h.inline⟩
      · exact h
    · exact h
  unfold applyReasoningNormalizations
  simp only
  split
  · exact h
  · split
    · exact h
    · split
      · exact h
      · split
        · exact hchunk _
        · exact hchunk _

theorem step_holding (p : ToolParsers) {s : ReasoningNormalizer} (h : s.Holding) (payload : Text) :
    (s.step p payload).1.Holding := by
  have happly := applyReasoningNormalizations_holding h payload
  exact ⟨happly.think, InlineToolStreamExtractor.processChunk_held p happly.inline _⟩

theorem runState_holding (p : ToolParsers) {s : ReasoningNormalizer} (h : s.Holding) (payloads : List Text) :
    (runState (step p) s payloads).Holding := by
  induction payloads generalizing s with
  | nil => exact h
  | cons payload payloads ih => exact ih (step_holding p h payload)

theorem isChunk_emitted (p : ToolParsers) (s : ReasoningNormalizer) {payloads : List Text}
    (h : ∀ payload ∈ payloads, IsChunk payload) : ∀ out ∈ emitted (step p) s payloads, IsChunk out := by
  induction payloads generalizing s with
  | nil => simp
  | cons payload payloads ih =>
    intro out hout
    rw [emitted_cons, List.mem_append] at hout
    rcases hout with hout | hout
    · exact isChunk_step p (h payload (by simp)) hout
    · exact ih _ (fun payload hmem => h payload (by simp [hmem])) out hout

/-! ### The end of the stream -/

/-- The delta of the first choice of a payload. -/
def deltaOf (payload : Text) : Option Json := ((read payload).bind firstChoice).bind (·.get Key.delta)

/-- A text field of the delta. -/
def textOf (key : Text) (out : Option Text) : Text := (((out.bind deltaOf).bind (·.get key)).bind asStr).getD []

/-- The tool calls of the delta. -/
def toolCallsOf (out : Option Text) : List Json :=
  (((out.bind deltaOf).bind (·.get Key.toolCalls)).bind asArray).getD []

/-- What `finalize` gives is a chunk, and every character that was held back is in it once: as content or reasoning,
or in the text of a block whose calls it has. -/
structure Delivers (p : ToolParsers) (s : ReasoningNormalizer) : Prop where
  isChunk : ∀ out ∈ (s.finalize p).1, IsChunk out
  text : (textOf Key.content (s.finalize p).1 ++ textOf Key.reasoningContent (s.finalize p).1).Perm
    (s.inlineToolExtractor.finalText p ++ s.thinkExtractor.tagBuffer)
  calls : toolCallsOf (s.finalize p).1 = s.inlineToolExtractor.finalCalls p

/-- What is read back of a chunk that `finalize` writes. -/
theorem deltaOf_finalChunk (delta : List (Text × Json)) (finishReason : Json) :
    deltaOf (write (finalChunk delta finishReason)) = some (object delta) := by
  have hdelta : Key.delta ≠ Key.finishReason ∧ Key.delta ≠ Key.index := by decide
  simp [deltaOf, read_write, finalChunk, firstChoice, choices_object, getField_cons, asArray,
    Json.get, asObject, hdelta.1.symm, hdelta.2.symm]

theorem isChunk_finalChunk (delta : List (Text × Json)) (finishReason : Json) :
    IsChunk (write (finalChunk delta finishReason)) := by
  apply isChunk_write
  simp [finalChunk, choices_object, getField_cons, asArray]

private theorem fields_ne : Key.content ≠ Key.reasoningContent ∧ Key.content ≠ Key.toolCalls ∧
    Key.toolCalls ≠ Key.reasoningContent := by decide

section

variable {p : ToolParsers} {s : ReasoningNormalizer}

theorem finalize_of_inline {out : Text} (h : (s.inlineToolExtractor.finalize p).1 = some out) :
    (s.finalize p).1 = some out := by
  unfold finalize
  split
  · rename_i out' inline heq
    rw [heq] at h
    exact h
  · rename_i inline heq
    rw [heq] at h
    cases h

theorem finalize_of_think (h : (s.inlineToolExtractor.finalize p).1 = none) :
    (s.finalize p).1 = if s.thinkExtractor.flush.1.1.isEmpty then none else some s.thinkExtractor.flush.1.1 := by
  unfold finalize
  split
  · rename_i out' inline heq
    rw [heq] at h
    cases h
  · rfl

/-- Text that the extractor of reasoning blocks holds outside a block is given as it is; it begins with a bracket. -/
theorem exists_flush_eq (h : s.Holding) (hne : s.thinkExtractor.tagBuffer ≠ []) :
    s.thinkExtractor.flush.1.1 = [] ∨ ∃ t, s.thinkExtractor.flush.1.1 = '<' :: t := by
  unfold ThinkStreamExtractor.flush
  split
  · exact Or.inl rfl
  · split
    · exact Or.inl rfl
    · rename_i hout
      rw [Bool.not_eq_true] at hout
      refine Or.inr ?_
      obtain ⟨tag, htag, hprefix⟩ := h.think.isPartial hout
      have hhead : ∀ tag ∈ thinkOpenTags, (lower tag).head? = some '<' := by decide
      obtain ⟨t, ht⟩ := List.head?_eq_some_iff.mp (hhead tag htag)
      cases hbuffer : s.thinkExtractor.tagBuffer with
      | nil => exact absurd hbuffer hne
      | cons c b =>
        rw [hbuffer, ht, lower_cons, List.cons_prefix_cons] at hprefix
        rw [eq_of_toLower_eq (by decide) hprefix.1]
        exact ⟨b, rfl⟩

/-- If the extractor of reasoning blocks holds nothing, everything is delivered. -/
theorem delivers_of_nil (h : s.Holding) (hnil : s.thinkExtractor.tagBuffer = []) : s.Delivers p := by
  have hflush : s.thinkExtractor.flush.1.1 = [] := by simp [ThinkStreamExtractor.flush, hnil]
  rcases InlineToolStreamExtractor.finalize_eq p h.inline with ⟨hres, hfin⟩ | ⟨-, calls, reason, hparse, hfin⟩ |
    ⟨-, hparse, hfin⟩
  · have hout : (s.finalize p).1 = none := by simp [finalize_of_think hfin, hflush]
    have hparse : p.parseToolBlock [] = none := by simp [ToolParsers.parseToolBlock, trim]
    refine ⟨by simp [hout], ?_, ?_⟩
    · simp [hout, textOf, finalText, hres, hnil]
    · simp [hout, toolCallsOf, finalCalls, hres, hparse]
  · have hout := finalize_of_inline hfin
    refine ⟨?_, ?_, ?_⟩
    · rw [hout]
      rintro out ⟨⟩
      exact isChunk_finalChunk _ _
    · simp [hout, textOf, deltaOf_finalChunk, finalText, hparse, hnil, Json.get, asObject,
        getField_cons, fields_ne.2.1.symm, fields_ne.2.2]
    · simp [hout, toolCallsOf, deltaOf_finalChunk, Json.get, asObject, getField_cons, asArray]
  · have hout := finalize_of_inline hfin
    refine ⟨?_, ?_, ?_⟩
    · rw [hout]
      rintro out ⟨⟩
      exact isChunk_finalChunk _ _
    · simp [hout, textOf, deltaOf_finalChunk, finalText, hparse, hnil, Json.get, asObject,
        getField_cons, fields_ne.1, asStr]
    · simp [hout, toolCallsOf, deltaOf_finalChunk, finalCalls, hparse, Json.get, asObject,
        getField_cons, fields_ne.2.1]

/-- If the extractor of reasoning blocks holds text, it is lost or not given in a chunk. -/
theorem not_delivers_of_ne_nil (h : s.Holding) (hne : s.thinkExtractor.tagBuffer ≠ []) : ¬ s.Delivers p := by
  intro hdelivers
  have hpos : 0 < s.thinkExtractor.tagBuffer.length := List.length_pos_iff.mpr hne
  have hlength := hdelivers.text.length_eq
  rw [List.length_append, List.length_append] at hlength
  rcases InlineToolStreamExtractor.finalize_eq p h.inline with ⟨hres, hfin⟩ | ⟨-, calls, reason, hparse, hfin⟩ |
    ⟨-, hparse, hfin⟩
  · have hout := finalize_of_think hfin
    rcases exists_flush_eq h hne with hflush | ⟨t, hflush⟩
    · -- inside a block nothing is given
      rw [hflush] at hout
      have htext : ∀ key, textOf key (s.finalize p).1 = [] := by simp [hout, textOf]
      rw [htext, htext, List.length_nil] at hlength
      omega
    · -- outside a block the text is given as it is
      rw [hflush] at hout
      exact not_isChunk_of_angle t (hdelivers.isChunk _ (by rw [hout]; rfl))
  · have hout := finalize_of_inline hfin
    have htext : ∀ key, key ≠ Key.toolCalls → textOf key (s.finalize p).1 = [] := by
      intro key hkey
      simp [hout, textOf, deltaOf_finalChunk, Json.get, asObject, getField_cons, hkey.symm]
    rw [htext _ fields_ne.2.1, htext _ fields_ne.2.2.symm, List.length_nil] at hlength
    omega
  · have hout := finalize_of_inline hfin
    have hcontent : textOf Key.content (s.finalize p).1 = s.inlineToolExtractor.residual := by
      simp [hout, textOf, deltaOf_finalChunk, Json.get, asObject, getField_cons, asStr]
    have hreasoning : textOf Key.reasoningContent (s.finalize p).1 = [] := by
      simp [hout, textOf, deltaOf_finalChunk, Json.get, asObject, getField_cons, fields_ne.1]
    have hfinal : s.inlineToolExtractor.finalText p = s.inlineToolExtractor.residual := by
      simp [finalText, hparse]
    rw [hcontent, hreasoning, hfinal, List.length_nil] at hlength
    omega

end

/-- Over every stream of chunks: the stage emits chunks only and the end of the stream delivers all that is held back,
if and only if the extractor of reasoning blocks holds nothing back at the end. -/
theorem run_delivers_iff (p : ToolParsers) (payloads : List Text) (hchunks : ∀ payload ∈ payloads, IsChunk payload) :
    ((∀ out ∈ emitted (step p) new payloads, IsChunk out) ∧ (runState (step p) new payloads).Delivers p) ↔
      (runState (step p) new payloads).thinkExtractor.tagBuffer = [] := by
  have hholding := runState_holding p new_holding payloads
  constructor
  · rintro ⟨-, hdelivers⟩
    by_contra hne
    exact not_delivers_of_ne_nil hholding hne hdelivers
  · intro hnil
    exact ⟨isChunk_emitted p new hchunks, delivers_of_nil hholding hnil⟩

/-- Parsers for which no text is a block of calls. -/
def noBlocks : ToolParsers := ⟨⟨fun _ => none, nofun⟩, ⟨fun _ => none, nofun⟩⟩

/-- A chunk whose content ends with the beginning of an inline tag. -/
def toolPayload : Text :=
  "\x7b\"choices\":[\x7b\"index\":0,\"delta\":\x7b\"content\":\"a <tool\"\x7d,\"finish_reason\":null\x7d]\x7d".toList

/-- A chunk whose content ends with the beginning of a reasoning block. -/
def thinkPayload : Text :=
  "\x7b\"choices\":[\x7b\"index\":0,\"delta\":\x7b\"content\":\"a <thin\"\x7d,\"finish_reason\":null\x7d]\x7d".toList

theorem run_delivers_tool :
    (∀ payload ∈ [toolPayload], IsChunk payload) ∧
      (runState (step noBlocks) new [toolPayload]).inlineToolExtractor.residual = "<tool".toList ∧
      (runState (step noBlocks) new [toolPayload]).Delivers noBlocks := by
  have hpayload : toolPayload = _ := String.toList_ofList
  have hread : (∀ payload ∈ [toolPayload], IsChunk payload) ∧
      (runState (step noBlocks) new [toolPayload]).inlineToolExtractor.residual = "<tool".toList ∧
      (runState (step noBlocks) new [toolPayload]).thinkExtractor.tagBuffer = [] := by
    rw [hpayload]
    decide +kernel
  exact ⟨hread.1, hread.2.1, ((run_delivers_iff noBlocks [toolPayload] hread.1).mpr hread.2.2).2⟩

theorem run_gives_raw_text :
    (∀ payload ∈ [thinkPayload], IsChunk payload) ∧
      ((runState (step noBlocks) new [thinkPayload]).finalize noBlocks).1 = some "<thin".toList ∧
      ¬ ((∀ out ∈ emitted (step noBlocks) new [thinkPayload], IsChunk out) ∧
        (runState (step noBlocks) new [thinkPayload]).Delivers noBlocks) := by
  have hpayload : thinkPayload = _ := String.toList_ofList
  have hread : (∀ payload ∈ [thinkPayload], IsChunk payload) ∧
      ((runState (step noBlocks) new [thinkPayload]).finalize noBlocks).1 = some "<thin".toList ∧
      (runState (step noBlocks) new [thinkPayload]).thinkExtractor.tagBuffer ≠ [] := by
    rw [hpayload]
    decide +kernel
  refine ⟨hread.1, hread.2.1, ?_⟩
  rintro ⟨-, hdelivers⟩
  exact not_delivers_of_ne_nil (runState_holding noBlocks new_holding _) hread.2.2 hdelivers

end ReasoningNormalizer

end OpenProxy.Streaming
