import OpenProxy.Streaming.FastChunk

/-!
# What the normalizer emits

Every payload that the normalizer emits for one that can be read is the payload with its chunk reshaped
(`readable_step`).
-/

namespace OpenProxy.Streaming

open Json Inline Think

/-- The payload can be read, as a chunk that has been reshaped. -/
def Readable (v : Json) (out : Text) : Prop := ∃ v', read out = some v' ∧ Reshapes v v'

theorem Readable.of_read {v : Json} {payload : Text} (h : read payload = some v) : Readable v payload := ⟨v, h, .refl v⟩

theorem readable_write {v v' : Json} (h : Reshapes v v') : Readable v (write v') := ⟨v', read_write v', h⟩

theorem Readable.trans {v v' : Json} {out : Text} (h : Reshapes v v') (h' : Readable v' out) : Readable v out := by
  obtain ⟨u, hu, hreshapes⟩ := h'
  exact ⟨u, hu, h.trans hreshapes⟩

/-- What is read of a payload with a limit is read of what has been made of it. -/
theorem Readable.exists_fromStr {v : Json} {out : Text} (h : Readable v out) (hdepth : v.depth ≤ 127) :
    ∃ v', OpenProxy.fromStr out = some v' ∧ Reshapes v v' := by
  obtain ⟨u, hu, hreshapes⟩ := h
  have hlimit : u.depth ≤ 127 := hreshapes.depth.trans (max_le hdepth (by decide))
  exact ⟨u.normal, fromStr_eq_some.mpr ⟨u, hu, hlimit, rfl⟩, hreshapes.trans (reshapes_normal u)⟩

namespace ReasoningNormalizer

theorem readable_applyReasoningNormalizations (s : ReasoningNormalizer) {payload : Text} {v : Json}
    (hread : read payload = some v) :
    Readable v ((s.applyReasoningNormalizations payload).1.getD payload) := by
  have hnormalized : Readable v ((normalizeNonstandardReasoningFields payload).getD payload) := by
    cases hout : normalizeNonstandardReasoningFields payload with
    | none => exact .of_read hread
    | some out =>
      have hsome : (OpenProxy.fromStr payload).isSome = true := by
        unfold normalizeNonstandardReasoningFields at hout
        split at hout
        · cases hfrom : OpenProxy.fromStr payload with
          | none => simp [hfrom] at hout
          | some _ => rfl
        · cases hout
      obtain ⟨w, hw⟩ := Option.isSome_iff_exists.mp hsome
      obtain ⟨u, hu, -, rfl⟩ := fromStr_eq_some.mp hw
      obtain ⟨v', hv', hreshapes⟩ := reshapes_normalizeNonstandard hw hout
      rw [hread, Option.some.injEq] at hu
      subst hu
      exact ⟨v', hv', (reshapes_normal v).trans hreshapes⟩
  unfold applyReasoningNormalizations
  dsimp only
  split
  · exact hnormalized
  · split
    · exact hnormalized
    · split
      · exact hnormalized
      · rename_i fc hfc
        obtain ⟨u, hu, hreshapes⟩ := reshapes_normalizeChunk s hfc
        obtain ⟨v', hv', hbefore⟩ := hnormalized
        rw [hv', Option.some.injEq] at hu
        subst hu
        split
        · exact readable_write (hbefore.trans hreshapes)
        · exact ⟨_, hv', hbefore⟩

end ReasoningNormalizer

/-! ### Inline tool calls -/

private theorem depth_toolCallValue (index : Nat) (call : ParsedToolCall) :
    (InlineToolStreamExtractor.toolCallValue index call).depth = 2 := by
  simp [InlineToolStreamExtractor.toolCallValue, depth, fieldsDepth]

/-- A delta that is given tool calls, with a text or without. -/
theorem carries_insertToolCalls (fields : List (Text × Json)) (calls : List Json) :
    carries (object (insertField Key.toolCalls (array calls) fields)) = true := by
  simp [carries, get_object, getField_insertField, asArray]

theorem carries_setContent (text : Text) (fields : List (Text × Json)) :
    carries (Streaming.setField Key.content (string text) (object fields)) = true := by
  simp [carries, get_setField, asStr]

/-- The calls of a block as they are put into a delta. -/
theorem depth_buildToolCallsValue (x : InlineToolStreamExtractor) (calls : List ParsedToolCall) :
    (array (x.buildToolCallsValue calls).1).depth ≤ 3 := by
  rw [show 3 = 2 + 1 from rfl, depth_array_le]
  intro item hitem
  rw [InlineToolStreamExtractor.buildToolCallsValue, List.mem_map] at hitem
  obtain ⟨call, -, rfl⟩ := hitem
  exact (depth_toolCallValue _ _).le

section

variable {chunkVal choice : Json} {fields : List (Text × Json)} (hfirst : firstChoice chunkVal = some choice)
  (hdelta : choice.get Key.delta = some (object fields))

include hfirst

theorem reshapes_setFinish (reason : Text) :
    Reshapes chunkVal (setFirstChoice (Streaming.setField Key.finishReason (string reason) choice) chunkVal) := by
  refine reshapes_setFirstChoice hfirst ?_ (follows_setFinish choice reason)
  have hset := depth_setField_le Key.finishReason (string reason) choice
  have houter := depth_firstChoice hfirst
  simp only [depth, insertedDepth] at hset ⊢
  omega

include hdelta

theorem reshapes_setContent (text : Text) :
    Reshapes chunkVal (setFirstChoice (Streaming.setField Key.delta
      (Streaming.setField Key.content (string text) (object fields)) choice) chunkVal) := by
  refine reshapes_setFirstChoice hfirst ?_ (follows_setDelta hdelta fun _ => carries_setContent text fields)
  have hset := depth_setField_le Key.delta (Streaming.setField Key.content (string text) (object fields)) choice
  have hinner := depth_setField_le Key.content (string text) (object fields)
  have houter := depth_firstChoice hfirst
  have hlt := depth_lt_of_get hdelta
  simp only [depth, insertedDepth] at hset hinner hlt ⊢
  omega

/-- A first choice that is given tool calls. -/
theorem reshapes_setToolCalls (x : InlineToolStreamExtractor) (calls : List ParsedToolCall) {fields' : List (Text × Json)}
    (hfields : fieldsDepth fields' ≤ fieldsDepth fields) (finish : Bool) :
    Reshapes chunkVal (setFirstChoice
      (let choice' := Streaming.setField Key.delta
        (object (insertField Key.toolCalls (array (x.buildToolCallsValue calls).1) fields')) choice
      if finish then Streaming.setField Key.finishReason (string "tool_calls".toList) choice' else choice') chunkVal) := by
  dsimp only
  have hfollows : Follows choice (Streaming.setField Key.delta
      (object (insertField Key.toolCalls (array (x.buildToolCallsValue calls).1) fields')) choice) :=
    follows_setDelta hdelta fun _ => carries_insertToolCalls fields' _
  have hdepth : (Streaming.setField Key.delta
      (object (insertField Key.toolCalls (array (x.buildToolCallsValue calls).1) fields')) choice).depth + 2 ≤
        max chunkVal.depth insertedDepth := by
    have hset := depth_setField_le Key.delta
      (object (insertField Key.toolCalls (array (x.buildToolCallsValue calls).1) fields')) choice
    have hinsert := fieldsDepth_insertField_le Key.toolCalls (array (x.buildToolCallsValue calls).1) fields'
    have hcalls := depth_buildToolCallsValue x calls
    have houter := depth_firstChoice hfirst
    have hlt := depth_lt_of_get hdelta
    rw [depth] at hlt
    rw [depth.eq_def (object _)] at hset
    simp only [insertedDepth] at hset ⊢
    omega
  split
  · refine reshapes_setFirstChoice hfirst ?_ (hfollows.trans (follows_setFinish _ _))
    have hset := depth_setField_le Key.finishReason (string "tool_calls".toList) (Streaming.setField Key.delta
      (object (insertField Key.toolCalls (array (x.buildToolCallsValue calls).1) fields')) choice)
    have hstring : (string "tool_calls".toList).depth = 0 := by simp [depth]
    have hseven : insertedDepth = 7 := rfl
    omega
  · exact reshapes_setFirstChoice hfirst hdepth hfollows

end

theorem reshapes_rewriteChunk {x : InlineToolStreamExtractor} {isStop : Bool} {chunkVal choice delta : Json}
    {contentVal out : Text} {r : InlineToolStreamExtractor.Scanned} (hfirst : firstChoice chunkVal = some choice)
    (hdelta : choice.get Key.delta = some delta) (hcontent : (delta.get Key.content).bind asStr = some contentVal)
    (h : (x.rewriteChunk isStop chunkVal choice delta contentVal r).1 = .mutate out) :
    ∃ v', out = write v' ∧ Reshapes chunkVal v' := by
  obtain ⟨fields, rfl⟩ : ∃ fields, delta = object fields := by
    cases delta with
    | object fields => exact ⟨fields, rfl⟩
    | null | bool b | number n | string s | array items => cases hcontent
  unfold InlineToolStreamExtractor.rewriteChunk at h
  dsimp only at h
  split at h
  · -- the block has calls
    cases h
    refine ⟨_, rfl, ?_⟩
    refine reshapes_setToolCalls hfirst hdelta x r.calls ?_ _
    split
    · exact fieldsDepth_removeField_le _ _
    · exact fieldsDepth_insertString_le _ _ _
  · split at h
    · split at h
      · cases h
      · cases h
        exact ⟨_, rfl, reshapes_setContent hfirst hdelta _⟩
    · split at h
      · cases h
        exact ⟨_, rfl, reshapes_setFinish hfirst _⟩
      · split at h
        · cases h
          exact ⟨_, rfl, reshapes_setContent hfirst hdelta _⟩
        · cases h

theorem reshapes_processValue {p : ToolParsers} {x : InlineToolStreamExtractor} {chunkVal : Json} {out : Text}
    (h : (x.processValue p chunkVal).1 = .mutate out) : ∃ v', out = write v' ∧ Reshapes chunkVal v' := by
  unfold InlineToolStreamExtractor.processValue at h
  split at h
  · cases h
  · rename_i choice hfirst
    split at h
    · cases h
      exact ⟨_, rfl, reshapes_setFinish hfirst _⟩
    · split at h
      · cases h
      · rename_i delta hdelta
        split at h
        · cases h
        · rename_i contentVal hcontent
          split at h
          · cases h
          · exact reshapes_rewriteChunk hfirst hdelta hcontent h

theorem readable_processChunk {p : ToolParsers} {x : InlineToolStreamExtractor} {payload out : Text} {v : Json}
    (hread : read payload = some v) (hout : (x.processChunk p payload).1 = .mutate out) : Readable v out := by
  unfold InlineToolStreamExtractor.processChunk at hout
  split at hout
  · split at hout
    · rename_i res hres
      cases hout
      split at hres
      · obtain ⟨v', hv', hblank⟩ := InlineToolStreamExtractor.read_replaceFinish hread hres
        exact ⟨v', hv', reshapes_of_blank hblank⟩
      · cases hres
    · cases hout
  · split at hout
    · cases hout
    · rename_i chunkVal hfrom
      obtain ⟨u, hu, -, rfl⟩ := fromStr_eq_some.mp hfrom
      rw [hread, Option.some.injEq] at hu
      subst hu
      obtain ⟨v', rfl, hreshapes⟩ := reshapes_processValue hout
      exact readable_write ((reshapes_normal v).trans hreshapes)

/-- What the normalizer emits for a payload that can be read. -/
theorem readable_step (p : ToolParsers) (s : ReasoningNormalizer) {payload out : Text} {v : Json}
    (hread : read payload = some v) (hout : out ∈ (s.step p payload).2) : Readable v out := by
  obtain ⟨v', hv', hbefore⟩ := s.readable_applyReasoningNormalizations hread
  rw [ReasoningNormalizer.step, Option.mem_toList] at hout
  unfold ReasoningNormalizer.processChunk at hout
  dsimp only at hout
  split at hout
  · -- the extractor of tool calls forwards what it was given
    rename_i payload' _ hnormalized
    cases hout
    rw [hnormalized, Option.getD_some] at hv'
    exact ⟨v', hv', hbefore⟩
  · cases haction : ((s.applyReasoningNormalizations payload).2.inlineToolExtractor.processChunk p
        ((s.applyReasoningNormalizations payload).1.getD payload)).1 with
    | passthrough =>
      rw [haction] at hout
      cases hout
      exact .of_read hread
    | mutate out' =>
      rw [haction] at hout
      cases hout
      exact .trans hbefore (readable_processChunk hv' haction)
    | skip => rw [haction] at hout; cases hout
    | done => rw [haction] at hout; cases hout

end OpenProxy.Streaming
