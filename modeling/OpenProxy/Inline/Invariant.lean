import OpenProxy.Inline.Extractor

/-!
# What the inline extractor emits and what it holds back

For a chunk, the extractor emits a chunk: it forwards the payload, replaces the text of its finish reason or writes the
value with another first choice.  The text that it holds back begins with the bracket of a tag or of the marker
(`Held`), so that it is never white space only, and `finalize` gives it all as a chunk (`finalize_eq`).
-/

namespace OpenProxy.Inline

open Json Streaming

/-! ### Finding tags -/

/-- A text that begins with a bracket. -/
def StartsTag (s : Text) : Prop := ∃ c t, s = c :: t ∧ (c = '<' ∨ c = '[')

theorem StartsTag.append {s : Text} (h : StartsTag s) (t : Text) : StartsTag (s ++ t) := by
  obtain ⟨c, u, rfl, hc⟩ := h
  exact ⟨c, u ++ t, rfl, hc⟩

/-- A bracket is no white space. -/
theorem StartsTag.trim_ne_nil {s : Text} (h : StartsTag s) : trim s ≠ [] := by
  intro htrim
  have hdelete := deleteWhitespace_trim s
  obtain ⟨c, t, rfl, hc⟩ := h
  have hspace : isWhitespace c = false := by
    rcases hc with rfl | rfl <;> decide
  rw [htrim] at hdelete
  simp [deleteWhitespace, hspace] at hdelete

/-- An occurrence of a tag begins as the tag does. -/
theorem startsTag_of_startsWith {s tag : Text} (htag : StartsTag tag) (h : startsWithIgnoreAsciiCase s tag = true) :
    StartsTag s := by
  obtain ⟨c, t, rfl, hc⟩ := htag
  rw [startsWith_iff, lower_cons] at h
  cases s with
  | nil => simp at h
  | cons d s =>
    rw [lower_cons, List.cons_prefix_cons] at h
    refine ⟨d, s, rfl, ?_⟩
    rcases hc with rfl | rfl
    · exact Or.inl (eq_of_toLower_eq (by decide) h.1.symm)
    · exact Or.inr (eq_of_toLower_eq (by decide) h.1.symm)

theorem startsTag_of_mem {tags : Text × Text} (h : tags ∈ toolTagCandidates) : StartsTag tags.1 := by
  have hhead : ∀ tags ∈ toolTagCandidates, tags.1.head? = some '<' := by decide
  obtain ⟨t, ht⟩ := List.head?_eq_some_iff.mp (hhead tags h)
  exact ⟨'<', t, ht, Or.inl rfl⟩

theorem startsTag_marker : StartsTag toolCallsMarker := ⟨'[', "TOOL_CALLS]".toList, by decide, Or.inr rfl⟩

/-- The earliest of several hits is one of them. -/
theorem foldl_earlierTag {hits : List (Option (Nat × Nat × Text))} {earliest : Option (Nat × Nat × Text)}
    {hit : Nat × Nat × Text} (h : hits.foldl earlierTag earliest = some hit) : earliest = some hit ∨ some hit ∈ hits := by
  induction hits generalizing earliest with
  | nil => exact Or.inl h
  | cons hit' hits ih =>
    rcases ih h with hfirst | hmem
    · unfold earlierTag at hfirst
      split at hfirst
      · split at hfirst
        · exact Or.inr (by simp [hfirst])
        · exact Or.inl hfirst
      · exact Or.inr (by simp [hfirst])
      · exact Or.inl hfirst
    · exact Or.inr (List.mem_cons_of_mem _ hmem)

theorem startsTag_of_findEarliestToolTag {input : Text} {hit : Nat × Nat × Text}
    (h : findEarliestToolTag input = some hit) : StartsTag (input.drop hit.1) := by
  rcases foldl_earlierTag h with hmarker | hmem
  · rw [Option.map_eq_some_iff] at hmarker
    obtain ⟨pos, hpos, rfl⟩ := hmarker
    exact startsTag_of_startsWith startsTag_marker (findIgnoreAsciiCase_eq_some.mp hpos).2.1
  · rw [List.mem_map] at hmem
    obtain ⟨tags, htags, hcandidate⟩ := hmem
    rw [candidateTag, Option.bind_eq_some_iff] at hcandidate
    obtain ⟨pos, hpos, hend⟩ := hcandidate
    rw [Option.map_eq_some_iff] at hend
    obtain ⟨tagEnd, -, rfl⟩ := hend
    have hat := (firstAt_eq_some.mp hpos).2.1
    rw [Bool.and_eq_true] at hat
    exact startsTag_of_startsWith (startsTag_of_mem htags) hat.1

/-- The last occurrence of a character is an occurrence of it. -/
theorem drop_of_rfind {c : Char} {s : Text} {n : Nat} (h : rfind c s = some n) : ∃ t, s.drop n = c :: t := by
  rw [rfind, Option.map_eq_some_iff] at h
  obtain ⟨k, hk, rfl⟩ := h
  rw [List.findIdx?_eq_some_iff_getElem] at hk
  obtain ⟨hlt, hc, -⟩ := hk
  rw [List.length_reverse] at hlt
  rw [List.getElem_reverse, beq_iff_eq] at hc
  refine ⟨s.drop (s.length - 1 - k + 1), ?_⟩
  rw [List.drop_eq_getElem_cons (by omega), hc]

theorem startsTag_of_extractTrailing {s : Text} (h : (extractTrailingPartialTagPrefix s).2 ≠ []) :
    StartsTag (extractTrailingPartialTagPrefix s).2 := by
  unfold extractTrailingPartialTagPrefix at h ⊢
  split
  · rename_i hnone
    simp [hnone] at h
  · rename_i start hstart
    simp only [hstart] at h ⊢
    split
    · have hat : rfind '<' s = some start ∨ rfind '[' s = some start := by
        unfold laterOf at hstart
        split at hstart
        · rename_i a b ha hb
          rw [Option.some.injEq] at hstart
          rcases Nat.le_total a b with hab | hab
          · exact Or.inr (by rw [hb, ← hstart, Nat.max_eq_right hab])
          · exact Or.inl (by rw [ha, ← hstart, Nat.max_eq_left hab])
        · rename_i a ha hb
          exact Or.inl (by rw [ha, hstart])
        · exact Or.inr hstart
      rcases hat with hat | hat
      · obtain ⟨t, ht⟩ := drop_of_rfind hat
        exact ⟨'<', t, ht, Or.inl rfl⟩
      · obtain ⟨t, ht⟩ := drop_of_rfind hat
        exact ⟨'[', t, ht, Or.inr rfl⟩
    · rename_i hneg
      rw [if_neg hneg] at h
      exact absurd rfl h

namespace InlineToolStreamExtractor

/-! ### The text that is held back -/

/-- Text is held back from the bracket of a tag on; outside a block, no block is held. -/
structure Held (x : InlineToolStreamExtractor) : Prop where
  partialTag : x.partialTagBuffer ≠ [] → StartsTag x.partialTagBuffer
  inside : x.insideToolCall = true → StartsTag x.toolBuffer
  outside : x.insideToolCall = false → x.toolBuffer = []

/-- Nothing is held back. -/
structure Idle (x : InlineToolStreamExtractor) : Prop where
  partialTag : x.partialTagBuffer = []
  outside : x.insideToolCall = false
  toolBuffer : x.toolBuffer = []

theorem Idle.held {x : InlineToolStreamExtractor} (h : x.Idle) : x.Held where
  partialTag hne := absurd h.partialTag hne
  inside hin := absurd (h.outside.symm.trans hin) (by decide)
  outside _ := h.toolBuffer

theorem new_held : new.Held := Idle.held ⟨rfl, rfl, rfl⟩

theorem Idle.addText {r : Scanned} (h : r.extractor.Idle) (part : Text) : (r.addText part).extractor.Idle := by
  unfold Scanned.addText
  split <;> exact h

theorem Idle.addBlock {r : Scanned} (h : r.extractor.Idle) (p : ToolParsers) (append : Text → Text → Text)
    (block : Text) : (r.addBlock p append block).extractor.Idle := by
  unfold Scanned.addBlock
  split
  · exact ⟨h.partialTag, h.outside, h.toolBuffer⟩
  · exact h

theorem scan_held (p : ToolParsers) (fuel : Nat) {r : Scanned} (h : r.extractor.Idle) (slice : Text) :
    (scan p fuel r slice).extractor.Held := by
  induction fuel generalizing r slice with
  | zero => exact h.held
  | succ fuel ih =>
    -- one round of the scan
    change (if slice.isEmpty = true then r else _ : Scanned).extractor.Held
    by_cases hempty : slice.isEmpty = true
    · rw [if_pos hempty]
      exact h.held
    · rw [if_neg hempty]
      cases hfind : findEarliestToolTag slice with
      | some tag =>
        obtain ⟨openStart, openEnd, closeTag⟩ := tag
        have htext : (r.addText (slice.take openStart)).extractor.Idle := h.addText _
        simp only
        split
        · exact ih (htext.addBlock p _ _) _
        · cases findCloseTagInBuffer (slice.drop openEnd) closeTag with
          | some closePos => exact ih (htext.addBlock p _ _) _
          | none =>
            -- the block is held from its opening tag on
            have htag : StartsTag (slice.drop openStart) := startsTag_of_findEarliestToolTag hfind
            refine ⟨fun hne => absurd htext.partialTag hne, fun _ => ?_, fun hout => by cases hout⟩
            simp only [htext.toolBuffer, List.nil_append]
            exact htag
      | none =>
        have htext : (r.addText (extractTrailingPartialTagPrefix slice).1).extractor.Idle := h.addText _
        simp only
        split
        · exact htext.held
        · refine ⟨fun hne => startsTag_of_extractTrailing hne, fun hin => ?_, fun _ => htext.toolBuffer⟩
          rw [htext.outside] at hin
          cases hin

theorem processContent_held (p : ToolParsers) {x : InlineToolStreamExtractor} (h : x.Held) (content : Text) :
    (x.processContent p content).2.Held := by
  unfold processContent
  simp only
  split
  · rename_i hin
    split
    · exact Idle.held ⟨rfl, rfl, rfl⟩
    · split
      · exact scan_held p _ (Idle.addBlock ⟨rfl, rfl, rfl⟩ p _ _) _
      · refine ⟨fun hne => absurd rfl hne, fun _ => (h.inside hin).append _, fun hout => ?_⟩
        rw [hin] at hout
        cases hout
  · rename_i hout
    rw [Bool.not_eq_true] at hout
    exact scan_held p _ ⟨rfl, hout, h.outside hout⟩ _

/-! ### One chunk -/

/-- The state of the extractor after writing the chunk, apart from the number of the next call. -/
theorem rewriteChunk_held {x : InlineToolStreamExtractor} (h : x.Held) (isStop : Bool) (chunkVal choice delta : Json)
    (contentVal : Text) (r : Scanned) : (x.rewriteChunk isStop chunkVal choice delta contentVal r).2.Held := by
  unfold rewriteChunk
  simp only
  split
  · exact ⟨h.partialTag, h.inside, h.outside⟩
  · split
    · split <;> exact h
    · split
      · exact h
      · split <;> exact h

theorem processChunk_held (p : ToolParsers) {x : InlineToolStreamExtractor} (h : x.Held) (payload : Text) :
    (x.processChunk p payload).2.Held := by
  have hvalue : ∀ chunkVal, (x.processValue p chunkVal).2.Held := by
    intro chunkVal
    unfold processValue
    split
    · exact h
    · split
      · exact h
      · split
        · exact h
        · split
          · exact h
          · rename_i contentVal _
            have hcontent := processContent_held p h contentVal
            split
            · rename_i x' hx'
              rw [hx'] at hcontent
              exact hcontent
            · rename_i r x' hx'
              rw [hx'] at hcontent
              exact rewriteChunk_held hcontent _ _ _ _ _ _
  unfold processChunk
  split
  · split <;> exact h
  · split
    · exact h
    · exact hvalue _

/-- A chunk that is written is the chunk that was read, with another first choice. -/
theorem rewriteChunk_mutate {x : InlineToolStreamExtractor} {isStop : Bool} {chunkVal choice delta : Json}
    {contentVal out : Text} {r : Scanned}
    (h : (x.rewriteChunk isStop chunkVal choice delta contentVal r).1 = .mutate out) :
    ∃ choice', out = write (setFirstChoice choice' chunkVal) := by
  unfold rewriteChunk at h
  simp only at h
  split at h
  · cases h
    exact ⟨_, rfl⟩
  · split at h
    · split at h
      · cases h
      · cases h
        exact ⟨_, rfl⟩
    · split at h
      · cases h
        exact ⟨_, rfl⟩
      · split at h
        · cases h
          exact ⟨_, rfl⟩
        · cases h

theorem processValue_mutate {p : ToolParsers} {x : InlineToolStreamExtractor} {chunkVal : Json} {out : Text}
    (h : (x.processValue p chunkVal).1 = .mutate out) : ∃ choice', out = write (setFirstChoice choice' chunkVal) := by
  unfold processValue at h
  split at h
  · cases h
  · split at h
    · cases h
      exact ⟨_, rfl⟩
    · split at h
      · cases h
      · split at h
        · cases h
        · split at h
          · cases h
          · exact rewriteChunk_mutate h

/-- Replacing the finish reason in the text leaves the document up to its string values. -/
theorem read_replaceFinish {payload out : Text} {v : Json} (hv : read payload = some v)
    (hout : replaceFinish payload = some out) : ∃ v', read out = some v' ∧ v'.blank = v.blank := by
  -- each target is the text of a member, and only its value is replaced
  have htargets : ∀ target ∈ finishTargets, ∃ sep s,
      target.1 = memberText Key.finishReason sep s ∧ target.2 = memberText Key.finishReason sep "tool_calls".toList ∧
        lexFrom .between sep = some (.between, [.colon]) ∧ IsPlain s := by
    intro target htarget
    simp only [finishTargets, List.mem_cons, List.not_mem_nil, or_false] at htarget
    rcases htarget with rfl | rfl | rfl | rfl
    · exact ⟨[':'], "stop".toList, by decide, by decide, by decide, by decide⟩
    · exact ⟨[':', ' '], "stop".toList, by decide, by decide, by decide, by decide⟩
    · exact ⟨[':'], "end_turn".toList, by decide, by decide, by decide, by decide⟩
    · exact ⟨[':', ' '], "end_turn".toList, by decide, by decide, by decide, by decide⟩
  obtain ⟨target, htarget, hfind⟩ := List.exists_of_findSome?_eq_some hout
  rw [Option.map_eq_some_iff] at hfind
  obtain ⟨pos, hpos, rfl⟩ := hfind
  obtain ⟨sep, s, hfrom, hto, hsep, hs⟩ := htargets target htarget
  have hat := (firstAt_eq_some.mp hpos).2.1
  rw [List.isPrefixOf_iff_prefix] at hat
  obtain ⟨rest, hrest⟩ := hat
  have hpayload : payload = payload.take pos ++ memberText Key.finishReason sep s ++ rest := by
    rw [List.append_assoc, ← hfrom, hrest, List.take_append_drop]
  have hdrop : payload.drop (pos + target.1.length) = rest := by
    rw [← List.drop_drop, ← hrest, List.drop_left]
  rw [hpayload] at hv
  obtain ⟨v', hv', hblank⟩ := read_replaced (by decide) (by decide) hsep hs
    (show IsPlain "tool_calls".toList by decide) hv
  refine ⟨v', ?_, hblank⟩
  rw [hdrop, hto]
  exact hv'

theorem isChunk_replaceFinish {payload out : Text} (h : IsChunk payload) (hout : replaceFinish payload = some out) :
    IsChunk out := by
  obtain ⟨v, hv, hchoices⟩ := h
  obtain ⟨v', hv', hblank⟩ := read_replaceFinish hv hout
  exact ⟨v', hv', isSome_choices_of_blank hblank hchoices⟩

/-- The extractor emits a chunk for a chunk. -/
theorem isChunk_processChunk {p : ToolParsers} {x : InlineToolStreamExtractor} {payload out : Text} (h : IsChunk payload)
    (hout : (x.processChunk p payload).1 = .mutate out) : IsChunk out := by
  unfold processChunk at hout
  split at hout
  · split at hout
    · rename_i res hres
      cases hout
      split at hres
      · exact isChunk_replaceFinish h hres
      · cases hres
    · cases hout
  · split at hout
    · cases hout
    · rename_i chunkVal hchunk
      obtain ⟨choice', rfl⟩ := processValue_mutate hout
      exact isChunk_write (isSome_choices_setFirstChoice _ (isSome_choices_of_fromStr h hchunk))

/-! ### The end of the stream -/

theorem Held.startsTag_residual {x : InlineToolStreamExtractor} (h : x.Held) (hne : x.residual ≠ []) :
    StartsTag x.residual := by
  unfold residual at hne ⊢
  by_cases hbuffer : x.partialTagBuffer = []
  · rw [hbuffer, List.nil_append] at hne ⊢
    cases hin : x.insideToolCall with
    | true => exact h.inside hin
    | false => exact absurd (h.outside hin) hne
  · exact (h.partialTag hbuffer).append _

/-- The calls of the text that is held back, as `finalize` numbers them. -/
def finalCalls (p : ToolParsers) (x : InlineToolStreamExtractor) : List Json :=
  match p.parseToolBlock x.residual with
  | some calls => (x.buildToolCallsValue calls).1
  | none => []

/-- The text that is held back and that holds no calls. -/
def finalText (p : ToolParsers) (x : InlineToolStreamExtractor) : Text :=
  if (p.parseToolBlock x.residual).isSome then [] else x.residual

/-- `finalize` gives nothing exactly if nothing is held back, and otherwise the calls or the text. -/
theorem finalize_eq (p : ToolParsers) {x : InlineToolStreamExtractor} (h : x.Held) :
    (x.residual = [] ∧ (x.finalize p).1 = none) ∨
      (x.residual ≠ [] ∧ ∃ calls finishReason, p.parseToolBlock x.residual = some calls ∧
        (x.finalize p).1 = some (write (finalChunk [(Key.toolCalls, array (x.finalCalls p))] finishReason))) ∨
      (x.residual ≠ [] ∧ p.parseToolBlock x.residual = none ∧
        (x.finalize p).1 = some (write (finalChunk [(Key.content, string x.residual)] .null))) := by
  by_cases hempty : x.residual = []
  · refine Or.inl ⟨hempty, ?_⟩
    have htrim : (trim x.residual).isEmpty = true := by rw [hempty]; rfl
    rw [finalize, if_pos htrim]
  · have htrim : ¬ (trim x.residual).isEmpty = true := by
      rw [List.isEmpty_iff]
      exact (h.startsTag_residual hempty).trim_ne_nil
    refine Or.inr ?_
    rw [finalize, if_neg htrim]
    cases hparse : p.parseToolBlock x.residual with
    | some calls =>
      refine Or.inl ⟨hempty, calls, string "tool_calls".toList, rfl, ?_⟩
      simp only [finalCalls, hparse]
      rfl
    | none => exact Or.inr ⟨hempty, rfl, rfl⟩

/-! ### Actions -/

theorem processValue_ne_done (p : ToolParsers) (x : InlineToolStreamExtractor) (v : Json) :
    (x.processValue p v).1 ≠ .done := by
  unfold processValue
  split
  · simp
  · split
    · simp
    · split
      · simp
      · split
        · simp
        · split
          · simp
          · unfold rewriteChunk
            dsimp only
            split_ifs <;> simp

theorem processChunk_ne_done (p : ToolParsers) (x : InlineToolStreamExtractor) (payload : Text) :
    (x.processChunk p payload).1 ≠ .done := by
  unfold processChunk
  split
  · split <;> simp
  · split
    · simp
    · exact processValue_ne_done p x _

end InlineToolStreamExtractor

end OpenProxy.Inline
