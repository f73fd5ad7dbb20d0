import OpenProxy.Think.Tags

/-!
# The stream extractor against the reference scan

After every delta the extractor has released the tokens of the reference scan up to the text it holds back, whatever
comes next (`Released`).  Only one piece of the released content can differ from the scan: the last piece outside the
blocks, from which orphaned close tags have been stripped.

The main result is `run_split_independent_iff`: the result of the stream does not depend on how the text is cut if
and only if the scan of the text meets no close tag outside a block.
-/

namespace OpenProxy.Think

namespace ThinkStreamExtractor

/-- The mode of the scan that a state stands for. -/
def modeOf (x : ThinkStreamExtractor) : Option Text := if x.insideThink then x.closeTag else none

/-- Inside a block the close tag is known, and the text held back is the beginning of a tag but contains none. -/
structure WellFormed (x : ThinkStreamExtractor) : Prop where
  closeTag : x.insideThink = true → ∃ ct ∈ thinkCloseTags, x.closeTag = some ct
  isPartial : x.insideThink = false → IsPartial thinkOpenTags x.tagBuffer
  outside : x.insideThink = false → ∀ n ≤ x.tagBuffer.length, openTagAt (x.tagBuffer.drop n) = none
  inside : x.insideThink = true → ∀ ct, x.closeTag = some ct → x.tagBuffer.length < ct.length ∧
    ∀ n ≤ x.tagBuffer.length, startsWithIgnoreAsciiCase (x.tagBuffer.drop n) ct = false

/-- Reading `input` in the given mode released `content` and `reasoning` and led to the state `x`: all of `input` up
to the text that `x` holds back has been scanned, and `last` is the last piece of it outside the blocks. -/
structure Released (mode : Option Text) (input : Text) (x : ThinkStreamExtractor) (content reasoning : Text) : Prop where
  wf : x.WellFormed
  out : ∃ before last read, content = before ++ stripOrphanedCloseTags last ∧ input = read ++ x.tagBuffer ∧
    last <:+ read ∧ (∀ ct, mode = some ct → last ≠ [] → ct.length < input.length) ∧
    ∀ rest, ∃ toks, contentOf toks = before ∧ reasoningOf toks = reasoning ∧
      scan mode 0 read (x.tagBuffer ++ rest) = ⟨toks ++ outs last (x.tagBuffer ++ rest), x.modeOf, 0⟩

private theorem isPartial_nil : IsPartial thinkOpenTags [] :=
  ⟨_, List.mem_cons_self, List.nil_prefix⟩

private theorem openTagAt_nil : openTagAt [] = none := by decide

private theorem startsWith_nil {ct : Text} (hct : ct ∈ thinkCloseTags) :
    startsWithIgnoreAsciiCase [] ct = false := by
  revert ct
  decide

/-- A state with nothing held back. -/
theorem wellFormed_of_nil {x : ThinkStreamExtractor} (hb : x.tagBuffer = [])
    (hct : x.insideThink = true → ∃ ct ∈ thinkCloseTags, x.closeTag = some ct) : x.WellFormed where
  closeTag := hct
  isPartial _ := by rw [hb]; exact isPartial_nil
  outside _ n hn := by
    rw [hb] at hn ⊢
    simp [openTagAt_nil]
  inside hi ct h := by
    obtain ⟨ct', hmem, h'⟩ := hct hi
    rw [h] at h'
    cases h'
    have h8 := (isTag_of_close hmem).2
    rw [hb]
    exact ⟨by simp only [List.length_nil]; omega, by simp [startsWith_nil hmem]⟩

theorem new_wellFormed : new.WellFormed := wellFormed_of_nil rfl (by simp [new])

/-! ### One delta -/

/-- Outside the blocks with no open tag in sight: the text up to the split point is released. -/
private theorem released_outside_none {x : ThinkStreamExtractor} (hx : x.insideThink = false) {input : Text}
    (hnone : ∀ n ≤ input.length, openTagAt (input.drop n) = none) :
    Released none input { x with tagBuffer := input.drop (findSafeSplitPoint input) }
      (stripOrphanedCloseTags (input.take (findSafeSplitPoint input))) [] := by
  have hbound : ∀ tag ∈ thinkOpenTags, tag.length ≤ 10 + 1 := by decide
  have htags : ∀ n ≤ input.length, ∀ tag ∈ thinkOpenTags, startsWithIgnoreAsciiCase (input.drop n) tag = false :=
    fun n hn => openTagAt_eq_none.mp (hnone n hn)
  have hsafe := split_safe (fun _ => isPartialOpenTagTail_iff) hbound htags
  obtain ⟨hle, -, hpart⟩ := longestTail_spec isPartialOpenTagTail input
    (n := min 10 input.length) (by omega)
  rw [← findSafeSplitPoint_eq] at hsafe hle hpart
  generalize findSafeSplitPoint input = k at hsafe hle hpart
  refine ⟨⟨by simp [hx], ?_, ?_, by simp [hx]⟩, [], input.take k, input.take k, by simp,
    (List.take_append_drop _ _).symm, List.suffix_refl _, by simp, ?_⟩
  · intro _
    by_cases hk : k < input.length
    · exact isPartialOpenTagTail_iff.mp (hpart hk)
    · change IsPartial thinkOpenTags (input.drop k)
      rw [List.drop_of_length_le (by omega)]
      exact isPartial_nil
  · intro _ n hn
    change openTagAt ((input.drop k).drop n) = none
    simp only [List.length_drop] at hn
    rw [List.drop_drop]
    exact hnone _ (by omega)
  · intro rest
    refine ⟨[], rfl, rfl, ?_⟩
    have hmode : modeOf { x with tagBuffer := input.drop k } = none := by simp [modeOf, hx]
    rw [hmode]
    apply scan_outs
    intro n hn
    rw [← List.append_assoc, List.take_append_drop, openTagAt_eq_none]
    simp only [List.length_take] at hn
    exact hsafe n (by omega) rest

/-- Inside a block with its close tag not in sight. -/
private theorem released_inside_none {x : ThinkStreamExtractor} {ct : Text} (hct : ct ∈ thinkCloseTags)
    (hx : x.insideThink = true) (hxct : x.closeTag = some ct) {input : Text}
    (hnone : ∀ n ≤ input.length, startsWithIgnoreAsciiCase (input.drop n) ct = false) :
    Released (some ct) input { x with tagBuffer := input.drop (findSafeSplitPointClose input ct) } []
      (input.take (findSafeSplitPointClose input ct)) := by
  have hlen := (isTag_of_close hct).2
  have hbound : ∀ tag ∈ [ct], tag.length ≤ ct.length - 1 + 1 := by
    intro tag htag
    rw [List.mem_singleton.mp htag]
    omega
  have htags : ∀ n ≤ input.length, ∀ tag ∈ [ct], startsWithIgnoreAsciiCase (input.drop n) tag = false := by
    intro n hn tag htag
    rw [List.mem_singleton.mp htag]
    exact hnone n hn
  have hsafe := split_safe (fun _ => closeTail_iff) hbound htags
  obtain ⟨hle, -, hpart⟩ := longestTail_spec (fun tail => eqIgnoreAsciiCase (ct.take tail.length) tail) input (n := min (ct.length - 1) input.length) (by omega)
  rw [← findSafeSplitPointClose_eq hct] at hsafe hle hpart
  generalize findSafeSplitPointClose input ct = k at hsafe hle hpart
  have hshort : (input.drop k).length < ct.length := by
    by_cases hk : k < input.length
    · obtain ⟨tag, htag, hpre⟩ := closeTail_iff.mp (hpart hk)
      rw [List.mem_singleton.mp htag] at hpre
      by_contra hge
      -- a partial tag of full length would be the tag
      have heq : lower (input.drop k) = lower ct := hpre.eq_of_length_le (by simp only [length_lower]; omega)
      have := hnone k (by omega)
      rw [startsWith_iff.mpr (heq ▸ List.prefix_refl _)] at this
      exact absurd this (by simp)
    · rw [List.drop_of_length_le (by omega), List.length_nil]
      omega
  refine ⟨⟨fun _ => ⟨ct, hct, hxct⟩, by simp [hx], by simp [hx], ?_⟩, [], [], input.take k,
    by simp [stripOrphanedCloseTags], (List.take_append_drop _ _).symm, List.nil_suffix, by simp, ?_⟩
  · intro _ ct' hct'
    change x.closeTag = some ct' at hct'
    rw [hxct] at hct'
    cases hct'
    refine ⟨hshort, ?_⟩
    intro n hn
    change startsWithIgnoreAsciiCase ((input.drop k).drop n) ct = false
    simp only [List.length_drop] at hn
    rw [List.drop_drop]
    exact hnone _ (by omega)
  · intro rest
    refine ⟨(input.take k).map Token.inside, contentOf_inside _, reasoningOf_inside _, ?_⟩
    have hmode : modeOf { x with tagBuffer := input.drop k } = some ct := by simp [modeOf, hx, hxct]
    rw [hmode, outs, List.append_nil]
    apply scan_inside
    intro n hn
    rw [← List.append_assoc, List.take_append_drop]
    simp only [List.length_take] at hn
    exact hsafe n (by omega) rest ct (by simp)

/-- Nothing was read and nothing is held back. -/
private theorem released_nil {x : ThinkStreamExtractor} {input : Text} (hin : input = []) (hb : x.tagBuffer = [])
    (hct : x.insideThink = true → ∃ ct ∈ thinkCloseTags, x.closeTag = some ct) :
    Released x.modeOf input x [] [] := by
  subst hin
  refine ⟨wellFormed_of_nil hb hct, [], [], [], by simp [stripOrphanedCloseTags], by simp [hb], List.suffix_refl _,
    by simp, ?_⟩
  intro rest
  exact ⟨[], rfl, rfl, by simp [outs, scan]⟩

/-- An open tag at `n`, and what reading the text after it releases. -/
private theorem Released.open {x : ThinkStreamExtractor} {input content reasoning tag ct : Text} {n : Nat}
    (hn : n ≤ input.length) (htag : openTagAt (input.drop n) = some (tag, ct))
    (hbefore : ∀ m < n, openTagAt (input.drop m) = none)
    (h : Released (some ct) (input.drop (n + tag.length)) x content reasoning) :
    Released none input x (input.take n ++ content) reasoning := by
  obtain ⟨hwf, before, last, read, rfl, hin, hsuf, -, hout⟩ := h
  have hsplit : input = input.take (n + tag.length) ++ read ++ x.tagBuffer := by
    rw [List.append_assoc, ← hin, List.take_append_drop]
  refine ⟨hwf, input.take n ++ before, last, input.take (n + tag.length) ++ read, by simp, hsplit,
    hsuf.trans (List.suffix_append _ _), by simp, ?_⟩
  intro rest
  obtain ⟨toks, hc, hr, hscan⟩ := hout rest
  refine ⟨outs (input.take n) (input.drop n ++ rest) ++ toks, by simp [hc], by simp [hr], ?_⟩
  have hopen := scan_through_open hn htag hbefore rest
  rw [hin, List.append_assoc] at hopen
  rw [List.append_assoc]
  exact scan_trans hopen hscan

/-- The close tag at `n`, and what reading the text after it releases. -/
private theorem Released.close {x : ThinkStreamExtractor} {input content reasoning ct : Text} {n : Nat}
    (hct : ct ∈ thinkCloseTags) (hfind : findIgnoreAsciiCase input ct = some n)
    (h : Released none (input.drop (n + ct.length)) x content reasoning) :
    Released (some ct) input x content (input.take n ++ reasoning) := by
  obtain ⟨hwf, before, last, read, rfl, hin, hsuf, -, hout⟩ := h
  have hsplit : input = input.take (n + ct.length) ++ read ++ x.tagBuffer := by
    rw [List.append_assoc, ← hin, List.take_append_drop]
  refine ⟨hwf, before, last, input.take (n + ct.length) ++ read, rfl, hsplit,
    hsuf.trans (List.suffix_append _ _), ?_, ?_⟩
  · intro ct' hct' hlast
    cases hct'
    have h1 := congrArg List.length hin
    have h2 := hsuf.length_le
    have h3 := List.length_pos_of_ne_nil hlast
    simp only [List.length_drop, List.length_append] at h1
    omega
  · intro rest
    obtain ⟨toks, hc, hr, hscan⟩ := hout rest
    refine ⟨(input.take n).map Token.inside ++ toks, ?_, ?_, ?_⟩
    · rw [contentOf_append, contentOf_inside, hc]
      rfl
    · rw [reasoningOf_append, reasoningOf_inside, hr]
    · have hclose := scan_through_close hct hfind rest
      rw [hin, List.append_assoc] at hclose
      rw [List.append_assoc]
      exact scan_trans hclose hscan

/-- The two scanners, by induction on the number of calls that are left. -/
private theorem process_released (fuel : Nat) : ∀ (x : ThinkStreamExtractor) (input : Text), input.length < fuel →
    x.tagBuffer = [] →
    (x.insideThink = false → Released none input (x.processOutsideThink fuel input).2
      (x.processOutsideThink fuel input).1.1 (x.processOutsideThink fuel input).1.2) ∧
    (∀ ct ∈ thinkCloseTags, x.insideThink = true → x.closeTag = some ct →
      Released (some ct) input (x.processInsideThink fuel input).2
        (x.processInsideThink fuel input).1.1 (x.processInsideThink fuel input).1.2) := by
  induction fuel with
  | zero =>
    intro x input h
    omega
  | succ fuel ih =>
    intro x input hlen hb
    constructor
    · intro hx
      unfold processOutsideThink
      split
      · rename_i hnone
        exact released_outside_none hx (findEarliestTag_none_iff.mp hnone)
      · rename_i n tag hsome
        obtain ⟨ct, htag, hn, hbefore⟩ := findEarliestTag_some hsome
        obtain ⟨hmem, hstart⟩ := openTagAt_eq_some htag
        obtain ⟨-, -, h7, -, -, hct, -⟩ := isTag_of_open hmem
        have hle := length_le_of_startsWith hstart
        simp only [closeTag_of_openTagAt htag, safeSliceFrom, safeSliceTo, List.drop_drop]
        simp only [List.length_drop] at hle h7
        split
        · rename_i hempty
          rw [List.isEmpty_iff] at hempty
          have hrel := released_nil (x := { x with closeTag := some ct, insideThink := true }) hempty hb
            (fun _ => ⟨ct, hct, rfl⟩)
          simpa using Released.open hn htag hbefore hrel
        · have hshort : (input.drop (n + tag.length)).length < fuel := by
            simp only [List.length_drop]
            omega
          have hrel := (ih { x with closeTag := some ct, insideThink := true } _ hshort hb).2 ct hct rfl rfl
          exact Released.open hn htag hbefore hrel
    · intro ct hct hx hxct
      unfold processInsideThink
      simp only [hxct]
      cases hfind : findIgnoreAsciiCase input ct with
      | none =>
        have hrel := released_inside_none hct hx hxct (findIgnoreAsciiCase_eq_none.mp hfind)
        rw [hxct] at hrel
        exact hrel
      | some n =>
        have hfind' := hfind
        rw [findIgnoreAsciiCase_eq_some] at hfind'
        have h8 := (isTag_of_close hct).2
        have hle := length_le_of_startsWith hfind'.2.1
        simp only [List.length_drop] at hle
        simp only [safeSliceFrom, safeSliceTo]
        by_cases hempty : (input.drop (n + ct.length)).isEmpty = true
        · simp only [hempty, ↓reduceIte]
          rw [List.isEmpty_iff] at hempty
          have hrel := released_nil (x := { x with insideThink := false, closeTag := none }) hempty hb (by simp)
          simpa using Released.close hct hfind hrel
        · simp only [hempty, Bool.false_eq_true, ↓reduceIte]
          have hshort : (input.drop (n + ct.length)).length < fuel := by
            simp only [List.length_drop]
            omega
          have hrel := (ih { x with insideThink := false, closeTag := none } _ hshort hb).1 rfl
          exact Released.close hct hfind hrel

/-- What a delta releases, from any state the extractor can be in. -/
theorem process_spec {x : ThinkStreamExtractor} (hwf : x.WellFormed) (delta : Text) :
    Released x.modeOf (x.tagBuffer ++ delta) (x.process delta).2 (x.process delta).1.1 (x.process delta).1.2 := by
  unfold process
  split
  · rename_i hempty
    rw [List.isEmpty_iff] at hempty
    subst hempty
    refine ⟨hwf, [], [], [], by simp [stripOrphanedCloseTags], by simp, List.suffix_refl _, by simp, ?_⟩
    intro rest
    exact ⟨[], rfl, rfl, by simp [outs, scan]⟩
  · split
    · -- the fast path: no tag begins in a text without `<`
      rename_i hfast
      simp only [Bool.and_eq_true, List.isEmpty_iff, Bool.not_eq_true', List.contains_eq_mem,
        decide_eq_false_iff_not] at hfast
      obtain ⟨hb, hlt⟩ := hfast
      have hne : ∀ rest, ∀ n < delta.length, ∃ c s, (delta ++ rest).drop n = c :: s ∧ c ≠ '<' := by
        intro rest n hn
        refine ⟨delta[n], delta.drop (n + 1) ++ rest, ?_, ?_⟩
        · rw [List.drop_append_of_le_length (by omega), List.drop_eq_getElem_cons hn]
          rfl
        · intro hc
          exact hlt (hc ▸ List.getElem_mem hn)
      rw [hb, List.nil_append]
      unfold processFastPath
      by_cases hx : x.insideThink = true
      · obtain ⟨ct, hct, hxct⟩ := hwf.closeTag hx
        simp only [hx, ↓reduceIte]
        refine ⟨hwf, [], [], delta, by simp [stripOrphanedCloseTags], by simp [hb], List.nil_suffix, by simp, ?_⟩
        intro rest
        refine ⟨delta.map Token.inside, contentOf_inside _, reasoningOf_inside _, ?_⟩
        have hmode : x.modeOf = some ct := by simp [modeOf, hx, hxct]
        rw [hb, hmode, outs, List.append_nil]
        apply scan_inside
        intro n hn
        obtain ⟨c, s, hs, hc⟩ := hne rest n hn
        rw [List.nil_append, hs]
        exact not_startsWith_of_ne hc (isTag_of_close hct).1
      · rw [Bool.not_eq_true] at hx
        simp only [hx, Bool.false_eq_true, ↓reduceIte]
        refine ⟨hwf, delta, [], delta, by simp [stripOrphanedCloseTags], by simp [hb], List.nil_suffix,
          by simp [modeOf, hx], ?_⟩
        intro rest
        refine ⟨outs delta rest, by simp, by simp, ?_⟩
        have hmode : x.modeOf = none := by simp [modeOf, hx]
        rw [hb, hmode, outs, List.append_nil]
        apply scan_outs
        intro n hn
        obtain ⟨c, s, hs, hc⟩ := hne rest n hn
        rw [List.nil_append, hs]
        exact openTagAt_cons_ne hc
    · have hrel := process_released ((x.tagBuffer ++ delta).length + 1) { x with tagBuffer := [] }
        (x.tagBuffer ++ delta) (by omega) rfl
      by_cases hx : x.insideThink = true
      · obtain ⟨ct, hct, hxct⟩ := hwf.closeTag hx
        have hmode : x.modeOf = some ct := by simp [modeOf, hx, hxct]
        simp only [hx, ↓reduceIte]
        rw [hmode]
        have := hrel.2 ct hct hx hxct
        simpa only [hx] using this
      · rw [Bool.not_eq_true] at hx
        have hmode : x.modeOf = none := by simp [modeOf, hx]
        simp only [hx, Bool.false_eq_true, ↓reduceIte]
        rw [hmode]
        have := hrel.1 hx
        simpa only [hx] using this

end ThinkStreamExtractor

end OpenProxy.Think
