import OpenProxy.Think.Stream

/-!
# Cutting a stream

The reasoning of a stream is always that of the reference scan, and its content is at most as long as that of the
scan: equal to it when the scan meets no orphaned close tag, or when every delta is a single character, and shorter
when an orphaned close tag arrives as a delta of its own.  Hence `run_split_independent_iff`.
-/

namespace OpenProxy.Think

namespace ThinkStreamExtractor

private theorem runFrom_cons (x : ThinkStreamExtractor) (delta : Text) (deltas : List Text) :
    x.runFrom (delta :: deltas) = ((x.process delta).1.1 ++ ((x.process delta).2.runFrom deltas).1,
      (x.process delta).1.2 ++ ((x.process delta).2.runFrom deltas).2) := rfl

/-- Text held back at the end of the stream is released as it is. -/
private theorem flush_spec {x : ThinkStreamExtractor} (hwf : x.WellFormed) :
    x.flush.1.1 = contentOf (scan x.modeOf 0 x.tagBuffer []).toks ∧
      x.flush.1.2 = reasoningOf (scan x.modeOf 0 x.tagBuffer []).toks := by
  by_cases hx : x.insideThink = true
  · obtain ⟨ct, hct, hxct⟩ := hwf.closeTag hx
    have hmode : x.modeOf = some ct := by simp [modeOf, hx, hxct]
    have hscan : scan (some ct) 0 x.tagBuffer [] = ⟨x.tagBuffer.map Token.inside, some ct, 0⟩ := by
      apply scan_inside
      intro n hn
      rw [List.append_nil]
      exact (hwf.inside hx ct hxct).2 n (by omega)
    rw [hmode, hscan]
    unfold flush
    by_cases hb : x.tagBuffer = []
    · simp [hb, contentOf, reasoningOf]
    · simp [hb, hx]
  · rw [Bool.not_eq_true] at hx
    have hmode : x.modeOf = none := by simp [modeOf, hx]
    have hscan : scan none 0 x.tagBuffer [] = ⟨outs x.tagBuffer [], none, 0⟩ := by
      apply scan_outs
      intro n hn
      rw [List.append_nil]
      exact hwf.outside hx n (by omega)
    rw [hmode, hscan]
    unfold flush
    by_cases hb : x.tagBuffer = []
    · simp [hb]
    · simp [hb, hx]

/-- The tokens of the text from a state on, in terms of those after one delta. -/
private theorem scan_process {x : ThinkStreamExtractor} (hwf : x.WellFormed) (delta rest : Text) :
    ∃ before last toks, (x.process delta).1.1 = before ++ stripOrphanedCloseTags last ∧ contentOf toks = before ∧
      reasoningOf toks = (x.process delta).1.2 ∧
      last <:+: x.tagBuffer ++ delta ∧ (∀ ct, x.modeOf = some ct → last ≠ [] → ct.length < (x.tagBuffer ++ delta).length) ∧
      (scan x.modeOf 0 (x.tagBuffer ++ (delta ++ rest)) []).toks =
        toks ++ outs last ((x.process delta).2.tagBuffer ++ rest) ++
          (scan (x.process delta).2.modeOf 0 ((x.process delta).2.tagBuffer ++ rest) []).toks := by
  obtain ⟨-, before, last, read, hc, hin, hsuf, hlen, hout⟩ := process_spec hwf delta
  obtain ⟨toks, htc, htr, hscan⟩ := hout rest
  refine ⟨before, last, toks, hc, htc, htr, ?_, hlen, ?_⟩
  · rw [hin]
    exact hsuf.isInfix.trans (List.prefix_append _ _).isInfix
  · rw [← List.append_assoc, hin, List.append_assoc, scan_append, List.append_nil]
    simp only [hscan]

private theorem strip_of_orphanFree {last next : Text} (h : orphanFree (outs last next) = true) :
    stripOrphanedCloseTags last = last := by
  rw [orphanFree_outs] at h
  apply strip_eq_self
  intro n hn
  rcases Nat.lt_or_eq_of_le hn with hlt | rfl
  · have hfalse := h n hlt
    rw [List.drop_append_of_le_length hn] at hfalse
    rw [closeTagAt_eq_false] at hfalse ⊢
    intro tag htag
    rw [Bool.eq_false_iff]
    intro hst
    have := hfalse tag htag
    rw [startsWith_append next hst] at this
    exact absurd this (by simp)
  · rw [List.drop_length]
    decide

/-- What a stream releases from any state on, compared with the scan of the text that is still to come. -/
theorem runFrom_spec {x : ThinkStreamExtractor} (hwf : x.WellFormed) (deltas : List Text) :
    (x.runFrom deltas).2 = reasoningOf (scan x.modeOf 0 (x.tagBuffer ++ deltas.flatten) []).toks ∧
    (x.runFrom deltas).1.length ≤ (contentOf (scan x.modeOf 0 (x.tagBuffer ++ deltas.flatten) []).toks).length ∧
    (orphanFree (scan x.modeOf 0 (x.tagBuffer ++ deltas.flatten) []).toks = true →
      (x.runFrom deltas).1 = contentOf (scan x.modeOf 0 (x.tagBuffer ++ deltas.flatten) []).toks) := by
  induction deltas generalizing x with
  | nil =>
    obtain ⟨hc, hr⟩ := flush_spec hwf
    simp only [runFrom, List.flatten_nil, List.append_nil]
    exact ⟨hr, by rw [hc], fun _ => hc⟩
  | cons delta deltas ih =>
    obtain ⟨before, last, toks, hc, htc, htr, -, -, hscan⟩ := scan_process hwf delta deltas.flatten
    obtain ⟨ih1, ih2, ih3⟩ := ih (process_spec hwf delta).wf
    have hstrip := length_strip_le last
    rw [runFrom_cons, List.flatten_cons, hscan]
    refine ⟨?_, ?_, ?_⟩
    · simp [ih1, htr]
    · simp only [hc, contentOf_append, htc, contentOf_outs, List.length_append]
      omega
    · intro hfree
      simp only [orphanFree_append, Bool.and_eq_true] at hfree
      rw [hc, strip_of_orphanFree hfree.1.2, ih3 hfree.2]
      simp [htc]

/-! ### Deltas of one character -/

/-- A partial open tag and one more character do not contain a close tag. -/
private theorem no_close_of_isPartial {b last : Text} {c : Char} (hb : IsPartial thinkOpenTags b)
    (hlast : last <:+: b ++ [c]) : stripOrphanedCloseTags last = last := by
  apply strip_eq_self
  intro n hn
  rw [closeTagAt_eq_false]
  intro tag htag
  rw [Bool.eq_false_iff]
  intro hst
  obtain ⟨open', hopen, hpre⟩ := hb
  have hslash : ∀ t ∈ thinkOpenTags, '/' ∉ lower t := by decide
  have hclose : ∀ t ∈ thinkCloseTags, ∃ t', lower t = '<' :: '/' :: t' ∧ 1 ≤ t'.length := by
    intro t ht
    have : ∀ t ∈ thinkCloseTags, lower t = '<' :: '/' :: (lower t).drop 2 ∧ 1 ≤ ((lower t).drop 2).length := by
      decide
    exact ⟨_, this t ht⟩
  obtain ⟨t', ht', hlen⟩ := hclose tag htag
  rw [startsWith_iff, ht'] at hst
  obtain ⟨w, hw⟩ := hst
  obtain ⟨u, v, huv⟩ := (List.drop_suffix n last).isInfix.trans hlast
  -- the slash of the close tag lies in `b`, where the open tag has none
  have hlow : lower u ++ ('<' :: '/' :: t' ++ w) ++ lower v = lower b ++ [c.toLower] := by
    rw [hw, ← lower_append, ← lower_append, huv, lower_append]
    rfl
  have hmem : '/' ∈ lower b := by
    have hget := congrArg (fun l => l[(lower u).length + 1]?) hlow
    have hlen' := congrArg List.length hlow
    simp only [List.length_append, List.length_cons, List.length_nil] at hlen'
    simp only [List.append_assoc, List.cons_append] at hget
    rw [List.getElem?_append_right (by omega), List.getElem?_append_left (by omega)] at hget
    simp only [Nat.add_sub_cancel_left, List.getElem?_cons_succ, List.getElem?_cons_zero] at hget
    exact List.mem_of_getElem? hget.symm
  exact hslash open' hopen (hpre.subset hmem)

/-- Deltas of one character never have a close tag stripped. -/
private theorem runFrom_singles {x : ThinkStreamExtractor} (hwf : x.WellFormed) (t : Text) :
    (x.runFrom (t.map fun c => [c])).1 = contentOf (scan x.modeOf 0 (x.tagBuffer ++ t) []).toks := by
  induction t generalizing x with
  | nil =>
    simp only [List.map_nil, runFrom, List.append_nil]
    exact (flush_spec hwf).1
  | cons c t ih =>
    obtain ⟨before, last, toks, hc, htc, -, hinf, hlen, hscan⟩ := scan_process hwf [c] t
    have hstrip : stripOrphanedCloseTags last = last := by
      by_cases hx : x.insideThink = true
      · -- inside a block the text is too short to go past the close tag
        obtain ⟨ct, hct, hxct⟩ := hwf.closeTag hx
        have hshort := (hwf.inside hx ct hxct).1
        by_cases hlast : last = []
        · rw [hlast]
          rfl
        · have := hlen ct (by simp [modeOf, hx, hxct]) hlast
          simp only [List.length_append, List.length_cons, List.length_nil] at this
          omega
      · rw [Bool.not_eq_true] at hx
        exact no_close_of_isPartial (hwf.isPartial hx) hinf
    have ih' := ih (process_spec hwf [c]).wf
    rw [List.map_cons, runFrom_cons, ih', hc, hstrip]
    simp only [List.singleton_append] at hscan
    rw [hscan]
    simp [htc]

/-! ### A close tag as a delta of its own -/

/-- Where the scan met an orphaned close tag. -/
private theorem exists_orphan {mode : Option Text} {skip : Nat} {t next : Text}
    (h : orphanFree (scan mode skip t next).toks = false) :
    ∃ p q, t = p ++ q ∧ (scan mode skip p (q ++ next)).mode = none ∧ (scan mode skip p (q ++ next)).skip = 0 ∧
      closeTagAt (q ++ next) = true ∧ q ≠ [] := by
  induction t generalizing mode skip with
  | nil => simp [scan, orphanFree] at h
  | cons c t ih =>
    -- when the orphan is further on, the scan of the first character is prepended
    have hlift : ∀ mode' skip', (∀ p q, t = p ++ q →
          (scan mode skip (c :: p) (q ++ next)).mode = (scan mode' skip' p (q ++ next)).mode ∧
          (scan mode skip (c :: p) (q ++ next)).skip = (scan mode' skip' p (q ++ next)).skip) →
        orphanFree (scan mode' skip' t next).toks = false →
        ∃ p q, c :: t = p ++ q ∧ (scan mode skip p (q ++ next)).mode = none ∧
          (scan mode skip p (q ++ next)).skip = 0 ∧ closeTagAt (q ++ next) = true ∧ q ≠ [] := by
      intro mode' skip' hstep hfree
      obtain ⟨p, q, rfl, hm, hk, hclose, hq⟩ := ih hfree
      obtain ⟨h1, h2⟩ := hstep p q rfl
      exact ⟨c :: p, q, rfl, by rw [h1, hm], by rw [h2, hk], hclose, hq⟩
    cases skip with
    | succ skip =>
      apply hlift mode skip _ h
      intro p q _
      exact ⟨rfl, rfl⟩
    | zero =>
      cases mode with
      | none =>
        cases htag : openTagAt (c :: t ++ next) with
        | some tags =>
          simp only [scan, htag] at h
          apply hlift _ _ _ h
          intro p q ht
          subst ht
          have htag' : openTagAt (c :: p ++ (q ++ next)) = some tags := by simpa using htag
          simp only [scan, htag', and_self]
        | none =>
          simp only [scan, htag] at h
          by_cases hclose : closeTagAt (c :: t ++ next) = true
          · exact ⟨[], c :: t, rfl, rfl, rfl, hclose, by simp⟩
          · change (!closeTagAt (c :: t ++ next) && orphanFree (scan none 0 t next).toks) = false at h
            rw [Bool.not_eq_true] at hclose
            rw [hclose, Bool.not_false, Bool.true_and] at h
            apply hlift _ _ _ h
            intro p q ht
            subst ht
            have htag' : openTagAt (c :: p ++ (q ++ next)) = none := by simpa using htag
            simp only [scan, htag', and_self]
      | some ct =>
        cases hst : startsWithIgnoreAsciiCase (c :: t ++ next) ct with
        | true =>
          simp only [scan, hst, ↓reduceIte] at h
          apply hlift _ _ _ h
          intro p q ht
          subst ht
          have hst' : startsWithIgnoreAsciiCase (c :: p ++ (q ++ next)) ct = true := by simpa using hst
          simp only [scan, hst', ↓reduceIte, and_self]
        | false =>
          simp only [scan, hst, Bool.false_eq_true, ↓reduceIte] at h
          change orphanFree (scan (some ct) 0 t next).toks = false at h
          apply hlift _ _ _ h
          intro p q ht
          subst ht
          have hst' : startsWithIgnoreAsciiCase (c :: p ++ (q ++ next)) ct = false := by simpa using hst
          simp only [scan, hst', Bool.false_eq_true, ↓reduceIte, and_self]

/-- A text that does not contain the close tag does not lead out of the block. -/
private theorem scan_stays_inside {ct b : Text} (hct : ct ∈ thinkCloseTags) (next : Text)
    (h : ∀ n ≤ b.length, startsWithIgnoreAsciiCase (b.drop n) ct = false) :
    (scan (some ct) 0 b next).mode = none → 0 < (scan (some ct) 0 b next).skip := by
  induction b with
  | nil => simp [scan]
  | cons c b ih =>
    have h8 := (isTag_of_close hct).2
    cases hst : startsWithIgnoreAsciiCase (c :: b ++ next) ct with
    | true =>
      have hlong : (c :: b).length < ct.length := by
        by_contra hle
        have := h 0 (by simp)
        rw [List.drop_zero, startsWith_of_append hst (by omega)] at this
        exact absurd this (by simp)
      simp only [List.length_cons] at hlong
      simp only [scan, hst, ↓reduceIte]
      rw [scan_skip none (by omega)]
      intro _
      change 0 < ct.length - 1 - b.length
      omega
    | false =>
      simp only [scan, hst, Bool.false_eq_true, ↓reduceIte]
      exact ih fun n hn => h (n + 1) (by simpa using hn)

/-- No open tag begins in a partial open tag followed by a whole close tag, whatever comes next. -/
private theorem no_open_in_close {b s ct : Text} (hct : ct ∈ thinkCloseTags) (hs : lower s = ct)
    (hb : ∀ n ≤ b.length, openTagAt (b.drop n) = none) (next : Text) :
    ∀ n < (b ++ s).length, openTagAt ((b ++ s ++ next).drop n) = none := by
  intro n hn
  rw [openTagAt_eq_none]
  intro tag htag
  have hshape : ∀ tag ∈ thinkOpenTags, isTag tag = true ∧ lower tag = tag := by
    simp only [thinkOpenTags]
    decide
  have hl : ∀ ct ∈ thinkCloseTags, lower ct = ct := by decide
  have hdiff : ∀ ct ∈ thinkCloseTags, ∀ tag ∈ thinkOpenTags, ∀ j ∈ List.range ct.length,
      tag.isPrefixOf (ct.drop j) = false ∧ (ct.drop j).isPrefixOf tag = false := by decide
  obtain ⟨s', hs'⟩ := head_of_startsWith (s := s) (isTag_of_close hct).1 (startsWith_iff.mpr (by rw [hs, hl ct hct]))
  rw [Bool.eq_false_iff]
  intro hst
  rw [List.append_assoc] at hst
  rcases Nat.lt_or_ge n b.length with hlt | hge
  · -- a tag that begins in `b` ends before the `<` of the close tag
    rw [List.drop_append_of_le_length (by omega), hs'] at hst
    have hfit := length_le_of_lt (hshape tag htag).1 (by simp only [List.length_drop]; omega) hst
    have := openTagAt_eq_none.mp (hb n (by omega)) tag htag
    rw [startsWith_of_append hst hfit] at this
    exact absurd this (by simp)
  · have hlen := congrArg List.length hs
    simp only [length_lower, List.length_append] at hlen hn
    rw [List.drop_append, List.drop_of_length_le hge, List.nil_append,
      List.drop_append_of_le_length (by omega), startsWith_iff, lower_append, lower_drop, hs,
      (hshape tag htag).2] at hst
    obtain ⟨h1, h2⟩ := hdiff ct hct tag htag (n - b.length) (by rw [List.mem_range]; omega)
    rcases List.prefix_or_prefix_of_prefix hst (List.prefix_append _ _) with h | h
    · rw [← List.isPrefixOf_iff_prefix, h1] at h
      exact absurd h (by simp)
    · rw [← List.isPrefixOf_iff_prefix, h2] at h
      exact absurd h (by simp)

/-- A close tag that arrives outside the blocks as a delta of its own is stripped. -/
private theorem process_close {x : ThinkStreamExtractor} (hwf : x.WellFormed) (hx : x.insideThink = false)
    {s ct : Text} (hct : ct ∈ thinkCloseTags) (hs : lower s = ct) :
    x.process s = ((stripOrphanedCloseTags (x.tagBuffer ++ s), []), { x with tagBuffer := [] }) ∧
      (stripOrphanedCloseTags (x.tagBuffer ++ s)).length < (x.tagBuffer ++ s).length := by
  have hno : ∀ n ≤ (x.tagBuffer ++ s).length, openTagAt ((x.tagBuffer ++ s).drop n) = none := by
    intro n hn
    rcases Nat.lt_or_eq_of_le hn with hlt | rfl
    · have := no_open_in_close hct hs (hwf.outside hx) [] n hlt
      rwa [List.append_nil] at this
    · rw [List.drop_length]
      decide
  have hl : ∀ ct ∈ thinkCloseTags, lower ct = ct := by decide
  have hstart : startsWithIgnoreAsciiCase s ct = true := startsWith_iff.mpr (by rw [hs, hl ct hct])
  obtain ⟨s', hs'⟩ := head_of_startsWith (isTag_of_close hct).1 hstart
  have hlt : '<' ∈ x.tagBuffer ++ s := by simp [hs']
  have hsplit : findSafeSplitPoint (x.tagBuffer ++ s) = (x.tagBuffer ++ s).length := by
    rw [findSafeSplitPoint_eq]
    obtain ⟨hle, -, hpart⟩ := longestTail_spec isPartialOpenTagTail (x.tagBuffer ++ s)
      (n := min 10 (x.tagBuffer ++ s).length) (by omega)
    by_contra hne
    obtain ⟨tag, htag, hpre⟩ := isPartialOpenTagTail_iff.mp (hpart (by omega))
    generalize (longestTail isPartialOpenTagTail (x.tagBuffer ++ s) (min 10 (x.tagBuffer ++ s).length)).getD
      (x.tagBuffer ++ s).length = k at hle hne hpre
    -- the tail ends in `>`, so that it is a whole open tag
    have hgt : (lower ((x.tagBuffer ++ s).drop k)).getLast? = some '>' := by
      have hlast : ∀ ct ∈ thinkCloseTags, ct.getLast? = some '>' := by decide
      rw [lower_drop, List.getLast?_drop, if_neg (by simp only [length_lower]; omega), lower_append, hs,
        List.getLast?_append, hlast ct hct]
      rfl
    have hfull : ∀ tag ∈ thinkOpenTags, ∀ j ∈ List.range (lower tag).length,
        ((lower tag).take j).getLast? ≠ some '>' := by decide
    have hlen : (lower tag).length ≤ (lower ((x.tagBuffer ++ s).drop k)).length := by
      by_contra hshort
      rw [List.prefix_iff_eq_take.mp hpre] at hgt
      exact hfull tag htag _ (by rw [List.mem_range]; omega) hgt
    have := openTagAt_eq_none.mp (hno k hle) tag htag
    rw [startsWith_iff.mpr (hpre.eq_of_length_le hlen ▸ List.prefix_refl _)] at this
    exact absurd this (by simp)
  constructor
  · unfold process
    have hempty : s.isEmpty = false := by simp [hs']
    have hcont : s.contains '<' = true := by simp [hs']
    simp only [hempty, hcont, hx, Bool.false_eq_true, ↓reduceIte, Bool.not_true, Bool.and_false,
      processOutsideThink, findEarliestTag_none_iff.mpr hno, hsplit, safeSliceTo, safeSliceFrom]
    rw [List.take_length, List.drop_length]
  · rcases strip_cases (x.tagBuffer ++ s) with ⟨hnone, -⟩ | ⟨-, h⟩
    · exfalso
      obtain ⟨o, ho⟩ : ∃ o, (o, ct) ∈ thinkOpenTags.zip thinkCloseTags := by
        have : ∀ ct ∈ thinkCloseTags, ∃ tags ∈ thinkOpenTags.zip thinkCloseTags, tags.2 = ct := by decide
        obtain ⟨tags, htags, rfl⟩ := this ct hct
        exact ⟨tags.1, htags⟩
      have horph := hnone _ ho
      unfold hasOrphan at horph
      split at horph
      · rename_i hfind
        rw [findIgnoreAsciiCase_eq_none] at hfind
        have := hfind x.tagBuffer.length (by simp)
        rw [List.drop_left, hstart] at this
        exact absurd this (by simp)
      · rename_i pos hpos
        rw [Option.isNone_eq_false_iff, Option.isSome_iff_exists] at horph
        obtain ⟨m, hm⟩ := horph
        rw [findIgnoreAsciiCase_eq_some] at hm
        have hmle : m ≤ (x.tagBuffer ++ s).length := by
          have := hm.1
          simp only [List.length_take] at this
          omega
        have hst := startsWith_append ((x.tagBuffer ++ s).drop pos) hm.2.1
        rw [← List.drop_append_of_le_length hm.1, List.take_append_drop] at hst
        have := openTagAt_eq_none.mp (hno m hmle) o (isTag_of_open ho).2.2.2.2.2.2
        rw [hst] at this
        exact absurd this (by simp)
    · exact h

/-- Some way of cutting a text with an orphaned close tag loses characters of the content. -/
private theorem exists_shorter {t : Text} (h : ¬ OrphanFree t) :
    ∃ deltas : List Text, deltas.flatten = t ∧ (run deltas).1.length < (contentOf (scanAll t)).length := by
  rw [OrphanFree, Bool.not_eq_true] at h
  obtain ⟨p, q, rfl, hm, hk, hclose, -⟩ := exists_orphan h
  rw [List.append_nil] at hm hk hclose
  unfold closeTagAt at hclose
  rw [List.any_eq_true] at hclose
  obtain ⟨ct, hct, hst⟩ := hclose
  have hlen := length_le_of_startsWith hst
  have hs : lower (q.take ct.length) = ct := by
    have hl : ∀ ct ∈ thinkCloseTags, lower ct = ct := by decide
    rw [startsWith_iff, hl ct hct] at hst
    rw [lower_take]
    exact (List.prefix_iff_eq_take.mp hst).symm
  obtain ⟨before, last, toks, hc, htc, -, -, -, hscan⟩ := scan_process new_wellFormed p q
  obtain ⟨hwf, _, _, read, -, hin, -, -, hout⟩ := process_spec new_wellFormed p
  generalize hnext : (new.process p).2 = x at hc hscan hwf hin hout
  -- the close tag is met outside a block, so that the extractor is outside when it arrives
  have hx : x.insideThink = false := by
    rw [← Bool.not_eq_true]
    intro hx
    obtain ⟨ct', hct', hxct⟩ := hwf.closeTag hx
    obtain ⟨toks', -, -, hscan'⟩ := hout q
    have hp : p = read ++ x.tagBuffer := by simpa [new] using hin
    have hmode : x.modeOf = some ct' := by simp [modeOf, hx, hxct]
    rw [hp, scan_append] at hm hk
    change scan none 0 read (x.tagBuffer ++ q) = _ at hscan'
    simp only [hscan', hmode] at hm hk
    have := scan_stays_inside hct' q (hwf.inside hx ct' hxct).2 hm
    omega
  have hmode : x.modeOf = none := by simp [modeOf, hx]
  obtain ⟨hproc, hlt⟩ := process_close hwf hx hct hs
  obtain ⟨-, hrest, -⟩ := runFrom_spec (x := { x with tagBuffer := [] }) (wellFormed_of_nil rfl (by simp [hx]))
    [q.drop ct.length]
  refine ⟨[p, q.take ct.length, q.drop ct.length], by simp, ?_⟩
  have hsplit : (scan none 0 (x.tagBuffer ++ q) []).toks = outs (x.tagBuffer ++ q.take ct.length) (q.drop ct.length) ++
      (scan none 0 (q.drop ct.length) []).toks := by
    have houts := scan_outs (no_open_in_close hct hs (hwf.outside hx) (q.drop ct.length))
    conv => lhs; rw [← List.take_append_drop ct.length q, ← List.append_assoc]
    rw [scan_append, List.append_nil]
    simp only [houts]
  have hstrip := length_strip_le last
  have htoks : scanAll (p ++ q) = toks ++ outs last (x.tagBuffer ++ q) ++ (scan none 0 (x.tagBuffer ++ q) []).toks := by
    rw [← hmode]
    exact hscan
  have hmode' : modeOf { x with tagBuffer := [] } = none := by simp [modeOf, hx]
  simp only [hmode', List.nil_append, List.flatten_cons, List.flatten_nil, List.append_nil] at hrest
  have hrun : (run [p, q.take ct.length, q.drop ct.length]).1 = before ++ stripOrphanedCloseTags last ++
      (stripOrphanedCloseTags (x.tagBuffer ++ q.take ct.length) ++
        (runFrom { x with tagBuffer := [] } [q.drop ct.length]).1) := by
    rw [run, runFrom_cons, hnext, runFrom_cons, hproc, hc]
  rw [hrun, htoks, hsplit]
  simp only [contentOf_append, contentOf_outs, htc, List.length_append] at hrest hlt ⊢
  omega

/-- Chunk-split independence of the stream extractor: cutting a text into deltas in any way gives the content and the
reasoning of the text as a single delta, if and only if no close tag stands outside the blocks of the text. -/
theorem run_split_independent_iff (t : Text) :
    (∀ deltas : List Text, deltas.flatten = t → run deltas = run [t]) ↔ OrphanFree t := by
  constructor
  · intro h
    by_contra hfree
    obtain ⟨deltas, hflat, hlt⟩ := exists_shorter hfree
    have hsingles : (run (t.map fun c => [c])).1 = contentOf (scanAll t) := runFrom_singles new_wellFormed t
    have hflat' : (t.map fun c => [c]).flatten = t := by
      rw [← List.flatMap_def]
      simp
    rw [h deltas hflat, ← h _ hflat', hsingles] at hlt
    omega
  · intro hfree deltas hflat
    have hspec : ∀ ds : List Text, ds.flatten = t → run ds = (contentOf (scanAll t), reasoningOf (scanAll t)) := by
      intro ds hds
      subst hds
      obtain ⟨hr, -, hc⟩ := runFrom_spec new_wellFormed ds
      exact Prod.ext (hc hfree) hr
    rw [hspec deltas hflat, hspec [t] (by simp)]

/-- A close tag that arrives in two deltas outside a block reaches the client, although it is stripped when it arrives
in one. -/
theorem run_split_close_tag :
    ["</thi".toList, "nk>".toList].flatten = "</think>".toList ∧
      run ["</thi".toList, "nk>".toList] = ("</think>".toList, []) ∧ run ["</think>".toList] = ([], []) ∧
      run ["</thi".toList, "nk>".toList] ≠ run ["</think>".toList] := by
  decide

end ThinkStreamExtractor

end OpenProxy.Think
