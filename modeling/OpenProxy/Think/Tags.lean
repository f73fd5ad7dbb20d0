import OpenProxy.Think.Scan

/-!
# Tag search, partial tags, orphaned close tags

What the helpers of the two extractors find, in terms of the tests of the reference scanner: `findEarliestTag` returns
the first position at which an open tag stands, the split points hold back exactly the tails that can still become a
tag, and `stripOrphanedCloseTags` leaves a text alone if and only if no close tag in it lacks its open tag.
-/

namespace OpenProxy.Think

/-! ### The earliest tag -/

private theorem foldl_earlier_mem (hit : Nat × Text) (hits : List (Nat × Text)) :
    hits.foldl earlier hit ∈ hit :: hits := by
  induction hits generalizing hit with
  | nil => simp
  | cons a hits ih =>
    have h := ih (earlier hit a)
    rw [List.foldl_cons]
    rcases List.mem_cons.mp h with h | h
    · rw [h]
      unfold earlier
      split <;> simp
    · simp [h]

private theorem foldl_earlier_le (hit : Nat × Text) (hits : List (Nat × Text)) :
    ∀ a ∈ hit :: hits, (hits.foldl earlier hit).1 ≤ a.1 := by
  induction hits generalizing hit with
  | nil => simp
  | cons b hits ih =>
    have h := ih (earlier hit b)
    have hmin : (earlier hit b).1 ≤ hit.1 ∧ (earlier hit b).1 ≤ b.1 := by
      unfold earlier
      split <;> omega
    have h0 := h _ List.mem_cons_self
    rw [List.foldl_cons]
    intro a ha
    simp only [List.mem_cons] at ha
    rcases ha with rfl | rfl | ha
    · omega
    · omega
    · exact h a (List.mem_cons_of_mem _ ha)

theorem findEarliestTag_eq_none {s : Text} {tags : List Text} :
    findEarliestTag s tags = none ↔ ∀ tag ∈ tags, findIgnoreAsciiCase s tag = none := by
  unfold findEarliestTag
  split
  · rename_i h
    rw [List.filterMap_eq_nil_iff] at h
    simpa using h
  · rename_i hit hits h
    simp only [reduceCtorEq, false_iff]
    intro hnone
    have hmem : hit ∈ tags.filterMap fun tag => (findIgnoreAsciiCase s tag).map fun pos => (pos, tag) := by
      rw [h]; simp
    rw [List.mem_filterMap] at hmem
    obtain ⟨tag, htag, hf⟩ := hmem
    rw [hnone tag htag] at hf
    simp at hf

theorem findEarliestTag_eq_some {s : Text} {tags : List Text} {n : Nat} {tag : Text}
    (h : findEarliestTag s tags = some (n, tag)) :
    tag ∈ tags ∧ findIgnoreAsciiCase s tag = some n ∧
      ∀ tag' ∈ tags, ∀ m, findIgnoreAsciiCase s tag' = some m → n ≤ m := by
  unfold findEarliestTag at h
  split at h
  · simp at h
  · rename_i hit hits hl
    simp only [Option.some.injEq] at h
    have hmem := foldl_earlier_mem hit hits
    have hle := foldl_earlier_le hit hits
    rw [h, ← hl] at hmem
    rw [h, ← hl] at hle
    simp only [List.mem_filterMap, Option.map_eq_some_iff, Prod.mk.injEq] at hmem
    obtain ⟨tag', htag', m, hm, rfl, rfl⟩ := hmem
    refine ⟨htag', hm, ?_⟩
    intro tag'' htag'' k hk
    apply hle (k, tag'')
    rw [List.mem_filterMap]
    exact ⟨tag'', htag'', by rw [hk]; rfl⟩

/-- At most one open tag stands at the start of a text. -/
private theorem open_unique {s t₁ t₂ : Text} (h₁ : t₁ ∈ thinkOpenTags) (h₂ : t₂ ∈ thinkOpenTags)
    (hs₁ : startsWithIgnoreAsciiCase s t₁ = true) (hs₂ : startsWithIgnoreAsciiCase s t₂ = true) : t₁ = t₂ := by
  have hl : ∀ t ∈ thinkOpenTags, lower t = t := by decide
  have hp : ∀ t ∈ thinkOpenTags, ∀ t' ∈ thinkOpenTags, t.isPrefixOf t' = true → t = t' := by decide
  rw [startsWith_iff, hl _ h₁] at hs₁
  rw [startsWith_iff, hl _ h₂] at hs₂
  rcases List.prefix_or_prefix_of_prefix hs₁ hs₂ with h | h
  · exact hp _ h₁ _ h₂ (List.isPrefixOf_iff_prefix.mpr h)
  · exact (hp _ h₂ _ h₁ (List.isPrefixOf_iff_prefix.mpr h)).symm

theorem findEarliestTag_none_iff {s : Text} :
    findEarliestTag s thinkOpenTags = none ↔ ∀ n ≤ s.length, openTagAt (s.drop n) = none := by
  rw [findEarliestTag_eq_none]
  simp only [findIgnoreAsciiCase_eq_none, openTagAt_eq_none]
  constructor
  · intro h n hn tag ht
    exact h tag ht n hn
  · intro h tag ht n hn
    exact h n hn tag ht

/-- The earliest open tag, in the words of the scan. -/
theorem findEarliestTag_some {s : Text} {n : Nat} {tag : Text} (h : findEarliestTag s thinkOpenTags = some (n, tag)) :
    ∃ ct, openTagAt (s.drop n) = some (tag, ct) ∧ n ≤ s.length ∧ ∀ m < n, openTagAt (s.drop m) = none := by
  obtain ⟨htag, hfind, hmin⟩ := findEarliestTag_eq_some h
  rw [findIgnoreAsciiCase_eq_some] at hfind
  obtain ⟨hn, hstart, -⟩ := hfind
  have hsome : openTagAt (s.drop n) ≠ none := by
    intro hnone
    rw [openTagAt_eq_none] at hnone
    rw [hnone tag htag] at hstart
    exact absurd hstart (by simp)
  obtain ⟨tags, htags⟩ := Option.ne_none_iff_exists'.mp hsome
  obtain ⟨hmem, hst⟩ := openTagAt_eq_some htags
  have heq : tags.1 = tag := open_unique (isTag_of_open hmem).2.2.2.2.2.2 htag hst hstart
  refine ⟨tags.2, ?_, hn, ?_⟩
  · rw [htags, ← heq]
  · intro m hm
    rw [openTagAt_eq_none]
    intro tag' htag'
    rw [Bool.eq_false_iff]
    intro hst'
    -- a tag at `m` would have been found at `m` or before
    have hne : findIgnoreAsciiCase s tag' ≠ none := by
      intro hnone
      rw [findIgnoreAsciiCase_eq_none] at hnone
      rw [hnone m (by omega)] at hst'
      exact absurd hst' (by simp)
    obtain ⟨k, hk⟩ := Option.ne_none_iff_exists'.mp hne
    have hle := hmin tag' htag' k hk
    rw [findIgnoreAsciiCase_eq_some] at hk
    have := hk.2.2 m (by omega)
    rw [this] at hst'
    exact absurd hst' (by simp)

/-- What follows an open tag does not change which tag it is. -/
theorem openTagAt_append {s : Text} {tags : Text × Text} (rest : Text) (h : openTagAt s = some tags) :
    openTagAt (s ++ rest) = some tags := by
  obtain ⟨hmem, hstart⟩ := openTagAt_eq_some h
  have hstart' := startsWith_append rest hstart
  have hsome : openTagAt (s ++ rest) ≠ none := by
    intro hnone
    rw [openTagAt_eq_none] at hnone
    rw [hnone tags.1 (isTag_of_open hmem).2.2.2.2.2.2] at hstart'
    exact absurd hstart' (by simp)
  obtain ⟨tags', htags'⟩ := Option.ne_none_iff_exists'.mp hsome
  obtain ⟨hmem', hst⟩ := openTagAt_eq_some htags'
  have heq : tags'.1 = tags.1 :=
    open_unique (isTag_of_open hmem').2.2.2.2.2.2 (isTag_of_open hmem).2.2.2.2.2.2 hst hstart'
  have hinj : ∀ p ∈ thinkOpenTags.zip thinkCloseTags, ∀ q ∈ thinkOpenTags.zip thinkCloseTags,
      p.1 = q.1 → p = q := by decide
  rw [htags', hinj _ hmem' _ hmem heq]

/-- A tag that begins before a later `<` ends before it. -/
theorem length_le_of_lt {a b tag : Text} (ht : isTag tag = true) (ha : 0 < a.length)
    (h : startsWithIgnoreAsciiCase (a ++ '<' :: b) tag = true) : tag.length ≤ a.length := by
  obtain ⟨s, rfl, hs, hl⟩ := isTag_cons ht
  rw [startsWith_iff, hl, lower_append, lower_cons] at h
  by_contra hlen
  obtain ⟨k, hk⟩ : ∃ k, a.length = k + 1 := ⟨a.length - 1, by omega⟩
  have hget : ('<' :: s)[k + 1]? = (lower a ++ '<' :: lower b)[k + 1]? := by
    obtain ⟨r, hr⟩ := h
    change _ = (lower a ++ '<'.toLower :: lower b)[k + 1]?
    rw [← hr, List.getElem?_append_left (by simp only [List.length_cons] at hlen ⊢; omega)]
  rw [List.getElem?_cons_succ, List.getElem?_append_right (by simp; omega)] at hget
  simp only [length_lower, hk, Nat.sub_self, List.getElem?_cons_zero] at hget
  exact hs (List.mem_of_getElem? hget)

/-- Before an open tag that is complete, no other open tag can begin whatever follows. -/
theorem openTagAt_before {s rest : Text} {tags : Text × Text} {m n : Nat} (hmn : m < n) (hn : n ≤ s.length)
    (htag : openTagAt (s.drop n) = some tags) (hm : openTagAt (s.drop m) = none) :
    openTagAt (s.drop m ++ rest) = none := by
  obtain ⟨hmem, hstart⟩ := openTagAt_eq_some htag
  obtain ⟨s', hs'⟩ := head_of_startsWith (isTag_of_open hmem).1 hstart
  rw [openTagAt_eq_none] at hm ⊢
  intro tag ht
  rw [Bool.eq_false_iff]
  intro hst
  have hshape : ∀ tag ∈ thinkOpenTags, isTag tag = true := by decide
  have hsplit : s.drop m = (s.drop m).take (n - m) ++ '<' :: s' := by
    conv => lhs; rw [← List.take_append_drop (n - m) (s.drop m), List.drop_drop, show m + (n - m) = n by omega, hs']
  have hlen : ((s.drop m).take (n - m)).length = n - m := by
    simp only [List.length_take, List.length_drop]
    omega
  have hfit : tag.length ≤ ((s.drop m).take (n - m)).length := by
    apply length_le_of_lt (b := s' ++ rest) (hshape tag ht) (by omega)
    rw [hsplit, List.append_assoc] at hst
    exact hst
  have hsub : tag.length ≤ (s.drop m).length := by
    simp only [List.length_take] at hfit
    omega
  have := hm tag ht
  rw [startsWith_of_append hst hsub] at this
  exact absurd this (by simp)

/-- The close tag that the stream extractor looks up for the open tag it found. -/
theorem closeTag_of_openTagAt {s tag ct : Text} (h : openTagAt s = some (tag, ct)) :
    ((thinkOpenTags.zip thinkCloseTags).find? fun tags => eqIgnoreAsciiCase tag tags.1).map (·.2) = some ct := by
  obtain ⟨hmem, -⟩ := openTagAt_eq_some h
  have hall : ∀ tags ∈ thinkOpenTags.zip thinkCloseTags,
      ((thinkOpenTags.zip thinkCloseTags).find? fun tags' => eqIgnoreAsciiCase tags.1 tags'.1).map (·.2)
        = some tags.2 := by decide
  exact hall _ hmem

/-! ### The scan up to a tag -/

/-- The scan of a text up to the end of its first open tag. -/
theorem scan_through_open {s tag ct : Text} {n : Nat} (hn : n ≤ s.length)
    (htag : openTagAt (s.drop n) = some (tag, ct)) (hbefore : ∀ m < n, openTagAt (s.drop m) = none) (rest : Text) :
    scan none 0 (s.take (n + tag.length)) (s.drop (n + tag.length) ++ rest) =
      ⟨outs (s.take n) (s.drop n ++ rest), some ct, 0⟩ := by
  have hlen : tag.length ≤ (s.drop n).length := length_le_of_startsWith (openTagAt_eq_some htag).2
  have hrest : (s.drop n).take tag.length ++ (s.drop (n + tag.length) ++ rest) = s.drop n ++ rest := by
    rw [← List.append_assoc, ← List.drop_drop, List.take_append_drop]
  rw [List.take_add, ← List.append_nil (outs _ _), ← hrest]
  refine scan_trans (show scan none 0 _ _ = ⟨_, none, 0⟩ from ?_) ?_
  · apply scan_outs
    intro m hm
    simp only [List.length_take] at hm
    rw [hrest, ← List.append_assoc, List.take_append_drop, List.drop_append_of_le_length (by omega)]
    exact openTagAt_before (by omega) hn htag (hbefore m (by omega))
  · refine scan_open (show openTagAt _ = some (tag, ct) from ?_) ?_
    · rw [hrest]
      exact openTagAt_append rest htag
    · simp only [List.length_take]
      omega

/-- The scan of a text inside a block up to the end of its first close tag. -/
theorem scan_through_close {s ct : Text} {n : Nat} (hct : ct ∈ thinkCloseTags)
    (hfind : findIgnoreAsciiCase s ct = some n) (rest : Text) :
    scan (some ct) 0 (s.take (n + ct.length)) (s.drop (n + ct.length) ++ rest) =
      ⟨(s.take n).map Token.inside, none, 0⟩ := by
  rw [findIgnoreAsciiCase_eq_some] at hfind
  obtain ⟨hn, hstart, hbefore⟩ := hfind
  have hlen := length_le_of_startsWith hstart
  have hrest : (s.drop n).take ct.length ++ (s.drop (n + ct.length) ++ rest) = s.drop n ++ rest := by
    rw [← List.append_assoc, ← List.drop_drop, List.take_append_drop]
  rw [List.take_add, ← List.append_nil (List.map _ _)]
  refine scan_trans (show scan (some ct) 0 _ _ = ⟨_, some ct, 0⟩ from ?_) ?_
  · apply scan_inside
    intro m hm
    simp only [List.length_take] at hm
    rw [hrest, ← List.append_assoc, List.take_append_drop, List.drop_append_of_le_length (by omega),
      Bool.eq_false_iff]
    intro hst
    -- the close tag at `n` is complete, so that one at `m` would be complete too
    have hsub : ct.length ≤ (s.drop m).length := by
      simp only [List.length_drop] at hlen ⊢
      omega
    have := hbefore m (by omega)
    rw [startsWith_of_append hst hsub] at this
    exact absurd this (by simp)
  · apply scan_close hct
    · rw [hrest]
      exact startsWith_append rest hstart
    · simp only [List.length_take]
      omega

/-! ### Tails that may become a tag -/

/-- The text is the beginning of one of the tags, up to ASCII case. -/
def IsPartial (tags : List Text) (tail : Text) : Prop := ∃ tag ∈ tags, lower tail <+: lower tag

theorem isPartialOpenTagTail_iff {tail : Text} :
    isPartialOpenTagTail tail = true ↔ IsPartial thinkOpenTags tail := by
  have hl : ∀ t ∈ thinkOpenTags, lower t = t := by decide
  unfold isPartialOpenTagTail IsPartial
  simp only [List.any_eq_true, Bool.or_eq_true, Bool.and_eq_true, decide_eq_true_eq, List.isPrefixOf_iff_prefix,
    eqIgnoreAsciiCase_iff]
  constructor
  · rintro ⟨tag, htag, h | ⟨-, h⟩⟩
    · exact ⟨tag, htag, h.map Char.toLower⟩
    · refine ⟨tag, htag, ?_⟩
      rw [← h, lower_take]
      exact List.take_prefix _ _
  · rintro ⟨tag, htag, h⟩
    refine ⟨tag, htag, Or.inr ⟨by simpa using h.length_le, ?_⟩⟩
    rw [lower_take, ← length_lower tail]
    exact (List.prefix_iff_eq_take.mp h).symm

theorem closeTail_iff {ct tail : Text} :
    eqIgnoreAsciiCase (ct.take tail.length) tail = true ↔ IsPartial [ct] tail := by
  unfold IsPartial
  simp only [List.mem_singleton, exists_eq_left, eqIgnoreAsciiCase_iff, lower_take]
  rw [← length_lower tail]
  constructor
  · intro h
    rw [← h]
    exact List.take_prefix _ _
  · intro h
    exact (List.prefix_iff_eq_take.mp h).symm

theorem longestTail_spec (test : Text → Bool) (input : Text) {n : Nat} (hn : n ≤ input.length) :
    (longestTail test input n).getD input.length ≤ input.length ∧
    (∀ m, input.length - n ≤ m → m < (longestTail test input n).getD input.length → test (input.drop m) = false) ∧
    ((longestTail test input n).getD input.length < input.length →
      test (input.drop ((longestTail test input n).getD input.length)) = true) := by
  induction n with
  | zero =>
    simp only [longestTail, Option.getD_none]
    refine ⟨le_refl _, ?_, ?_⟩
    · intro m h1 h2; omega
    · intro h; omega
  | succ n ih =>
    unfold longestTail
    split
    · rename_i ht
      simp only [Option.getD_some]
      refine ⟨by omega, ?_, fun _ => ht⟩
      intro m h1 h2; omega
    · rename_i ht
      obtain ⟨h1, h2, h3⟩ := ih (by omega)
      refine ⟨h1, ?_, h3⟩
      intro m hm hlt
      by_cases hm' : m = input.length - (n + 1)
      · subst hm'
        simpa using ht
      · exact h2 m (by omega) hlt

/-- Before the split point a tag that is not complete in `input` cannot begin, whatever follows. -/
theorem split_safe {tags : List Text} {test : Text → Bool} (htest : ∀ tail, test tail = true ↔ IsPartial tags tail)
    {bound : Nat} (hbound : ∀ tag ∈ tags, tag.length ≤ bound + 1) {input : Text}
    (hnone : ∀ n ≤ input.length, ∀ tag ∈ tags, startsWithIgnoreAsciiCase (input.drop n) tag = false) :
    ∀ n < (longestTail test input (min bound input.length)).getD input.length, ∀ rest, ∀ tag ∈ tags,
      startsWithIgnoreAsciiCase ((input ++ rest).drop n) tag = false := by
  obtain ⟨h1, h2, -⟩ := longestTail_spec test input (n := min bound input.length) (by omega)
  intro n hn rest tag htag
  rw [Bool.eq_false_iff]
  intro hstart
  rw [List.drop_append_of_le_length (by omega)] at hstart
  by_cases hfit : tag.length ≤ (input.drop n).length
  · have := startsWith_of_append hstart hfit
    rw [hnone n (by omega) tag htag] at this
    exact absurd this (by simp)
  · -- the tag reaches past the end of the input, so that the tail from `n` on is partial
    have hpre := prefix_of_startsWith_append hstart (by omega)
    have htail : test (input.drop n) = true := (htest _).mpr ⟨tag, htag, hpre⟩
    have hb := hbound tag htag
    simp only [List.length_drop] at hfit
    rw [h2 n (by omega) hn] at htail
    exact absurd htail (by simp)

/-- A text without `<` has no tail that is the beginning of a tag. -/
private theorem longestTail_of_no_lt {tags : List Text} {test : Text → Bool} (htags : ∀ tag ∈ tags, isTag tag = true)
    (htest : ∀ tail, test tail = true ↔ IsPartial tags tail) {input : Text} (hlt : '<' ∉ input) {n : Nat}
    (hn : n ≤ input.length) : (longestTail test input n).getD input.length = input.length := by
  obtain ⟨h1, -, h3⟩ := longestTail_spec test input hn
  by_contra hne
  obtain ⟨tag, htag, hpre⟩ := (htest _).mp (h3 (by omega))
  obtain ⟨t, rfl, -, hl⟩ := isTag_cons (htags tag htag)
  rw [hl] at hpre
  generalize (longestTail test input n).getD input.length = k at h1 hne hpre
  cases hd : input.drop k with
  | nil =>
    rw [List.drop_eq_nil_iff] at hd
    omega
  | cons c d =>
    rw [hd, lower_cons, List.cons_prefix_cons] at hpre
    apply hlt
    rw [← eq_of_toLower_eq (by decide) hpre.1]
    apply List.mem_of_mem_drop (i := k)
    rw [hd]
    simp

theorem findSafeSplitPoint_eq (input : Text) :
    findSafeSplitPoint input = (longestTail isPartialOpenTagTail input (min 10 input.length)).getD input.length := by
  have hmax : (thinkOpenTags.map List.length).foldl max 0 = 11 := by decide
  unfold findSafeSplitPoint
  simp only [hmax]
  split
  · rfl
  · rename_i hlt
    have htags : ∀ tag ∈ thinkOpenTags, isTag tag = true := by decide
    exact (longestTail_of_no_lt htags (fun _ => isPartialOpenTagTail_iff) (by simpa using hlt) (by omega)).symm

theorem findSafeSplitPointClose_eq {ct : Text} (hct : ct ∈ thinkCloseTags) (input : Text) :
    findSafeSplitPointClose input ct =
      (longestTail (fun tail => eqIgnoreAsciiCase (ct.take tail.length) tail) input
        (min (ct.length - 1) input.length)).getD input.length := by
  unfold findSafeSplitPointClose
  split
  · rfl
  · rename_i hlt
    have htags : ∀ tag ∈ [ct], isTag tag = true := by
      intro tag htag
      rw [List.mem_singleton.mp htag]
      exact (isTag_of_close hct).1
    exact (longestTail_of_no_lt htags (fun _ => closeTail_iff) (by simpa using hlt) (by omega)).symm

/-! ### Orphaned close tags -/

/-- The first close tag of the pair in `s` has no open tag of the pair before it. -/
def hasOrphan (s : Text) (tags : Text × Text) : Bool :=
  match findIgnoreAsciiCase s tags.2 with
  | none => false
  | some pos => (findIgnoreAsciiCase (s.take pos) tags.1).isNone

private theorem stripOrphanedCloseTag_length_le (o c : Text) (fuel : Nat) (s : Text) :
    (stripOrphanedCloseTag o c fuel s).length ≤ s.length := by
  induction fuel generalizing s with
  | zero => simp [stripOrphanedCloseTag]
  | succ fuel ih =>
    unfold stripOrphanedCloseTag
    split
    · exact le_refl _
    · split
      · exact le_refl _
      · refine le_trans (ih _) ?_
        simp only [safeSliceTo, safeSliceFrom, List.length_append, List.length_take, List.length_drop]
        omega

private theorem stripOrphanedCloseTag_of_not {o c s : Text} (fuel : Nat) (h : hasOrphan s (o, c) = false) :
    stripOrphanedCloseTag o c fuel s = s := by
  cases fuel with
  | zero => rfl
  | succ fuel =>
    unfold hasOrphan at h
    unfold stripOrphanedCloseTag
    split
    · rfl
    · rename_i pos hpos
      simp only [hpos, Option.isNone_eq_false_iff] at h
      simp [safeSliceTo, h]

private theorem stripOrphanedCloseTag_lt {o c s : Text} (hc : 0 < c.length) (fuel : Nat)
    (h : hasOrphan s (o, c) = true) : (stripOrphanedCloseTag o c (fuel + 1) s).length < s.length := by
  unfold hasOrphan at h
  unfold stripOrphanedCloseTag
  split
  · rename_i hpos
    simp [hpos] at h
  · rename_i pos hpos
    simp only [hpos, Option.isNone_iff_eq_none] at h
    have hnot : ¬ (findIgnoreAsciiCase (safeSliceTo s pos) o).isSome = true := by
      simp [safeSliceTo, h]
    rw [if_neg hnot]
    refine lt_of_le_of_lt (stripOrphanedCloseTag_length_le _ _ _ _) ?_
    rw [findIgnoreAsciiCase_eq_some] at hpos
    have hlen := length_le_of_startsWith hpos.2.1
    simp only [List.length_drop] at hlen
    simp only [safeSliceTo, safeSliceFrom, List.length_append, List.length_take, List.length_drop]
    omega

private theorem strip_pass_le (pairs : List (Text × Text)) (s : Text) :
    (pairs.foldl (fun r tags => stripOrphanedCloseTag tags.1 tags.2 (r.length + 1) r) s).length ≤ s.length := by
  induction pairs generalizing s with
  | nil => exact le_refl _
  | cons tags pairs ih => exact le_trans (ih _) (stripOrphanedCloseTag_length_le _ _ _ _)

private theorem strip_pass (pairs : List (Text × Text)) (hp : ∀ tags ∈ pairs, 0 < tags.2.length) (s : Text) :
    (∀ tags ∈ pairs, hasOrphan s tags = false) ∧
        pairs.foldl (fun r tags => stripOrphanedCloseTag tags.1 tags.2 (r.length + 1) r) s = s ∨
      (∃ tags ∈ pairs, hasOrphan s tags = true) ∧
        (pairs.foldl (fun r tags => stripOrphanedCloseTag tags.1 tags.2 (r.length + 1) r) s).length < s.length := by
  induction pairs with
  | nil => simp
  | cons tags pairs ih =>
    by_cases h : hasOrphan s tags = true
    · right
      refine ⟨⟨tags, by simp, h⟩, ?_⟩
      rw [List.foldl_cons]
      exact lt_of_le_of_lt (strip_pass_le _ _) (stripOrphanedCloseTag_lt (hp tags (by simp)) _ h)
    · rw [Bool.not_eq_true] at h
      rw [List.foldl_cons, stripOrphanedCloseTag_of_not _ h]
      rcases ih (fun t ht => hp t (by simp [ht])) with ⟨h1, h2⟩ | ⟨⟨t, ht, h1⟩, h2⟩
      · exact Or.inl ⟨by simpa [h] using h1, h2⟩
      · exact Or.inr ⟨⟨t, by simp [ht], h1⟩, h2⟩

private theorem pairs_closeTag_pos : ∀ tags ∈ thinkOpenTags.zip thinkCloseTags, 0 < tags.2.length := by decide

private theorem no_orphan_of_no_lt {s : Text} (h : '<' ∉ s) :
    ∀ tags ∈ thinkOpenTags.zip thinkCloseTags, hasOrphan s tags = false := by
  intro tags htags
  unfold hasOrphan
  split
  · rfl
  · rename_i pos hpos
    rw [findIgnoreAsciiCase_eq_some] at hpos
    obtain ⟨s', hs'⟩ := head_of_startsWith (isTag_of_open htags).2.1 hpos.2.1
    exact absurd (List.mem_of_mem_drop (by rw [hs']; simp : '<' ∈ s.drop pos)) h

/-- Either no close tag of the text lacks its open tag and the text stays as it is, or it gets shorter. -/
theorem strip_cases (s : Text) :
    (∀ tags ∈ thinkOpenTags.zip thinkCloseTags, hasOrphan s tags = false) ∧ stripOrphanedCloseTags s = s ∨
      (∃ tags ∈ thinkOpenTags.zip thinkCloseTags, hasOrphan s tags = true) ∧
        (stripOrphanedCloseTags s).length < s.length := by
  unfold stripOrphanedCloseTags
  split
  · exact strip_pass _ pairs_closeTag_pos s
  · rename_i hlt
    exact Or.inl ⟨no_orphan_of_no_lt (by simpa using hlt), rfl⟩

theorem length_strip_le (s : Text) : (stripOrphanedCloseTags s).length ≤ s.length := by
  rcases strip_cases s with ⟨-, h⟩ | ⟨-, h⟩
  · rw [h]
  · omega

theorem strip_eq_self {s : Text} (h : ∀ n ≤ s.length, closeTagAt (s.drop n) = false) :
    stripOrphanedCloseTags s = s := by
  rcases strip_cases s with ⟨-, h'⟩ | ⟨⟨tags, htags, ho⟩, -⟩
  · exact h'
  · unfold hasOrphan at ho
    split at ho
    · simp at ho
    · rename_i pos hpos
      rw [findIgnoreAsciiCase_eq_some] at hpos
      have := closeTagAt_eq_false.mp (h pos hpos.1) tags.2 (isTag_of_open htags).2.2.2.2.2.1
      rw [this] at hpos
      exact absurd hpos.2.1 (by simp)

end OpenProxy.Think
