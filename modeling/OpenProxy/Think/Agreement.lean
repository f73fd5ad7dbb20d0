import OpenProxy.Think.Split

/-!
# The extractor for whole responses

`extractThinkFromContent` collects the content and, up to white space, the reasoning of the reference scan, and then
strips the orphaned close tags of the collected content.  On a text without orphaned close tags it therefore agrees
with every run of the stream extractor unless the removal of the blocks puts a close tag together
(`run_agrees_iff`).
-/

namespace OpenProxy.Think

/-- Removing the reasoning blocks puts no close tag together: in what remains, no close tag stands before the first
open tag of its kind. -/
def SpliceFree (t : Text) : Prop :=
  ∀ tags ∈ thinkOpenTags.zip thinkCloseTags, hasOrphan (contentOf (scanAll t)) tags = false

instance (t : Text) : Decidable (SpliceFree t) := inferInstanceAs (Decidable (∀ tags ∈ _, _))

/-! ### White space and newlines -/

private theorem deleteWhitespace_appendThinkSegmentReasoning (reasoning thinkText : Text) :
    deleteWhitespace (appendThinkSegmentReasoning reasoning thinkText) =
      deleteWhitespace reasoning ++ deleteWhitespace thinkText := by
  rw [← deleteWhitespace_trim thinkText]
  have hnl : isWhitespace '\n' = true := by decide
  unfold appendThinkSegmentReasoning
  by_cases ht : trim thinkText = []
  · simp [ht, deleteWhitespace]
  · by_cases hr : reasoning = []
    · simp [ht, hr, deleteWhitespace]
    · simp [ht, hr, deleteWhitespace, hnl]

/-! ### One block -/

/-- The first `>` at an open tag is the end of the tag. -/
private theorem find_gt_of_openTagAt {s tag ct : Text} (h : openTagAt s = some (tag, ct)) :
    ((find s ['>']).map (· + 1)).getD s.length = tag.length := by
  obtain ⟨hmem, hstart⟩ := openTagAt_eq_some h
  have hshape : ∀ tags ∈ thinkOpenTags.zip thinkCloseTags,
      tags.1 = tags.1.dropLast ++ ['>'] ∧ '>' ∉ tags.1.dropLast ∧ lower tags.1 = tags.1 := by decide
  obtain ⟨hlast, hnot, hl⟩ := hshape _ hmem
  simp only at hlast hnot hl hstart
  generalize tag.dropLast = body at hlast hnot
  subst hlast
  rw [startsWith_iff, hl] at hstart
  have hget : ∀ i < body.length + 1, (lower s)[i]? = (body ++ ['>'])[i]? := by
    intro i hi
    obtain ⟨r, hr⟩ := hstart
    rw [← hr, List.getElem?_append_left (by simpa using hi)]
  have hfind : find s ['>'] = some body.length := by
    unfold find
    rw [firstAt_eq_some]
    have hlen := hstart.length_le
    simp only [List.length_append, List.length_cons, List.length_nil, length_lower] at hlen
    refine ⟨by omega, ?_, ?_⟩
    · have hc := hget body.length (by omega)
      rw [List.getElem?_append_right (le_refl _), Nat.sub_self] at hc
      simp only [lower, List.getElem?_map, List.getElem?_cons_zero, Option.map_eq_some_iff] at hc
      obtain ⟨c, hc, hlc⟩ := hc
      rw [eq_of_toLower_eq (by decide) hlc] at hc
      rw [List.isPrefixOf_iff_prefix, List.cons_prefix_iff]
      exact ⟨s.drop (body.length + 1), List.drop_eq_getElem?_toList_append.trans (by rw [hc]; rfl), by simp⟩
    · intro m hm
      rw [Bool.eq_false_iff]
      intro hpre
      rw [List.isPrefixOf_iff_prefix] at hpre
      obtain ⟨r, hr⟩ := hpre
      have hc : s[m]? = some '>' := by
        rw [← List.head?_drop, ← hr]
        rfl
      have hcl := hget m (by omega)
      rw [List.getElem?_append_left hm] at hcl
      simp only [lower, List.getElem?_map, hc, Option.map_some] at hcl
      exact hnot (List.mem_of_getElem? hcl.symm)
  rw [hfind]
  simp

/-- A block, in the words of the scan: the text before it is content, its own text is reasoning, and the scan of the
text after it starts anew. -/
private theorem parseThinkSegment_spec {s tag : Text} {n : Nat}
    (h : findEarliestTag s thinkOpenTags = some (n, tag)) :
    (parseThinkSegment s n).1 ++ contentOf (scanAll (parseThinkSegment s n).2.2) = contentOf (scanAll s) ∧
      (parseThinkSegment s n).2.1 ++ reasoningOf (scanAll (parseThinkSegment s n).2.2) = reasoningOf (scanAll s) ∧
      (parseThinkSegment s n).2.2.length < s.length := by
  obtain ⟨ct, htag, hn, hbefore⟩ := findEarliestTag_some h
  obtain ⟨hmem, hstart⟩ := openTagAt_eq_some htag
  have hct : ct ∈ thinkCloseTags := (isTag_of_open hmem).2.2.2.2.2.1
  have h7 : 7 ≤ tag.length := (isTag_of_open hmem).2.2.1
  have hlen := length_le_of_startsWith hstart
  simp only [List.length_drop] at hlen
  have hmatch : findMatchingCloseTag (s.drop n) = some ct := by
    change (openTagAt (s.drop n)).map (·.2) = some ct
    rw [htag]
    rfl
  have hopen := scan_through_open hn htag hbefore []
  simp only [List.append_nil] at hopen
  have hafter : (s.drop n).drop tag.length = s.drop (n + tag.length) := List.drop_drop
  have hscan : scanAll s =
      outs (s.take n) (s.drop n) ++ (scan (some ct) 0 (s.drop (n + tag.length)) []).toks := by
    unfold scanAll
    conv => lhs; rw [← List.take_append_drop (n + tag.length) s]
    rw [scan_append, List.append_nil]
    simp only [hopen]
  unfold parseThinkSegment
  simp only [safeSliceTo, safeSliceFrom, hmatch, find_gt_of_openTagAt htag, hafter]
  generalize hrest : s.drop (n + tag.length) = rest at hscan
  have hlr : rest.length = s.length - (n + tag.length) := by rw [← hrest, List.length_drop]
  cases hfind : findIgnoreAsciiCase rest ct with
  | none =>
    rw [findIgnoreAsciiCase_eq_none] at hfind
    have hin : scan (some ct) 0 rest [] = ⟨rest.map Token.inside, some ct, 0⟩ := by
      apply scan_inside
      intro m hm
      rw [List.append_nil]
      exact hfind m (by omega)
    have hnil : scanAll [] = [] := rfl
    rw [hscan, hin, hnil]
    refine ⟨by simp, by simp, ?_⟩
    simp only [List.length_nil]
    omega
  | some pos =>
    have hclose := scan_through_close hct hfind []
    simp only [List.append_nil] at hclose
    have hin : (scan (some ct) 0 rest []).toks =
        (rest.take pos).map Token.inside ++ scanAll (rest.drop (pos + ct.length)) := by
      unfold scanAll
      conv => lhs; rw [← List.take_append_drop (pos + ct.length) rest]
      rw [scan_append, List.append_nil]
      simp only [hclose]
    rw [hscan, hin]
    refine ⟨by simp [-List.map_take], by simp [-List.map_take], ?_⟩
    simp only [List.length_drop]
    omega

/-! ### The loop -/

/-- The loop collects the content of the scan, and its reasoning up to white space. -/
private theorem extractThinkLoop_spec (fuel : Nat) (result : ExtractedThink) (remaining : Text)
    (hfuel : remaining.length < fuel) :
    (extractThinkLoop fuel result remaining).1.content ++ (extractThinkLoop fuel result remaining).2 =
        result.content ++ contentOf (scanAll remaining) ∧
      deleteWhitespace (extractThinkLoop fuel result remaining).1.reasoning =
        deleteWhitespace result.reasoning ++ deleteWhitespace (reasoningOf (scanAll remaining)) := by
  induction fuel generalizing result remaining with
  | zero => omega
  | succ fuel ih =>
    unfold extractThinkLoop
    split
    · rename_i hnone
      rw [findEarliestTag_none_iff] at hnone
      have hscan : scanAll remaining = outs remaining [] := by
        unfold scanAll
        rw [scan_outs]
        intro m hm
        rw [List.append_nil]
        exact hnone m (by omega)
      simp [hscan, deleteWhitespace]
    · rename_i n tag hfind
      obtain ⟨hc, hr, hlt⟩ := parseThinkSegment_spec hfind
      obtain ⟨ihc, ihr⟩ := ih
        { content := result.content ++ (parseThinkSegment remaining n).1
          reasoning := appendThinkSegmentReasoning result.reasoning (parseThinkSegment remaining n).2.1 }
        (parseThinkSegment remaining n).2.2 (by omega)
      simp only [deleteWhitespace_appendThinkSegmentReasoning, List.append_assoc, hc] at ihc ihr
      refine ⟨ihc, ?_⟩
      rw [ihr, ← hr, deleteWhitespace_append]

/-- What the extractor for whole responses returns, in terms of the scan. -/
theorem extractThinkFromContent_spec (t : Text) :
    (extractThinkFromContent t).content =
        (stripOrphanedCloseTags (contentOf (scanAll t))).dropWhile (· == '\n') ∧
      deleteWhitespace (extractThinkFromContent t).reasoning = deleteWhitespace (reasoningOf (scanAll t)) := by
  obtain ⟨hc, hr⟩ := extractThinkLoop_spec (t.length + 1) ⟨[], []⟩ t (by omega)
  unfold extractThinkFromContent
  simp only [List.nil_append] at hc
  simp only [hc]
  exact ⟨trivial, by simpa [deleteWhitespace] using hr⟩

/-! ### Stripping, up to newlines -/

/-- A close tag has no newline in it, in any case. -/
private theorem no_newline_in_closeTag {s ct : Text} (hct : ct ∈ thinkCloseTags)
    (h : startsWithIgnoreAsciiCase s ct = true) : '\n' ∉ s.take ct.length := by
  have hshape : ∀ ct ∈ thinkCloseTags, '\n' ∉ lower ct := by decide
  intro hmem
  rw [startsWith_iff, List.prefix_iff_eq_take, length_lower, ← lower_take] at h
  apply hshape ct hct
  rw [h]
  exact List.mem_map_of_mem (f := Char.toLower) hmem

private theorem count_newline_stripOrphanedCloseTag {o ct : Text} (hct : ct ∈ thinkCloseTags) (fuel : Nat) (s : Text) :
    (stripOrphanedCloseTag o ct fuel s).count '\n' = s.count '\n' := by
  induction fuel generalizing s with
  | zero => rfl
  | succ fuel ih =>
    unfold stripOrphanedCloseTag
    split
    · rfl
    · rename_i pos hpos
      rw [findIgnoreAsciiCase_eq_some] at hpos
      split
      · rfl
      · have hnot := List.count_eq_zero.mpr (no_newline_in_closeTag hct hpos.2.1)
        rw [ih, safeSliceTo, safeSliceFrom, List.count_append, ← List.drop_drop]
        conv => rhs; rw [← List.take_append_drop pos s, List.count_append,
          ← List.take_append_drop ct.length (s.drop pos), List.count_append, hnot, Nat.zero_add]

private theorem count_newline_strip_pass (pairs : List (Text × Text)) (hp : ∀ tags ∈ pairs, tags.2 ∈ thinkCloseTags)
    (s : Text) :
    (pairs.foldl (fun r tags => stripOrphanedCloseTag tags.1 tags.2 (r.length + 1) r) s).count '\n' =
      s.count '\n' := by
  induction pairs generalizing s with
  | nil => rfl
  | cons tags pairs ih =>
    rw [List.foldl_cons, ih fun t ht => hp t (by simp [ht])]
    exact count_newline_stripOrphanedCloseTag (hp tags (by simp)) _ _

private theorem count_newline_strip (s : Text) : (stripOrphanedCloseTags s).count '\n' = s.count '\n' := by
  unfold stripOrphanedCloseTags
  split
  · exact count_newline_strip_pass _ (by decide) s
  · rfl

private theorem length_eq_of_dropWhile_newline {s s' : Text} (hcount : s'.count '\n' = s.count '\n')
    (h : s.dropWhile (· == '\n') = s'.dropWhile (· == '\n')) : s.length = s'.length := by
  have hf : s.filter (fun c => !(c == '\n')) = s'.filter fun c => !(c == '\n') := by
    rw [← filter_dropWhile, h, filter_dropWhile]
  have hl := congrArg List.length hf
  simp only [← List.countP_eq_length_filter] at hl
  have e := fun u : Text => List.length_eq_countP_add_countP (· == '\n') (l := u)
  simp only [List.count] at hcount
  have h1 := e s
  have h2 := e s'
  simp only [Bool.not_eq_true, ← Bool.not_eq_true'] at h1 h2
  simp only [Bool.decide_eq_true] at h1 h2
  omega

namespace ThinkStreamExtractor

/-- Unary and streaming extraction: on a text without orphaned close tags, cut into deltas in any way, the two return
the same content up to leading newlines and the same reasoning up to white space, if and only if the removal of the
blocks puts no close tag together. -/
theorem run_agrees_iff (t : Text) (hfree : OrphanFree t) (deltas : List Text) (hflat : deltas.flatten = t) :
    ((run deltas).1.dropWhile (· == '\n') = (extractThinkFromContent t).content ∧
        deleteWhitespace (run deltas).2 = deleteWhitespace (extractThinkFromContent t).reasoning) ↔ SpliceFree t := by
  subst hflat
  obtain ⟨hr, -, hc⟩ := runFrom_spec new_wellFormed deltas
  obtain ⟨hec, her⟩ := extractThinkFromContent_spec deltas.flatten
  have hcontent : (run deltas).1 = contentOf (scanAll deltas.flatten) := hc hfree
  have hreasoning : (run deltas).2 = reasoningOf (scanAll deltas.flatten) := hr
  rw [hcontent, hreasoning, hec, her]
  constructor
  · rintro ⟨h, -⟩
    have hlen := length_eq_of_dropWhile_newline (count_newline_strip _) h
    rcases strip_cases (contentOf (scanAll deltas.flatten)) with ⟨hno, -⟩ | ⟨-, hlt⟩
    · exact hno
    · omega
  · intro hsplice
    rcases strip_cases (contentOf (scanAll deltas.flatten)) with ⟨-, hself⟩ | ⟨⟨tags, htags, ho⟩, -⟩
    · rw [hself]
      exact ⟨rfl, rfl⟩
    · rw [hsplice tags htags] at ho
      exact absurd ho (by simp)

/-- A text with a block, cut inside the open tag. -/
theorem run_agrees_block :
    (run ["a <thi".toList, "nk> b </Think>c".toList]).1.dropWhile (· == '\n') =
        (extractThinkFromContent "a <think> b </Think>c".toList).content ∧
      deleteWhitespace (run ["a <thi".toList, "nk> b </Think>c".toList]).2 =
        deleteWhitespace (extractThinkFromContent "a <think> b </Think>c".toList).reasoning :=
  (run_agrees_iff "a <think> b </Think>c".toList (by decide) ["a <thi".toList, "nk> b </Think>c".toList]
    (by decide)).mpr (by decide)

/-- A block in the middle of a close tag: the text has no close tag outside the block, but its content has one, which
only the extractor for whole responses strips. -/
theorem run_spliced_close_tag :
    OrphanFree "</thi<think>x</think>nk>".toList ∧
      (run ["</thi<think>x</think>nk>".toList]).1 = "</think>".toList ∧
      (extractThinkFromContent "</thi<think>x</think>nk>".toList).content = [] ∧
      (run ["</thi<think>x</think>nk>".toList]).1.dropWhile (· == '\n') ≠
        (extractThinkFromContent "</thi<think>x</think>nk>".toList).content := by
  decide

end ThinkStreamExtractor

end OpenProxy.Think
