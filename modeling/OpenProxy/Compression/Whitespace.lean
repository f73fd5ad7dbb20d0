import OpenProxy.Compression.Normalize

/-!
# The normal form of white space

`normalize_message_whitespace` removes the white space at the ends of lines and leaves at most two line breaks of a run.
A run ends at the first character that is not a line break, and so also at the spaces of a line that has nothing else on
it.  The loop is compared with `squeeze`, which keeps the white space at the end of a line apart from the text before it
(`normalizeLoop_eq`); `squeeze` leaves three line breaks in a row exactly where two such lines follow each other
(`breaksThree_iff`).
-/

namespace OpenProxy.Compression

/-- No three line breaks in a row, and no space or tab before a line break or at the end. -/
structure NormalWhitespace (t : Text) : Prop where
  no_three : ¬ ['\n', '\n', '\n'] <:+: t
  no_blank_before : ∀ c, isBlank c = true → ¬ [c, '\n'] <:+: t
  no_blank_last : ∀ c, isBlank c = true → ¬ [c] <:+ t

/-- The second text is the first one without some of its spaces, tabs and line breaks. -/
inductive WhitespaceDeleted : Text → Text → Prop
  | nil : WhitespaceDeleted [] []
  | keep (c : Char) {s t : Text} : WhitespaceDeleted s t → WhitespaceDeleted (c :: s) (c :: t)
  | delete {c : Char} {s t : Text} (hc : isBlank c = true ∨ c = '\n') :
      WhitespaceDeleted s t → WhitespaceDeleted (c :: s) t

/-- The text that `normalize_message_whitespace` returns, borrowed or not. -/
def normalizedWhitespace (s : Text) : Text := (normalizeMessageWhitespace s).getD s

/-- Two lines in a row without text between line breaks, at least one of them with a space or a tab. -/
def SpacedBlankLines (w : Text) : Prop :=
  ∃ l m : Text, w = '\n' :: (l ++ '\n' :: (m ++ ['\n'])) ∧ (∀ c ∈ l, isBlank c = true) ∧ (∀ c ∈ m, isBlank c = true) ∧
    (l ≠ [] ∨ m ≠ [])

/-! ### The test -/

theorem normalWhitespace_nil : NormalWhitespace [] :=
  ⟨by simp, fun c _ => by simp, fun c _ => by simp⟩

/-- What a text must not begin with after `k` line breaks, or after a space or a tab. -/
def Follows (k : Nat) (trailing : Bool) (s : Text) : Prop :=
  (trailing = true → s ≠ [] ∧ s.head? ≠ some '\n') ∧ ¬ List.replicate (3 - k) '\n' <+: s

private theorem normalWhitespace_newline {s : Text} :
    NormalWhitespace ('\n' :: s) ↔ ¬ ['\n', '\n'] <+: s ∧ NormalWhitespace s := by
  constructor
  · intro h
    refine ⟨fun hp => h.no_three ?_, ?_, ?_, ?_⟩
    · exact (List.cons_prefix_cons.2 ⟨rfl, hp⟩).isInfix
    · exact fun hi => h.no_three (List.infix_cons hi)
    · exact fun c hc hi => h.no_blank_before c hc (List.infix_cons hi)
    · exact fun c hc hi => h.no_blank_last c hc (hi.trans (List.suffix_cons _ _))
  · rintro ⟨hp, h⟩
    refine ⟨?_, ?_, ?_⟩
    · rw [List.infix_cons_iff, List.cons_prefix_cons]
      rintro (⟨-, h3⟩ | h3)
      · exact hp h3
      · exact h.no_three h3
    · intro c hc
      rw [List.infix_cons_iff, List.cons_prefix_cons]
      rintro (⟨rfl, -⟩ | h2)
      · exact absurd hc (by decide)
      · exact h.no_blank_before c hc h2
    · intro c hc
      rw [List.suffix_cons_iff]
      rintro (h1 | h1)
      · injection h1 with h1 _
        subst h1
        exact absurd hc (by decide)
      · exact h.no_blank_last c hc h1

private theorem normalWhitespace_cons {c : Char} {s : Text} (hc : c ≠ '\n') :
    NormalWhitespace (c :: s) ↔ Follows 0 (isBlank c) s ∧ NormalWhitespace s := by
  constructor
  · intro h
    have hs : NormalWhitespace s := by
      refine ⟨fun hi => h.no_three (List.infix_cons hi), ?_, ?_⟩
      · exact fun d hd hi => h.no_blank_before d hd (List.infix_cons hi)
      · exact fun d hd hi => h.no_blank_last d hd (hi.trans (List.suffix_cons _ _))
    refine ⟨⟨fun hb => ?_, fun hp => hs.no_three hp.isInfix⟩, hs⟩
    cases s with
    | nil => exact absurd (List.suffix_refl _) (h.no_blank_last c hb)
    | cons d s =>
      refine ⟨List.cons_ne_nil _ _, fun hd => h.no_blank_before c hb ?_⟩
      simp only [List.head?_cons, Option.some.injEq] at hd
      subst hd
      exact List.IsPrefix.isInfix ⟨s, rfl⟩
  · rintro ⟨⟨hf, -⟩, h⟩
    refine ⟨?_, ?_, ?_⟩
    · rw [List.infix_cons_iff, List.cons_prefix_cons]
      rintro (⟨h3, -⟩ | h3)
      · exact hc h3.symm
      · exact h.no_three h3
    · intro d hd
      rw [List.infix_cons_iff, List.cons_prefix_cons]
      rintro (⟨rfl, h2⟩ | h2)
      · obtain ⟨t, rfl⟩ := h2
        exact (hf hd).2 rfl
      · exact h.no_blank_before d hd h2
    · intro d hd
      rw [List.suffix_cons_iff]
      rintro (h1 | h1)
      · injection h1 with h1 h2
        subst h1 h2
        exact (hf hd).1 rfl
      · exact h.no_blank_last d hd h1

/-- The test of a text that comes after `k` line breaks, or after a space or a tab. -/
theorem needsNormalizationFrom_eq_false_iff {s : Text} {k : Nat} {trailing : Bool} (hk : k ≤ 2) :
    needsNormalizationFrom k trailing s = false ↔ Follows k trailing s ∧ NormalWhitespace s := by
  induction s generalizing k trailing with
  | nil =>
    have hrep : ¬ List.replicate (3 - k) '\n' <+: ([] : Text) := by
      rw [List.prefix_nil, List.replicate_eq_nil_iff]
      omega
    cases trailing <;> simp [needsNormalizationFrom, Follows, normalWhitespace_nil, hrep]
  | cons c s ih =>
    by_cases hc : c = '\n'
    · subst hc
      rw [normalWhitespace_newline, needsNormalizationFrom, if_pos rfl]
      cases trailing with
      | true => simp [Follows]
      | false =>
        rcases Nat.lt_or_ge k 2 with hk2 | hk2
        · have hfalse : decide (2 ≤ k) = false := by simpa using hk2
          have hsub : 3 - k = (2 - k) + 1 := by omega
          have hsub' : 3 - (k + 1) = 2 - k := by omega
          have hpre : List.replicate (2 - k) '\n' <+: ['\n', '\n'] :=
            ⟨List.replicate k '\n', by
              rw [← List.replicate_add, Nat.sub_add_cancel hk]
              rfl⟩
          rw [hfalse, Bool.false_or, Bool.false_or, ih (by omega)]
          simp only [Follows, Bool.false_eq_true, false_imp_iff, true_and, hsub, hsub', List.replicate_succ,
            List.cons_prefix_cons]
          constructor
          · rintro ⟨h1, h2⟩
            exact ⟨h1, fun hp => h1 (hpre.trans hp), h2⟩
          · rintro ⟨h1, -, h2⟩
            exact ⟨h1, h2⟩
        · obtain rfl : k = 2 := by omega
          simp [Follows]
    · rw [normalWhitespace_cons hc, needsNormalizationFrom, if_neg hc, ih (by omega)]
      have hhead : ¬ List.replicate (3 - k) '\n' <+: c :: s := by
        have hsub : 3 - k = (2 - k) + 1 := by omega
        rw [hsub, List.replicate_succ, List.cons_prefix_cons]
        exact fun h => hc h.1.symm
      have hfollows : Follows k trailing (c :: s) := ⟨fun _ => by simpa using hc, hhead⟩
      simp [hfollows]

/-- `needs_normalization` is right: it says no exactly of the texts in normal form. -/
theorem needsNormalization_eq_false_iff {s : Text} : needsNormalization s = false ↔ NormalWhitespace s := by
  unfold needsNormalization
  rw [needsNormalizationFrom_eq_false_iff (by omega)]
  constructor
  · exact fun h => h.2
  · exact fun h => ⟨⟨by simp, fun hp => h.no_three hp.isInfix⟩, h⟩

theorem normalizeMessageWhitespace_eq_none_iff {s : Text} :
    normalizeMessageWhitespace s = none ↔ NormalWhitespace s := by
  rw [← needsNormalization_eq_false_iff]
  unfold normalizeMessageWhitespace
  cases needsNormalization s <;> simp

/-! ### The loop without positions -/

/-- The loop of `normalize_message_whitespace`, with the number of line breaks just read and the spaces and tabs read
since the last other character. -/
def squeeze : Nat → Text → Text → Text
  | _, _, [] => []
  | run, pending, c :: s =>
    if c = '\n' then (if run < 2 then '\n' :: squeeze (run + 1) [] s else squeeze (run + 1) [] s)
    else if isBlank c then squeeze 0 (pending ++ [c]) s
    else pending ++ c :: squeeze 0 [] s

private theorem blank_concat {l : Text} {c : Char} (hl : ∀ d ∈ l, isBlank d = true) (hc : isBlank c = true) :
    ∀ d ∈ l ++ [c], isBlank d = true := by
  intro d hd
  rcases List.mem_append.1 hd with hd | hd
  · exact hl d hd
  · rw [List.mem_singleton.1 hd]
    exact hc

/-- Where the text from `start` on is `kept`, which ends with no space or tab, and then `pending`, which has only these,
trimming removes `pending`. -/
private theorem trimTrailingWs_eq {base kept pending : Text} (hkept : ∀ c, isBlank c = true → ¬ [c] <:+ kept)
    (hpending : ∀ c ∈ pending, isBlank c = true) :
    trimTrailingWs (base ++ kept ++ pending) base.length = base ++ kept := by
  unfold trimTrailingWs
  rw [List.append_assoc, List.take_left, List.drop_left, List.reverse_append,
    List.dropWhile_append_of_pos (by simpa using hpending)]
  congr 1
  rcases List.eq_nil_or_concat kept with rfl | ⟨front, c, rfl⟩
  · rfl
  · have hc : isBlank c = false := by
      rw [← Bool.not_eq_true]
      exact fun hb => hkept c hb ⟨front, by simp⟩
    simp [hc]

/-- The loop has written `base`, up to the start of the line, then `kept` and `pending` of the line. -/
theorem normalizeLoop_eq {s : Text} {base kept pending : Text} {run : Nat}
    (hkept : ∀ c, isBlank c = true → ¬ [c] <:+ kept) (hpending : ∀ c ∈ pending, isBlank c = true)
    (hrun : 0 < run → kept = [] ∧ pending = []) :
    normalizeLoop (base ++ kept ++ pending) run base.length s = base ++ kept ++ squeeze run pending s := by
  induction s generalizing base kept pending run with
  | nil =>
    unfold normalizeLoop squeeze
    rw [trimTrailingWs_eq hkept hpending, List.append_nil]
  | cons c s ih =>
    have hnil : ∀ d, isBlank d = true → ¬ [d] <:+ ([] : Text) := by simp
    unfold normalizeLoop squeeze
    by_cases hc : c = '\n'
    · rw [if_pos hc, if_pos hc]
      by_cases hr : run < 2
      · rw [if_pos (by omega), if_pos hr, trimTrailingWs_eq hkept hpending]
        have h := @ih (base ++ kept ++ ['\n']) [] [] (run + 1) hnil (by simp) (fun _ => ⟨rfl, rfl⟩)
        simpa using h
      · obtain ⟨rfl, rfl⟩ := hrun (by omega)
        rw [if_neg (by omega), if_neg hr]
        exact @ih base [] [] (run + 1) hnil (by simp) (fun _ => ⟨rfl, rfl⟩)
    · rw [if_neg hc, if_neg hc]
      have hstart : (if 0 < run then (base ++ kept ++ pending).length else base.length) = base.length := by
        split
        · rename_i h0
          obtain ⟨rfl, rfl⟩ := hrun h0
          simp
        · rfl
      simp only [hstart]
      by_cases hb : isBlank c = true
      · rw [if_pos hb]
        have h := @ih base kept (pending ++ [c]) 0 hkept (blank_concat hpending hb) (by simp)
        simpa using h
      · rw [if_neg hb]
        have hkept' : ∀ d, isBlank d = true → ¬ [d] <:+ kept ++ pending ++ [c] := by
          intro d hd hs
          have hlast : d = c := by
            obtain ⟨front, hfront⟩ := hs
            exact (List.append_inj' hfront rfl).2 |> List.singleton_inj.1
          rw [hlast] at hd
          exact hb hd
        have h := @ih base (kept ++ pending ++ [c]) [] 0 hkept' (by simp) (by simp)
        simpa using h

/-- The text that is returned, borrowed or not, is the squeezed one. -/
theorem normalizedWhitespace_of_needs {s : Text} (h : needsNormalization s = true) :
    normalizedWhitespace s = squeeze 0 [] s := by
  unfold normalizedWhitespace normalizeMessageWhitespace
  rw [h]
  exact @normalizeLoop_eq s [] [] [] 0 (by simp) (by simp) (by simp)

theorem normalizedWhitespace_of_normal {s : Text} (h : NormalWhitespace s) : normalizedWhitespace s = s := by
  unfold normalizedWhitespace
  rw [normalizeMessageWhitespace_eq_none_iff.2 h]
  rfl

theorem WhitespaceDeleted.refl (s : Text) : WhitespaceDeleted s s := by
  induction s with
  | nil => exact .nil
  | cons c s ih => exact .keep c ih

private theorem WhitespaceDeleted.append {s t : Text} (u : Text) (h : WhitespaceDeleted s t) :
    WhitespaceDeleted (u ++ s) (u ++ t) := by
  induction u with
  | nil => exact h
  | cons c u ih => exact .keep c ih

private theorem WhitespaceDeleted.delete_append {s t : Text} {u : Text} (hu : ∀ c ∈ u, isBlank c = true)
    (h : WhitespaceDeleted s t) : WhitespaceDeleted (u ++ s) t := by
  induction u with
  | nil => exact h
  | cons c u ih => exact .delete (.inl (hu c (by simp))) (ih fun d hd => hu d (by simp [hd]))

theorem squeeze_deleted {s : Text} {run : Nat} {pending : Text} (hpending : ∀ c ∈ pending, isBlank c = true) :
    WhitespaceDeleted (pending ++ s) (squeeze run pending s) := by
  induction s generalizing run pending with
  | nil => exact .delete_append hpending .nil
  | cons c s ih =>
    have hrest : ∀ n, WhitespaceDeleted s (squeeze n [] s) := fun n => @ih n [] (by simp)
    unfold squeeze
    by_cases hc : c = '\n'
    · rw [if_pos hc]
      subst hc
      split
      · exact .delete_append hpending (.keep _ (hrest _))
      · exact .delete_append hpending (.delete (.inr rfl) (hrest _))
    · rw [if_neg hc]
      by_cases hb : isBlank c = true
      · rw [if_pos hb]
        simpa using @ih 0 _ (blank_concat hpending hb)
      · rw [if_neg hb]
        exact .append pending (.keep c (hrest _))

/-- Only white space is deleted. -/
theorem normalizedWhitespace_deleted (s : Text) : WhitespaceDeleted s (normalizedWhitespace s) := by
  cases h : needsNormalization s with
  | false =>
    rw [normalizedWhitespace_of_normal (needsNormalization_eq_false_iff.1 h)]
    exact .refl s
  | true =>
    rw [normalizedWhitespace_of_needs h]
    exact @squeeze_deleted s 0 [] (by simp)

/-! ### Three line breaks in a row -/

/-- Whether a third line break is written next to two others, with the number of those at the end of what is written and
the number of line breaks just read. -/
def breaksThree : Nat → Nat → Text → Bool
  | _, _, [] => false
  | written, run, c :: s =>
    if c = '\n' then (if run < 2 then 2 ≤ written || breaksThree (written + 1) (run + 1) s
      else breaksThree written (run + 1) s)
    else if isBlank c then breaksThree written 0 s
    else breaksThree 0 0 s

/-- Spaces and tabs with other text after them on the line do not matter to the test. -/
private theorem needsNormalizationFrom_pending {pending s : Text} {c : Char} {written : Nat} {trailing : Bool}
    (hpending : ∀ d ∈ pending, isBlank d = true) (hc : c ≠ '\n') (hb : isBlank c = false) :
    needsNormalizationFrom written trailing (pending ++ c :: s) = needsNormalizationFrom 0 false s := by
  induction pending generalizing written trailing with
  | nil =>
    rw [List.nil_append, needsNormalizationFrom, if_neg hc, hb]
  | cons d pending ih =>
    have hd : d ≠ '\n' := by
      rintro rfl
      exact absurd (hpending '\n' (by simp)) (by decide)
    rw [List.cons_append, needsNormalizationFrom, if_neg hd]
    exact ih fun x hx => hpending x (by simp [hx])

theorem needsNormalizationFrom_squeeze {s : Text} {written run : Nat} {pending : Text}
    (hpending : ∀ c ∈ pending, isBlank c = true) :
    needsNormalizationFrom written false (squeeze run pending s) = breaksThree written run s := by
  induction s generalizing written run pending with
  | nil => rfl
  | cons c s ih =>
    unfold squeeze breaksThree
    by_cases hc : c = '\n'
    · rw [if_pos hc, if_pos hc]
      split
      · rw [needsNormalizationFrom, if_pos rfl, Bool.false_or, ih (by simp)]
      · exact ih (by simp)
    · rw [if_neg hc, if_neg hc]
      by_cases hb : isBlank c = true
      · rw [if_pos hb, if_pos hb]
        exact ih (blank_concat hpending hb)
      · rw [if_neg hb, if_neg hb, needsNormalizationFrom_pending hpending hc (by simpa using hb)]
        exact ih (by simp)

/-- What has been read when `written` line breaks stand at the end of what is written and `run` have just been read. -/
private def ReadBefore (written run : Nat) (before : Text) : Prop :=
  (written = 0 ∧ run = 0) ∨
  (written = 1 ∧ run = 1 ∧ ['\n'] <:+ before) ∨
  (written = 1 ∧ run = 0 ∧ ∃ l : Text, '\n' :: l <:+ before ∧ (∀ c ∈ l, isBlank c = true) ∧ l ≠ []) ∨
  (written = 2 ∧ 2 ≤ run ∧ ['\n', '\n'] <:+ before) ∨
  (written = 2 ∧ run < 2 ∧ ∃ l m : Text, '\n' :: (l ++ '\n' :: m) <:+ before ∧ (∀ c ∈ l, isBlank c = true) ∧
    (∀ c ∈ m, isBlank c = true) ∧ (l ≠ [] ∨ m ≠ []))

private theorem suffix_concat {u before : Text} (c : Char) (h : u <:+ before) : u ++ [c] <:+ before ++ [c] := by
  obtain ⟨front, rfl⟩ := h
  exact ⟨front, by simp⟩

/-- A space or a tab ends a run of line breaks, but not what is written of it. -/
private theorem ReadBefore.blank {written run : Nat} {before : Text} {c : Char} (h : ReadBefore written run before)
    (hc : isBlank c = true) : ReadBefore written 0 (before ++ [c]) := by
  rcases h with ⟨hw, -⟩ | ⟨hw, -, hb⟩ | ⟨hw, -, l, hb, hl, -⟩ | ⟨hw, -, hb⟩ | ⟨hw, -, l, m, hb, hl, hm, hlm⟩
  · exact .inl ⟨hw, rfl⟩
  · exact .inr (.inr (.inl ⟨hw, rfl, [c], suffix_concat c hb, by simpa using hc, by simp⟩))
  · exact .inr (.inr (.inl ⟨hw, rfl, l ++ [c], suffix_concat c hb, blank_concat hl hc, by simp⟩))
  · exact .inr (.inr (.inr (.inr ⟨hw, by omega, [], [c], suffix_concat c hb, by simp, by simpa using hc, by simp⟩)))
  · refine .inr (.inr (.inr (.inr ⟨hw, by omega, l, m ++ [c], ?_, hl, blank_concat hm hc, by simp⟩)))
    simpa using suffix_concat c hb

/-- A line break that is written as the first or the second one. -/
private theorem ReadBefore.newline {written run : Nat} {before : Text} (h : ReadBefore written run before)
    (hwritten : written < 2) : ReadBefore (written + 1) (run + 1) (before ++ ['\n']) := by
  rcases h with ⟨hw, hr⟩ | ⟨hw, hr, hb⟩ | ⟨hw, hr, l, hb, hl, hne⟩ | ⟨hw, -, -⟩ | ⟨hw, -⟩
  · exact .inr (.inl ⟨by omega, by omega, List.suffix_append _ _⟩)
  · exact .inr (.inr (.inr (.inl ⟨by omega, by omega, suffix_concat '\n' hb⟩)))
  · refine .inr (.inr (.inr (.inr ⟨by omega, by omega, l, [], ?_, hl, by simp, .inl hne⟩)))
    simpa using suffix_concat '\n' hb
  · omega
  · omega

/-- A line break of a run that has two already. -/
private theorem ReadBefore.skip {written run : Nat} {before : Text} (h : ReadBefore written run before)
    (hrun : ¬ run < 2) : ReadBefore written (run + 1) (before ++ ['\n']) := by
  rcases h with ⟨-, hr⟩ | ⟨-, hr, -⟩ | ⟨-, hr, -⟩ | ⟨hw, hr, hb⟩ | ⟨-, hr, -⟩
  · omega
  · omega
  · omega
  · refine .inr (.inr (.inr (.inl ⟨hw, by omega, ?_⟩)))
    exact (List.suffix_cons '\n' ['\n', '\n']).trans (suffix_concat '\n' hb)
  · omega

/-- A third line break comes after two lines without text. -/
private theorem ReadBefore.third {written run : Nat} {before : Text} (h : ReadBefore written run before)
    (hrun : run < 2) (hwritten : 2 ≤ written) : ∃ w, SpacedBlankLines w ∧ w <:+: before ++ ['\n'] := by
  rcases h with ⟨hw, -⟩ | ⟨hw, -⟩ | ⟨hw, -⟩ | ⟨-, hr, -⟩ | ⟨-, -, l, m, hb, hl, hm, hlm⟩
  · omega
  · omega
  · omega
  · omega
  · refine ⟨_, ⟨l, m, rfl, hl, hm, hlm⟩, List.IsSuffix.isInfix ?_⟩
    simpa using suffix_concat '\n' hb

private theorem exists_of_breaksThree {s before : Text} {written run : Nat} (hbefore : ReadBefore written run before)
    (h : breaksThree written run s = true) : ∃ w, SpacedBlankLines w ∧ w <:+: before ++ s := by
  induction s generalizing before written run with
  | nil => exact absurd h (by simp [breaksThree])
  | cons c s ih =>
    have hsplit : before ++ c :: s = before ++ [c] ++ s := by simp
    rw [hsplit]
    rw [breaksThree] at h
    by_cases hc : c = '\n'
    · subst hc
      rw [if_pos rfl] at h
      by_cases hr : run < 2
      · rw [if_pos hr, Bool.or_eq_true, decide_eq_true_iff] at h
        rcases Nat.lt_or_ge written 2 with hw | hw
        · exact ih (hbefore.newline hw) (h.resolve_left (by omega))
        · obtain ⟨w, hlines, hw⟩ := hbefore.third hr hw
          exact ⟨w, hlines, hw.trans (List.prefix_append _ _).isInfix⟩
      · rw [if_neg hr] at h
        exact ih (hbefore.skip hr) h
    · rw [if_neg hc] at h
      by_cases hb : isBlank c = true
      · rw [if_pos hb] at h
        exact ih (hbefore.blank hb) h
      · rw [if_neg hb] at h
        exact ih (.inl ⟨rfl, rfl⟩) h

/-- Lines with spaces and tabs only are read without a change to what is written, and end a run. -/
private theorem breaksThree_blank {l s : Text} {written run : Nat} (hl : ∀ c ∈ l, isBlank c = true) :
    breaksThree written run (l ++ s) = breaksThree written (if l = [] then run else 0) s := by
  induction l generalizing run with
  | nil => rfl
  | cons c l ih =>
    have hb : isBlank c = true := hl c (by simp)
    have hc : c ≠ '\n' := by
      rintro rfl
      exact absurd hb (by decide)
    rw [List.cons_append, breaksThree, if_neg hc, if_pos hb, ih fun d hd => hl d (by simp [hd])]
    simp

/-- After a line break one more is written, or two are there already. -/
private theorem breaksThree_newline {s : Text} {written run : Nat} (hrun : min run 2 ≤ written) :
    breaksThree written run ('\n' :: s) = true ∨ ∃ written', 1 ≤ written' ∧ min (run + 1) 2 ≤ written' ∧
      (run < 2 → written' = written + 1) ∧
      breaksThree written run ('\n' :: s) = breaksThree written' (run + 1) s := by
  rw [breaksThree, if_pos rfl]
  by_cases hr : run < 2
  · rw [if_pos hr]
    by_cases hw : 2 ≤ written
    · exact .inl (by simp [hw])
    · exact .inr ⟨written + 1, by omega, by omega, fun _ => rfl, by simp [hw]⟩
  · rw [if_neg hr]
    exact .inr ⟨written, by omega, by omega, by omega, rfl⟩

private theorem breaksThree_lines {w s : Text} {written run : Nat} (hw : SpacedBlankLines w)
    (hrun : min run 2 ≤ written) : breaksThree written run (w ++ s) = true := by
  obtain ⟨l, m, rfl, hl, hm, hlm⟩ := hw
  rw [List.cons_append, List.append_assoc, List.cons_append, List.append_assoc]
  rcases breaksThree_newline hrun with h | ⟨written₁, h1, hr1, -, h⟩
  · exact h
  rw [h, breaksThree_blank hl]
  have hr1' : min (if l = [] then run + 1 else 0) 2 ≤ written₁ := by split <;> omega
  rcases breaksThree_newline hr1' with h | ⟨written₂, -, hr2, hnext, h⟩
  · exact h
  rw [h, breaksThree_blank hm]
  have hw2 : 2 ≤ written₂ := by
    rcases Nat.lt_or_ge (if l = [] then run + 1 else 0) 2 with hlt | hge
    · have := hnext hlt
      omega
    · omega
  -- one of the two lines has a space or a tab, and the third line break is not the third of its run
  have hlast : (if m = [] then (if l = [] then run + 1 else 0) + 1 else 0) < 2 := by
    rcases hlm with hl0 | hm0
    · rw [if_neg hl0]
      split <;> omega
    · rw [if_neg hm0]
      omega
  rw [List.singleton_append, breaksThree, if_pos rfl, if_pos hlast]
  simp [hw2]

private theorem breaksThree_of_infix {s w : Text} {written run : Nat} (hw : SpacedBlankLines w) (h : w <:+: s)
    (hrun : min run 2 ≤ written) : breaksThree written run s = true := by
  induction s generalizing written run with
  | nil =>
    obtain ⟨l, m, rfl, -⟩ := hw
    simp at h
  | cons c s ih =>
    rcases List.infix_cons_iff.1 h with ⟨t, ht⟩ | hrest
    · rw [← ht]
      exact breaksThree_lines hw hrun
    · by_cases hc : c = '\n'
      · subst hc
        rcases @breaksThree_newline s written run hrun with hb | ⟨written', -, hrun', -, hb⟩
        · exact hb
        · rw [hb]
          exact ih hrest hrun'
      · rw [breaksThree, if_neg hc]
        split
        · exact ih hrest (by omega)
        · exact ih hrest (by omega)

/-- Three line breaks are written in a row exactly where two lines without text follow each other, one of them with a
space or a tab. -/
theorem breaksThree_iff {s : Text} : breaksThree 0 0 s = true ↔ ∃ w, SpacedBlankLines w ∧ w <:+: s := by
  constructor
  · intro h
    exact @exists_of_breaksThree s [] 0 0 (.inl ⟨rfl, rfl⟩) h
  · rintro ⟨w, hw, hi⟩
    exact breaksThree_of_infix hw hi (by omega)

/-! ### The normal form -/

theorem squeeze_normal_iff {s : Text} :
    NormalWhitespace (squeeze 0 [] s) ↔ ¬ ∃ w, SpacedBlankLines w ∧ w <:+: s := by
  rw [← needsNormalization_eq_false_iff, needsNormalization, needsNormalizationFrom_squeeze (by simp),
    ← breaksThree_iff, Bool.not_eq_true]

/-- A text in normal form has no two lines without text between line breaks. -/
theorem NormalWhitespace.not_spacedBlankLines {s w : Text} (h : NormalWhitespace s) (hw : SpacedBlankLines w) :
    ¬ w <:+: s := by
  obtain ⟨l, m, rfl, hl, hm, hlm⟩ := hw
  intro hi
  have hends : ∀ {u : Text} {rest front : Text}, (∀ c ∈ u, isBlank c = true) →
      front ++ (u ++ '\n' :: rest) <:+: s → u = [] := by
    intro u rest front hu hsub
    rcases List.eq_nil_or_concat u with rfl | ⟨init, c, rfl⟩
    · rfl
    · exfalso
      apply h.no_blank_before c (hu c (by simp))
      refine List.IsInfix.trans ⟨front ++ init, rest, ?_⟩ hsub
      simp
  have hl0 : l = [] := @hends l (m ++ ['\n']) ['\n'] hl hi
  have hm0 : m = [] := @hends m [] ('\n' :: (l ++ ['\n'])) hm (by simpa using hi)
  rcases hlm with h0 | h0
  · exact h0 hl0
  · exact h0 hm0

/-- The returned text is in normal form exactly where no two lines without text, one of them with a space or a tab,
follow each other. -/
theorem normalizedWhitespace_normal_iff {s : Text} :
    NormalWhitespace (normalizedWhitespace s) ↔ ¬ ∃ w, SpacedBlankLines w ∧ w <:+: s := by
  cases h : needsNormalization s with
  | false =>
    have hn := needsNormalization_eq_false_iff.1 h
    rw [normalizedWhitespace_of_normal hn]
    simp only [hn, true_iff]
    rintro ⟨w, hw, hi⟩
    exact hn.not_spacedBlankLines hw hi
  | true => rw [normalizedWhitespace_of_needs h, squeeze_normal_iff]

/-- What is returned is in normal form, and normalizing it again changes nothing; it is the text without some of its
spaces, tabs and line breaks; and it is borrowed exactly where the text is in normal form. -/
def NormalizesWhitespace (s : Text) : Prop :=
  NormalWhitespace (normalizedWhitespace s) ∧
    normalizedWhitespace (normalizedWhitespace s) = normalizedWhitespace s ∧
    WhitespaceDeleted s (normalizedWhitespace s) ∧
    (normalizeMessageWhitespace s = none ↔ NormalWhitespace s)

/-- The normal form is reached from exactly those texts in which no two lines without text follow each other between line
breaks, one of them with a space or a tab. -/
theorem normalizesWhitespace_iff (s : Text) :
    NormalizesWhitespace s ↔ ∀ w, SpacedBlankLines w → ¬ w <:+: s := by
  have hiff : NormalWhitespace (normalizedWhitespace s) ↔ ∀ w, SpacedBlankLines w → ¬ w <:+: s := by
    rw [normalizedWhitespace_normal_iff]
    simp only [not_exists, not_and]
  constructor
  · exact fun h => hiff.1 h.1
  · intro h
    have hnormal := hiff.2 h
    exact ⟨hnormal, normalizedWhitespace_of_normal hnormal, normalizedWhitespace_deleted s,
      normalizeMessageWhitespace_eq_none_iff⟩

/-- Two line breaks, a line with one space and a line break: three line breaks are left. -/
theorem normalizesWhitespace_spacedLine : ¬ ∀ s, NormalizesWhitespace s := by
  intro h
  have heq : normalizedWhitespace ['a', '\n', '\n', ' ', '\n', 'b'] = ['a', '\n', '\n', '\n', 'b'] := by
    decide +kernel
  have hn := (h ['a', '\n', '\n', ' ', '\n', 'b']).1
  rw [heq] at hn
  exact hn.no_three ⟨['a'], ['b'], rfl⟩

end OpenProxy.Compression
