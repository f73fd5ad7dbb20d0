import OpenProxy.Text.Lines

/-!
# Truncated texts

The model of `rtk/smart_truncate.rs`.  A text with too many lines is replaced by its first lines, a marker with the number
of the lines that were dropped, the middle lines that match a priority pattern, and its last lines.  The number in the
marker is that of the lines between the first and the last ones, so it counts the priority lines that are shown
(`tellsTruth_iff`).  A pattern is the predicate that its regular expression decides.
-/

namespace OpenProxy.Compression

/-- `CompiledTruncateConfig`. -/
structure CompiledTruncateConfig where
  maxLines : Nat
  headLines : Nat
  tailLines : Nat
  priorityPatterns : List (Text → Bool)

def isPriority (patterns : List (Text → Bool)) (line : Text) : Bool := patterns.any fun p => p line

/-- The line is shown before or behind the middle. -/
def isShown (head tail : List Text) (line : Text) : Bool := head.contains line || tail.contains line

/-- The loop of `append_priority_middle`. -/
def appendPriorityMiddle (out : Text) (middle head tail : List Text) (patterns : List (Text → Bool)) : Text :=
  middle.foldl (fun out l => if isPriority patterns l && !isShown head tail l then out ++ '\n' :: l else out) out

def truncatedMarker (dropped : Nat) : Text := "[rtk:truncated ".toList ++ (Nat.toDigits 10 dropped ++ " lines]".toList)

def assembleTruncatedOutput (head middle tail : List Text) (dropped : Nat) (patterns : List (Text → Bool)) : Text :=
  let start : Text × Bool := head.foldl (fun s l => (s.1 ++ (if s.2 then l else '\n' :: l), false)) ([], true)
  let out := if start.2 then start.1 else start.1 ++ ['\n']
  let out := out ++ truncatedMarker dropped
  let out := appendPriorityMiddle out middle head tail patterns
  tail.foldl (fun out l => out ++ '\n' :: l) out

/-! ### Parts of a text -/

section

variable (text : Text) (config : CompiledTruncateConfig)

def lineCount : Nat := text.count '\n' + 1

/-- `text.split('\n')`. -/
def splitLines : List Text := text.splitOn '\n'

def headEnd : Nat := min config.headLines (splitLines text).length

def tailStart : Nat := (splitLines text).length - config.tailLines

def headPart : List Text := (splitLines text).take (headEnd text config)

def tailPart : List Text := (splitLines text).drop (tailStart text config)

def middlePart : List Text :=
  ((splitLines text).take (tailStart text config)).drop (min (headEnd text config) (tailStart text config))

/-- `smart_truncate`: the text, whether it was truncated, and how many lines are said to be dropped. -/
def smartTruncate : Text × Bool × Nat :=
  if lineCount text ≤ config.maxLines then (text, false, 0)
  else
    let dropped := (splitLines text).length - ((headPart text config).length + (tailPart text config).length)
    (assembleTruncatedOutput (headPart text config) (middlePart text config) (tailPart text config) dropped
      config.priorityPatterns, true, dropped)

/-- The output is the text, or behind its first lines there is a marker.  Without it the lines are some of those of the text
in their order, the first and the last ones and all priority lines are among them, and the marker counts the others. -/
def TellsTruth : Prop :=
  if (smartTruncate text config).2.1 = false then (smartTruncate text config).1 = text
  else
    ∃ dropped after, splitLines (smartTruncate text config).1 =
        (splitLines text).take config.headLines ++ truncatedMarker dropped :: after ∧
      let kept := (splitLines text).take config.headLines ++ after
      kept.Sublist (splitLines text) ∧
      ((splitLines text).take config.headLines ++
        (splitLines text).drop ((splitLines text).length - config.tailLines)).Sublist kept ∧
      (∀ l ∈ middlePart text config, isPriority config.priorityPatterns l = true → l ∈ kept) ∧
      dropped = (splitLines text).length - kept.length

end

/-! ### The lines of the output -/

section

variable {text : Text} {config : CompiledTruncateConfig} {head middle tail : List Text} {patterns : List (Text → Bool)}

/-- The middle lines that are shown. -/
def priorityLines (head middle tail : List Text) (patterns : List (Text → Bool)) : List Text :=
  middle.filter fun l => isPriority patterns l && !isShown head tail l

theorem foldl_append (ls : List Text) (out : Text) :
    ls.foldl (fun out l => out ++ '\n' :: l) out = out ++ ls.flatMap ('\n' :: ·) := by
  induction ls generalizing out with
  | nil => simp
  | cons l ls ih => rw [List.foldl_cons, ih, List.flatMap_cons, List.append_assoc]

theorem appendPriorityMiddle_eq (out : Text) (middle head tail : List Text) (patterns : List (Text → Bool)) :
    appendPriorityMiddle out middle head tail patterns =
      out ++ (priorityLines head middle tail patterns).flatMap ('\n' :: ·) := by
  unfold appendPriorityMiddle priorityLines
  rw [← List.foldl_filter, foldl_append]

/-- Lines behind a first one, each of them after a line feed. -/
theorem intercalate_cons (l : Text) (ls : List Text) :
    ['\n'].intercalate (l :: ls) = l ++ ls.flatMap ('\n' :: ·) := by
  induction ls generalizing l with
  | nil => simp
  | cons l' ls ih => rw [List.intercalate_cons_cons, ih, List.flatMap_cons, List.append_assoc]; rfl

/-- The loop over the first lines, from its second turn on. -/
theorem foldl_head (ls : List Text) (out : Text) :
    ls.foldl (fun (s : Text × Bool) l => (s.1 ++ (if s.2 then l else '\n' :: l), false)) (out, false) =
      (out ++ ls.flatMap ('\n' :: ·), false) := by
  induction ls generalizing out with
  | nil => simp
  | cons l ls ih => simp [ih, List.append_assoc]

theorem assembleTruncatedOutput_eq (dropped : Nat) : assembleTruncatedOutput head middle tail dropped patterns =
    ['\n'].intercalate (head ++ truncatedMarker dropped :: (priorityLines head middle tail patterns ++ tail)) := by
  unfold assembleTruncatedOutput
  rw [foldl_append, appendPriorityMiddle_eq]
  cases head with
  | nil =>
    rw [List.nil_append, intercalate_cons, List.flatMap_append]
    simp
  | cons l head =>
    rw [List.cons_append, intercalate_cons, List.flatMap_append, List.flatMap_cons, List.flatMap_append]
    simp only [List.foldl_cons, if_true, List.nil_append]
    rw [foldl_head]
    simp

theorem newline_notMem_truncatedMarker (dropped : Nat) : '\n' ∉ truncatedMarker dropped := by
  have hdigits : '\n' ∉ Nat.toDigits 10 dropped := fun h =>
    absurd (Nat.isDigit_of_mem_toDigits (by omega) (by omega) h) (by decide)
  unfold truncatedMarker
  rw [List.mem_append, List.mem_append]
  rintro (h | h | h)
  · revert h
    decide
  · exact hdigits h
  · revert h
    decide

theorem truncatedMarker_injective : Function.Injective truncatedMarker := by
  intro m n h
  have hdigits := congrArg (Nat.ofDigitChars 10 · 0) (List.append_cancel_right (List.append_cancel_left h))
  simpa only [Nat.ofDigitChars_toDigits (by omega : 1 < 10) (le_refl 10)] using hdigits

theorem length_splitLines (text : Text) : (splitLines text).length = lineCount text := by
  unfold splitLines lineCount
  induction text with
  | nil => rfl
  | cons c text ih =>
    rw [List.splitOn_cons_eq_if_modifyHead]
    by_cases hc : c = '\n'
    · subst hc
      simp [ih]
    · simp [hc, ih]

/-- The lines of a truncated text. -/
theorem splitLines_smartTruncate (h : config.maxLines < lineCount text) :
    (smartTruncate text config).2.1 = true ∧
      splitLines (smartTruncate text config).1 = headPart text config ++
        truncatedMarker ((splitLines text).length - ((headPart text config).length + (tailPart text config).length)) ::
          (priorityLines (headPart text config) (middlePart text config) (tailPart text config) config.priorityPatterns ++
            tailPart text config) := by
  unfold smartTruncate
  rw [if_neg (by omega)]
  refine ⟨rfl, ?_⟩
  dsimp only
  rw [assembleTruncatedOutput_eq]
  unfold splitLines
  have hline : ∀ l ∈ text.splitOn '\n', '\n' ∉ l := fun l hl => notMem_of_mem_splitOn hl
  refine List.splitOn_intercalate '\n' ?_ (by simp)
  intro l hl
  rcases List.mem_append.mp hl with hl | hl
  · exact hline l (List.mem_of_mem_take hl)
  · rcases List.mem_cons.mp hl with rfl | hl
    · exact newline_notMem_truncatedMarker _
    · rcases List.mem_append.mp hl with hl | hl
      · exact hline l (List.mem_of_mem_take (List.mem_of_mem_drop (List.mem_of_mem_filter hl)))
      · exact hline l (List.mem_of_mem_drop hl)

/-! ### What the marker counts -/

/-- A text that is truncated consists of the first, the middle and the last lines. -/
theorem splitLines_eq (hsize : config.headLines + config.tailLines ≤ config.maxLines)
    (h : config.maxLines < lineCount text) :
    splitLines text = headPart text config ++ (middlePart text config ++ tailPart text config) ∧
      headPart text config = (splitLines text).take config.headLines ∧
      (headPart text config).length = config.headLines ∧ (tailPart text config).length = config.tailLines := by
  have hlength := length_splitLines text
  have hhead : headEnd text config = config.headLines := by
    unfold headEnd
    omega
  have hle : headEnd text config ≤ tailStart text config := by
    unfold tailStart
    omega
  have hmiddle : middlePart text config = ((splitLines text).take (tailStart text config)).drop (headEnd text config) := by
    unfold middlePart
    rw [Nat.min_eq_left hle]
  have htake : ((splitLines text).take (tailStart text config)).take (headEnd text config) = headPart text config := by
    rw [List.take_take, Nat.min_eq_left hle]
    rfl
  refine ⟨?_, ?_, ?_, ?_⟩
  · calc splitLines text
        = (splitLines text).take (tailStart text config) ++ tailPart text config := (List.take_append_drop _ _).symm
      _ = headPart text config ++ middlePart text config ++ tailPart text config := by
          rw [hmiddle, ← htake, List.take_append_drop]
      _ = headPart text config ++ (middlePart text config ++ tailPart text config) := List.append_assoc _ _ _
  · unfold headPart
    rw [hhead]
  · unfold headPart
    rw [List.length_take, hhead]
    omega
  · unfold tailPart tailStart
    rw [List.length_drop]
    omega

theorem mem_kept_of_priority {l : Text} (hl : l ∈ middle) (hpriority : isPriority patterns l = true) :
    l ∈ head ++ (priorityLines head middle tail patterns ++ tail) := by
  by_cases hshown : isShown head tail l = true
  · unfold isShown at hshown
    rw [Bool.or_eq_true, List.contains_iff_mem, List.contains_iff_mem] at hshown
    rcases hshown with h | h
    · exact List.mem_append_left _ h
    · exact List.mem_append_right _ (List.mem_append_right _ h)
  · refine List.mem_append_right _ (List.mem_append_left _ (List.mem_filter.mpr ⟨hl, ?_⟩))
    rw [hpriority, Bool.true_and, Bool.not_eq_true', ← Bool.not_eq_true]
    exact hshown

theorem priorityLines_eq_nil_iff : priorityLines head middle tail patterns = [] ↔
    ∀ l ∈ middle, isPriority patterns l = true → l ∈ head ∨ l ∈ tail := by
  unfold priorityLines
  rw [List.filter_eq_nil_iff]
  refine forall₂_congr fun l _ => ?_
  unfold isShown
  rw [Bool.and_eq_true, Bool.not_eq_true', not_and, ← Bool.not_eq_true, not_not, Bool.or_eq_true, List.contains_iff_mem,
    List.contains_iff_mem]

/-- The output tells the truth if and only if it is the whole text, or no priority line of the middle is shown again. -/
theorem tellsTruth_iff (hsize : config.headLines + config.tailLines ≤ config.maxLines) :
    TellsTruth text config ↔ lineCount text ≤ config.maxLines ∨
      ∀ l ∈ middlePart text config, isPriority config.priorityPatterns l = true →
        l ∈ headPart text config ∨ l ∈ tailPart text config := by
  by_cases hshort : lineCount text ≤ config.maxLines
  · refine iff_of_true ?_ (Or.inl hshort)
    unfold TellsTruth smartTruncate
    rw [if_pos hshort, if_pos (by rfl)]
  obtain ⟨htruncated, hlines⟩ := splitLines_smartTruncate (Nat.lt_of_not_le hshort)
  obtain ⟨hsplit, hhead, hheadlen, htaillen⟩ := splitLines_eq hsize (Nat.lt_of_not_le hshort)
  have hlength := congrArg List.length hsplit
  rw [or_iff_right hshort, ← priorityLines_eq_nil_iff]
  unfold TellsTruth
  rw [htruncated, if_neg Bool.false_ne_true.symm, ← hhead, hlines]
  simp only [List.length_append] at hlength ⊢
  constructor
  · rintro ⟨dropped, after, heq, -, -, -, hcount⟩
    obtain ⟨hmarker, rfl⟩ := List.cons_eq_cons.mp (List.append_cancel_left heq)
    obtain rfl := truncatedMarker_injective hmarker
    rw [List.length_append] at hcount
    have hle : (priorityLines (headPart text config) (middlePart text config) (tailPart text config)
        config.priorityPatterns).length ≤ (middlePart text config).length := List.length_filter_le _ _
    refine List.length_eq_zero_iff.mp ?_
    omega
  · intro hnone
    refine ⟨_, tailPart text config, by rw [hnone, List.nil_append], ?_, List.Sublist.refl _, ?_, rfl⟩
    · rw [hsplit]
      exact (List.Sublist.refl _).append (List.sublist_append_right _ _)
    · intro l hl hpriority
      have hkept := @mem_kept_of_priority (headPart text config) _ (tailPart text config) _ l hl hpriority
      rwa [hnone, List.nil_append] at hkept

end

/-- One line before the middle and one behind it. -/
def errorConfig : CompiledTruncateConfig where
  maxLines := 2
  headLines := 1
  tailLines := 1
  priorityPatterns := [fun l => l == "error".toList]

theorem tellsTruth_iff_plain : TellsTruth "a\nb\nc".toList errorConfig ↔
    lineCount "a\nb\nc".toList ≤ errorConfig.maxLines ∨ ∀ l ∈ middlePart "a\nb\nc".toList errorConfig,
      isPriority errorConfig.priorityPatterns l = true →
        l ∈ headPart "a\nb\nc".toList errorConfig ∨ l ∈ tailPart "a\nb\nc".toList errorConfig :=
  tellsTruth_iff (by decide)

theorem not_tellsTruth_error : errorConfig.headLines + errorConfig.tailLines ≤ errorConfig.maxLines ∧
    (smartTruncate "a\nerror\nb".toList errorConfig).1 = "a\n[rtk:truncated 1 lines]\nerror\nb".toList ∧
    ¬ TellsTruth "a\nerror\nb".toList errorConfig := by
  have hout : smartTruncate "a\nerror\nb".toList errorConfig =
      ("a\n[rtk:truncated 1 lines]\nerror\nb".toList, true, 1) := by decide +kernel
  refine ⟨by decide, by rw [hout], fun h => ?_⟩
  unfold TellsTruth at h
  rw [hout, if_neg (by decide)] at h
  obtain ⟨dropped, after, hlines, -, -, -, hcount⟩ := h
  have hsplit : splitLines "a\n[rtk:truncated 1 lines]\nerror\nb".toList =
      ["a".toList] ++ truncatedMarker 1 :: ["error".toList, "b".toList] := by decide +kernel
  have hhead : (splitLines "a\nerror\nb".toList).take errorConfig.headLines = ["a".toList] := by decide +kernel
  rw [hsplit, hhead] at hlines
  obtain ⟨hmarker, rfl⟩ := List.cons_eq_cons.mp (List.append_cancel_left hlines)
  obtain rfl := truncatedMarker_injective hmarker
  rw [hhead] at hcount
  revert hcount
  decide +kernel

end OpenProxy.Compression
