import OpenProxy.Pii.Restored

/-!
# Restoration in chunks

Every call of the replacer writes the restored text up to the offset at which its pending text begins, provided that the
text is safe to cut there: the loop over the matches is followed by `Progress`, and `Progress.cut` is about the offset
at which the text after the last replacement is cut.
-/

namespace OpenProxy.Pii

namespace StreamingWindowReplacer

variable {u : CharTables} {r : StreamingWindowReplacer} {pairs : List (Text × Text)} {prev : Option Char} {x y : Text}
  {undecidable : Option Nat}

/-- The state of the loop over the matches in `x`, when `y` follows: it has written `out`, which ends with the match that
ends at `lastEnd`, and has passed the matches before offset `pos`. -/
structure Progress (u : CharTables) (pairs : List (Text × Text)) (prev : Option Char) (x y : Text)
    (undecidable : Option Nat) (out : Text) (lastEnd pos : Nat) (lastChar : Option Char) : Prop where
  le : lastEnd ≤ pos
  bound : pos ≤ x.length
  char : lastEnd = 0 → lastChar = prev
  resumes : Resumes u pairs prev (x ++ y) out lastEnd
  passed : ∃ ms, findFrom pairs lastEnd 0 ((x ++ y).drop lastEnd) = ms ++ findFrom pairs pos 0 ((x ++ y).drop pos) ∧
    ∀ m ∈ ms, standsAlone u prev (x ++ y) m = false
  last : lastEnd = 0 ∨ ∃ before m, findIter pairs (x ++ y) = before ++ findFrom pairs lastEnd 0 ((x ++ y).drop lastEnd) ∧
    m ∈ before ∧ standsAlone u prev (x ++ y) m = true ∧ m.stop = lastEnd ∧ ∀ n ∈ undecidable, m.start < n

theorem progress_start : Progress u pairs prev x y undecidable [] 0 0 prev where
  le := le_refl 0
  bound := Nat.zero_le _
  char := fun _ => rfl
  resumes := ⟨Nat.zero_le _, rfl, [], rfl⟩
  passed := ⟨[], rfl, by simp⟩
  last := Or.inl rfl

theorem ne_nil_of_patEndsToken {pat : Text} (h : patEndsToken u pat = true) : pat ≠ [] := by
  rintro rfl
  simp [patEndsToken] at h

/-- The character that the loop takes to be before a match. -/
private theorem precededBy_window {n : Nat} {lastChar : Option Char} (hn : n ≤ x.length) (h : n = 0 → lastChar = prev) :
    precededBy prev (x ++ y) n = (x.take n).getLast?.or lastChar ∧
      precededBy prev (x ++ y) n = if n > 0 then (x.take n).getLast? else lastChar := by
  unfold precededBy
  rw [List.take_append_of_le_length hn]
  by_cases h0 : n = 0
  · subst h0
    simp [h rfl]
  · have hne : x.take n ≠ [] := by
      intro hnil
      have := congrArg List.length hnil
      simp only [List.length_take, List.length_nil] at this
      omega
    obtain ⟨c, hc⟩ := Option.isSome_iff_exists.mp (by simpa using hne : (x.take n).getLast?.isSome = true)
    rw [hc, if_pos (by omega)]
    simp

/-- One match is passed. -/
theorem Progress.pass {out : Text} {lastEnd pos : Nat} {lastChar : Option Char} {m : Match Text}
    (h : Progress u pairs prev x y undecidable out lastEnd pos lastChar) (hpos : pos ≤ m.stop) (hstop : m.stop ≤ x.length)
    (hfull : findFrom pairs pos 0 ((x ++ y).drop pos) = m :: findFrom pairs m.stop 0 ((x ++ y).drop m.stop))
    (halone : standsAlone u prev (x ++ y) m = false) :
    Progress u pairs prev x y undecidable out lastEnd m.stop lastChar where
  le := h.le.trans hpos
  bound := hstop
  char := h.char
  resumes := h.resumes
  passed := by
    obtain ⟨ms, hms, hno⟩ := h.passed
    refine ⟨ms ++ [m], by rw [hms, hfull, List.append_assoc, List.singleton_append], ?_⟩
    intro m' hm'
    rcases List.mem_append.mp hm' with hm' | hm'
    · exact hno m' hm'
    · rw [List.mem_singleton.mp hm']
      exact halone
  last := h.last

/-- The text up to the next match is written. -/
theorem Progress.upTo {out : Text} {lastEnd pos n : Nat} {lastChar : Option Char} (hpat : ∀ pair ∈ pairs, pair.1 ≠ [])
    (h : Progress u pairs prev x y undecidable out lastEnd pos lastChar) (hn : pos ≤ n) (hx : n ≤ x.length)
    (hsame : findFrom pairs pos 0 ((x ++ y).drop pos) = findFrom pairs n 0 ((x ++ y).drop n)) :
    Resumes u pairs prev (x ++ y) (out ++ (x.take n).drop lastEnd) n := by
  obtain ⟨ms, hms, hno⟩ := h.passed
  have hle := h.le
  rw [hsame] at hms
  have := h.resumes.advance hpat (by omega) (by simp only [List.length_append]; omega) hms hno
  rwa [List.take_append_of_le_length hx] at this

/-- One match is replaced. -/
theorem Progress.replace {out : Text} {lastEnd pos : Nat} {lastChar lastChar' : Option Char} {m : Match Text}
    (hpat : ∀ pair ∈ pairs, pair.1 ≠ []) (h : Progress u pairs prev x y undecidable out lastEnd pos lastChar)
    (hpos : pos ≤ m.start) (hlt : m.start < m.stop) (hstop : m.stop ≤ x.length)
    (hsame : findFrom pairs pos 0 ((x ++ y).drop pos) = findFrom pairs m.start 0 ((x ++ y).drop m.start))
    (hfull : findFrom pairs pos 0 ((x ++ y).drop pos) = m :: findFrom pairs m.stop 0 ((x ++ y).drop m.stop))
    (halone : standsAlone u prev (x ++ y) m = true) (hund : ∀ n ∈ undecidable, m.start < n) :
    Progress u pairs prev x y undecidable (out ++ (x.take m.start).drop lastEnd ++ m.value) m.stop m.stop lastChar' where
  le := le_refl _
  bound := hstop
  char := fun h0 => by omega
  resumes := (h.upTo hpat hpos (by omega) hsame).replace rfl (by simp only [List.length_append]; omega)
    (hsame.symm.trans hfull) halone
  passed := ⟨[], rfl, by simp⟩
  last := by
    obtain ⟨before, hbefore⟩ := (h.upTo hpat hpos (by omega) hsame).suffix
    refine Or.inr ⟨before ++ [m], m, ?_, by simp, halone, rfl, hund⟩
    rw [hbefore, ← hsame, hfull, List.append_assoc, List.singleton_append]

/-- The loop over the matches either stops at a match that is decided later, or passes all those that do not begin in
undecided text. -/
theorem emitMatches_spec {isEof : Bool} (hend : ∀ pair ∈ r.pairs, patEndsToken u pair.1 = true)
    (heof : isEof = true → y = [])
    (hagree : ∀ j < x.length, (∀ n ∈ undecidable, j < n) →
      longestAt r.pairs ((x ++ y).drop j) = longestAt r.pairs (x.drop j))
    (ms : List (Match Text)) {out : Text} {lastEnd pos : Nat} {lastChar : Option Char}
    (hms : findFrom r.pairs pos 0 (x.drop pos) = ms)
    (h : Progress u r.pairs prev x y undecidable out lastEnd pos lastChar) :
    (∃ p, (r.emitMatches u x isEof undecidable ms out lastEnd lastChar).pendingAt = some p ∧ isEof = false ∧
      p ≤ x.length ∧
      Resumes u r.pairs prev (x ++ y) (r.emitMatches u x isEof undecidable ms out lastEnd lastChar).out p ∧
      (r.emitMatches u x isEof undecidable ms out lastEnd lastChar).lastChar = precededBy prev (x ++ y) p) ∨
    ((r.emitMatches u x isEof undecidable ms out lastEnd lastChar).pendingAt = none ∧
      ∃ pos, Progress u r.pairs prev x y undecidable (r.emitMatches u x isEof undecidable ms out lastEnd lastChar).out
        (r.emitMatches u x isEof undecidable ms out lastEnd lastChar).lastEnd pos
        (r.emitMatches u x isEof undecidable ms out lastEnd lastChar).lastChar ∧
      ∀ j, pos ≤ j → j < x.length → (∀ n ∈ undecidable, j < n) → longestAt r.pairs (x.drop j) = none) := by
  have hpat : ∀ pair ∈ r.pairs, pair.1 ≠ [] := fun pair hp => ne_nil_of_patEndsToken (hend pair hp)
  have hbound := h.bound
  induction ms generalizing out lastEnd pos lastChar with
  | nil =>
    refine Or.inr ⟨rfl, pos, h, ?_⟩
    intro j hj hjx _
    have := findFrom_nil hpat hms (j - pos) (by simp only [List.length_drop]; omega)
    rwa [List.drop_drop, show pos + (j - pos) = j by omega] at this
  | cons m ms ih =>
    have hm := findFrom_cons hpat hms
    have hle := hm.le
    have hlt := hm.lt
    have hstop := hm.bound
    have hlast := h.le
    simp only [List.length_drop] at hstop
    unfold emitMatches
    by_cases hany : undecidable.any (· ≤ m.start) = true
    · rw [if_pos hany]
      refine Or.inr ⟨rfl, pos, h, ?_⟩
      intro j hj hjx hn
      obtain ⟨n, hn1, hn2⟩ := Option.any_eq_true _ _ |>.mp hany
      have hjn := hn n hn1
      have := hm.before (j - pos) (by have := of_decide_eq_true hn2; omega)
      rwa [List.drop_drop, show pos + (j - pos) = j by omega] at this
    · rw [if_neg hany, if_neg (by omega)]
      have hund : ∀ n ∈ undecidable, m.start < n := by
        intro n hn
        by_contra hge
        exact hany (Option.any_eq_true _ _ |>.mpr ⟨n, hn, decide_eq_true (by omega)⟩)
      -- the match is the first one of the whole text too
      have hfull : findFrom r.pairs pos 0 ((x ++ y).drop pos) =
          m :: findFrom r.pairs m.stop 0 ((x ++ y).drop m.stop) := by
        have := findFrom_congr (t := (x ++ y).drop pos) hpat hms
          (by simp only [List.length_drop, List.length_append]; omega) (by
            intro j hj
            rw [List.drop_drop, List.drop_drop]
            exact hagree _ (by omega) fun n hn => lt_of_le_of_lt hj (hund n hn))
        rwa [List.drop_drop, show pos + (m.stop - pos) = m.stop by omega] at this
      have hsame : findFrom r.pairs pos 0 ((x ++ y).drop pos) =
          findFrom r.pairs m.start 0 ((x ++ y).drop m.start) := by
        have hmf := findFrom_cons hpat hfull
        rw [findFrom_none (n := m.start - pos) (by simp only [List.length_drop, List.length_append]; omega)
          fun j hj => hmf.before j (by omega), List.drop_drop, show pos + (m.start - pos) = m.start by omega]
      have hpattern : patEndsToken u m.pattern = true := hend _ (longestAt_eq_some hm.here).1
      obtain ⟨hprev, hprev'⟩ := @precededBy_window prev x y m.start lastChar (by omega) fun h0 => h.char (by omega)
      have hrest : findFrom r.pairs m.stop 0 (x.drop m.stop) = ms := by
        rw [hm.rest, List.drop_drop, show pos + (m.stop - pos) = m.stop by omega]
      have hpass : standsAlone u prev (x ++ y) m = false →
          Progress u r.pairs prev x y undecidable out lastEnd m.stop lastChar :=
        h.pass (by omega) (by omega) hfull
      rw [← hprev']
      by_cases hleft : rejectsLeft u m.pattern (precededBy prev (x ++ y) m.start) = true
      · simp only [hleft, ↓reduceIte]
        exact ih hrest (hpass (by simp [standsAlone, hleft])) (by omega)
      · simp only [hleft, Bool.false_eq_true, ↓reduceIte]
        obtain ⟨hlarger, hdelim, hundec⟩ := @rightBoundary_eq u r x y m isEof (by omega) hpattern heof
        cases hb : r.rightBoundary u x m isEof with
        | larger => exact ih hrest (hpass (by simp [standsAlone, hlarger hb])) (by omega)
        | undecided => exact Or.inl ⟨m.start, rfl, hundec hb, by omega, h.upTo hpat hle (by omega) hsame, hprev.symm⟩
        | delimiter =>
          have halone : standsAlone u prev (x ++ y) m = true := by
            simp only [standsAlone, hdelim hb, Bool.and_true, Bool.not_eq_true']
            exact Bool.eq_false_iff.mpr hleft
          exact ih hrest (h.replace hpat hle hlt (by omega) hsame hfull halone hund) (by omega)

/-! ### The end of the input -/

/-- The text after the last replacement may be cut at its first tail that is a beginning. -/
theorem Progress.cut {out : Text} {lastEnd pos n : Nat} {lastChar : Option Char} (hpat : ∀ pair ∈ pairs, pair.1 ≠ [])
    (hsafe : CutSafeAt u pairs prev (x ++ y) x.length)
    (h : Progress u pairs prev x y (firstAt (isBeginning pairs) x) out lastEnd pos lastChar)
    (hexit : ∀ j, pos ≤ j → j < x.length → (∀ n ∈ firstAt (isBeginning pairs) x, j < n) →
      longestAt pairs (x.drop j) = none)
    (hle : lastEnd ≤ n) (hn : n ≤ x.length) (hbefore : ∀ j, lastEnd ≤ j → j < n → isBeginning pairs (x.drop j) = false)
    (hcut : n = x.length ∨ isBeginning pairs (x.drop n) = true) :
    Resumes u pairs prev (x ++ y) (out ++ (x.take n).drop lastEnd) n := by
  obtain ⟨ms, hms, hno⟩ := h.passed
  have hlast := h.le
  have hbound := h.bound
  have hdrop : (x ++ y).drop lastEnd = x.drop lastEnd ++ y := List.drop_append_of_le_length (by omega)
  have hseen : (x ++ y).take x.length = x := List.take_left
  -- a match that begins before the cut ends in the input
  have hstop : ∀ m ∈ findFrom pairs lastEnd 0 ((x ++ y).drop lastEnd), m.start < n → m.stop ≤ x.length := by
    intro m hm hmn
    have hstart := (mem_findFrom hpat hm).1
    rw [hdrop] at hm
    have := stop_le_of_not_isBeginning hpat hm (by simp only [List.length_drop]; omega) (by
      rw [List.drop_drop, show lastEnd + (m.start - lastEnd) = m.start by omega]
      exact hbefore m.start hstart hmn)
    simp only [List.length_drop] at this
    omega
  -- and is not replaced
  have halone : ∀ m ∈ findFrom pairs lastEnd 0 ((x ++ y).drop lastEnd), m.start < n →
      standsAlone u prev (x ++ y) m = false := by
    intro m hm hmn
    obtain ⟨hstart, hlt, -, -, -⟩ := mem_findFrom hpat hm
    by_cases hund : ∀ n ∈ firstAt (isBeginning pairs) x, m.start < n
    · rw [hms] at hm
      rcases List.mem_append.mp hm with hm | hm
      · exact hno m hm
      · obtain ⟨hpos, -, -, -, hhere⟩ := mem_findFrom hpat hm
        rw [List.drop_drop, show pos + (m.start - pos) = m.start by omega, List.drop_append_of_le_length (by omega),
          longestAt_append, hexit m.start hpos (by omega) hund] at hhere
        · exact absurd hhere (by simp)
        · intro hnil
          rw [List.drop_eq_nil_iff] at hnil
          omega
        · exact hbefore m.start hstart hmn
    · push Not at hund
      obtain ⟨k, hk, hkm⟩ := hund
      obtain ⟨-, hbeg, -⟩ := firstAt_eq_some.mp hk
      have hk' : k < lastEnd := by
        by_contra hge
        rw [hbefore k (by omega) (by omega)] at hbeg
        exact absurd hbeg (by simp)
      -- the tail that is a beginning is in the match that was replaced last
      rcases h.last with h0 | ⟨before, m', hsuffix, hm', halone', hstop', hund'⟩
      · omega
      · have hpair := hsafe.replaced
        rw [hsuffix, List.pairwise_append] at hpair
        by_contra hne
        have := hpair.2.2 m' hm' m hm (hstop m hm hmn) halone' (by simpa using hne) k (hund' k hk) (by omega)
        rw [hseen, hbeg] at this
        exact absurd this (by simp)
  obtain ⟨before, hsuffix⟩ := h.resumes.suffix
  have hinside : ∀ m ∈ findFrom pairs lastEnd 0 ((x ++ y).drop lastEnd), m.start < lastEnd + (n - lastEnd) →
      lastEnd + (n - lastEnd) < m.stop → ∀ v, n - lastEnd ≤ v → lastEnd + v < m.stop →
      longestAt pairs (((x ++ y).drop lastEnd).drop v) = none := by
    intro m hm hmn hns v hv hvs
    have hms := hstop m hm (by omega)
    rcases hcut with hcut | hcut
    · omega
    · rw [List.drop_drop]
      exact hsafe.rejected m (by rw [hsuffix]; exact List.mem_append_right _ hm) hms (halone m hm (by omega)) n _
        (by omega) (by omega) hvs (by rw [hseen]; exact hcut)
  obtain ⟨ms', hsplit, hlt⟩ := findFrom_split hpat (n := n - lastEnd)
    (by simp only [List.length_drop, List.length_append]; omega) hinside
  rw [List.drop_drop, show lastEnd + (n - lastEnd) = n by omega] at hsplit
  have := h.resumes.advance hpat hle (by simp only [List.length_append]; omega) hsplit (by
    intro m hm
    refine halone m ?_ ?_
    · rw [hsplit]
      exact List.mem_append_left _ hm
    · have := hlt m hm
      omega)
  rwa [List.take_append_of_le_length hn] at this

/-- A match at the end of the input is not replaced before more input or the end of the text is seen. -/
theorem emitMatches_lastEnd_lt {ms : List (Match Text)} {out : Text} {lastEnd : Nat} {lastChar : Option Char}
    (hms : ∀ m ∈ ms, patEndsToken u m.pattern = true ∧ m.stop ≤ x.length) (h : lastEnd < x.length) :
    (r.emitMatches u x false undecidable ms out lastEnd lastChar).lastEnd < x.length := by
  induction ms generalizing out lastEnd lastChar with
  | nil => exact h
  | cons m ms ih =>
    obtain ⟨hend, hstop⟩ := hms m (by simp)
    have hrest : ∀ m ∈ ms, patEndsToken u m.pattern = true ∧ m.stop ≤ x.length := fun m' hm' => hms m' (by simp [hm'])
    unfold emitMatches
    split
    · exact h
    · split
      · exact ih hrest h
      · dsimp only
        generalize (if m.start > 0 then (x.take m.start).getLast? else lastChar) = prevChar
        split
        · exact ih hrest h
        · cases hb : r.rightBoundary u x m false with
          | larger => exact ih hrest h
          | undecided => exact h
          | delimiter =>
            apply ih hrest
            refine lt_of_le_of_ne hstop ?_
            intro hlen
            simp [rightBoundary, hlen, hend] at hb

private theorem Resumes.step {out : Text} {p : Nat} (h : Resumes u pairs prev (x ++ y) out p) (hp : p ≤ x.length) :
    out ++ restored u pairs (precededBy prev (x ++ y) p) (x.drop p ++ y) = restored u pairs prev (x ++ y) ∧
      ∀ c, CutSafeAt u pairs prev (x ++ y) (x.length + c) →
        CutSafeAt u pairs (precededBy prev (x ++ y) p) (x.drop p ++ y) ((x.drop p).length + c) := by
  rw [← List.drop_append_of_le_length hp]
  refine ⟨h.restored, fun c hsafe => CutSafeAt.resumes ?_ h⟩
  rwa [List.length_drop, show x.length - p + c + p = x.length + c by omega]

theorem maxLen_pos (hpat : ∀ pair ∈ r.pairs, pair.1 ≠ []) (hne : r.pairs ≠ []) : 0 < r.maxLen := by
  obtain ⟨pair, hpair⟩ := List.exists_mem_of_ne_nil _ hne
  exact lt_of_lt_of_le (utf8Len_pos (hpat pair hpair)) (utf8Len_le_maxLen hpair)

/-- The text after the last replacement is written up to its first tail that is a beginning. -/
theorem emitTrailing_eq {e : Emitted} (hmax : 0 < r.maxLen) (hlt : e.lastEnd < x.length) :
    ∃ n, e.lastEnd ≤ n ∧ n ≤ x.length ∧ (∀ j, e.lastEnd ≤ j → j < n → isBeginning r.pairs (x.drop j) = false) ∧
      (n = x.length ∨ isBeginning r.pairs (x.drop n) = true) ∧
      r.emitTrailing x false e = (e.out ++ (x.take n).drop e.lastEnd,
        { r with pending := x.drop n, lastChar := (x.take n).getLast?.or e.lastChar }) := by
  have hne : ¬ (x.drop e.lastEnd).isEmpty = true := by
    rw [List.isEmpty_iff, List.drop_eq_nil_iff]
    omega
  have hzero : ¬ (false || r.maxLen == 0) = true := by
    simp only [Bool.false_or, beq_iff_eq]
    omega
  unfold emitTrailing
  dsimp only
  rw [if_neg hne, if_neg hzero, splitPoint_eq]
  generalize hcut : (firstAt (isBeginning r.pairs) (x.drop e.lastEnd)).getD (x.drop e.lastEnd).length = cut
  have hfacts : cut ≤ (x.drop e.lastEnd).length ∧
      (∀ j < cut, isBeginning r.pairs ((x.drop e.lastEnd).drop j) = false) ∧
      (cut = (x.drop e.lastEnd).length ∨ isBeginning r.pairs ((x.drop e.lastEnd).drop cut) = true) := by
    cases hf : firstAt (isBeginning r.pairs) (x.drop e.lastEnd) with
    | none =>
      rw [hf, Option.getD_none] at hcut
      rw [firstAt_eq_none] at hf
      exact ⟨by omega, fun j hj => hf j (by omega), Or.inl hcut.symm⟩
    | some n =>
      rw [hf, Option.getD_some] at hcut
      rw [firstAt_eq_some, hcut] at hf
      exact ⟨hf.1, hf.2.2, Or.inr hf.2.1⟩
  obtain ⟨hlen, hbefore, hend⟩ := hfacts
  simp only [List.drop_drop, List.length_drop] at hlen hbefore hend ⊢
  refine ⟨e.lastEnd + cut, by omega, by omega, ?_, ?_, ?_⟩
  · intro j hj hjn
    have := hbefore (j - e.lastEnd) (by omega)
    rwa [show e.lastEnd + (j - e.lastEnd) = j by omega] at this
  · rcases hend with hend | hend
    · exact Or.inl (by omega)
    · exact Or.inr hend
  · rw [show x.length - (x.length - (e.lastEnd + cut)) = e.lastEnd + cut by omega, List.take_drop]

/-- An input that more text follows is restored up to the pending text. -/
theorem processInput_spec (hend : ∀ pair ∈ r.pairs, patEndsToken u pair.1 = true) (hne : r.pairs ≠ []) (hx : x ≠ [])
    (hsafe : CutSafeAt u r.pairs r.lastChar (x ++ y) x.length) :
    (r.processInput u x false).2.pairs = r.pairs ∧
    (r.processInput u x false).1 ++
        restored u r.pairs (r.processInput u x false).2.lastChar ((r.processInput u x false).2.pending ++ y) =
      restored u r.pairs r.lastChar (x ++ y) ∧
    ∀ c, CutSafeAt u r.pairs r.lastChar (x ++ y) (x.length + c) →
      CutSafeAt u r.pairs (r.processInput u x false).2.lastChar ((r.processInput u x false).2.pending ++ y)
        ((r.processInput u x false).2.pending.length + c) := by
  have hpat : ∀ pair ∈ r.pairs, pair.1 ≠ [] := fun pair hp => ne_nil_of_patEndsToken (hend pair hp)
  have hagree : ∀ j < x.length, (∀ n ∈ firstAt (isBeginning r.pairs) x, j < n) →
      longestAt r.pairs ((x ++ y).drop j) = longestAt r.pairs (x.drop j) := by
    intro j hj hn
    rw [List.drop_append_of_le_length (by omega)]
    refine longestAt_append y ?_ ?_
    · intro h
      rw [List.drop_eq_nil_iff] at h
      omega
    · cases hf : firstAt (isBeginning r.pairs) x with
      | none => exact firstAt_eq_none.mp hf j (by omega)
      | some n => exact (firstAt_eq_some.mp hf).2.2 j (hn n hf)
  have hfind : findFrom r.pairs 0 0 (x.drop 0) = findIter r.pairs x := rfl
  have hloop := emitMatches_spec hend (show false = true → y = [] by simp) hagree (findIter r.pairs x) hfind
    (@progress_start u r.pairs r.lastChar x _ _)
  have hlt := @emitMatches_lastEnd_lt u r x (firstAt (isBeginning r.pairs) x) (findIter r.pairs x) [] 0 r.lastChar
    (by
      intro m hm
      obtain ⟨-, -, hb, -, hhere⟩ := mem_findFrom hpat hm
      exact ⟨hend _ (longestAt_eq_some hhere).1, by simpa using hb⟩) (List.length_pos_iff.mpr hx)
  unfold processInput
  simp only [Bool.false_eq_true, ↓reduceIte, undecidableStart_eq]
  generalize r.emitMatches u x false (firstAt (isBeginning r.pairs) x) (findIter r.pairs x) [] 0 r.lastChar = e
    at hloop hlt
  rcases hloop with ⟨p, hp, -, hpx, hres, hchar⟩ | ⟨hp, pos, hprog, hexit⟩
  · rw [hp]
    simp only [hchar, true_and]
    exact Resumes.step hres hpx
  · rw [hp]
    obtain ⟨n, hle, hn, hbefore, hcut, heq⟩ := emitTrailing_eq (maxLen_pos hpat hne) hlt
    have hres := hprog.cut hpat hsafe hexit hle hn hbefore hcut
    obtain ⟨hchar, -⟩ := @precededBy_window r.lastChar x y n e.lastChar hn fun h0 => hprog.char (by omega)
    simp only [heq, ← hchar, true_and]
    exact Resumes.step hres hn

/-- The last input is restored. -/
theorem processInput_eof (hend : ∀ pair ∈ r.pairs, patEndsToken u pair.1 = true) :
    (r.processInput u x true).1 = restored u r.pairs r.lastChar x := by
  have hpat : ∀ pair ∈ r.pairs, pair.1 ≠ [] := fun pair hp => ne_nil_of_patEndsToken (hend pair hp)
  have hagree : ∀ j < x.length, (∀ n ∈ (none : Option Nat), j < n) →
      longestAt r.pairs ((x ++ []).drop j) = longestAt r.pairs (x.drop j) := by
    intro j _ _
    rw [List.append_nil]
  have hfind : findFrom r.pairs 0 0 (x.drop 0) = findIter r.pairs x := rfl
  have hloop := emitMatches_spec hend (show true = true → ([] : Text) = [] from fun _ => rfl) hagree
    (findIter r.pairs x) hfind (@progress_start u r.pairs r.lastChar x _ _)
  unfold processInput
  simp only [↓reduceIte]
  generalize r.emitMatches u x true none (findIter r.pairs x) [] 0 r.lastChar = e at hloop
  rcases hloop with ⟨p, -, heof, -⟩ | ⟨hp, pos, hprog, hexit⟩
  · exact absurd heof (by simp)
  · obtain ⟨ms, hms, hno⟩ := hprog.passed
    have hrest : findFrom r.pairs pos 0 ((x ++ []).drop pos) = [] := by
      have hbound := hprog.bound
      rw [List.append_nil, findFrom_none (n := x.length - pos), List.drop_drop,
        show pos + (x.length - pos) = x.length by omega, List.drop_length, findFrom]
      · simp only [List.length_drop]
        omega
      · intro j hj
        simp only [List.drop_drop]
        exact hexit _ (by omega) (by omega) (by simp)
    have hemitted := hprog.resumes.emitted
    rw [hms, render_append hno, hrest, List.append_nil] at hemitted
    rw [hp, ← hemitted]
    simp only [emitTrailing, Bool.true_or, ↓reduceIte, render]
    split
    · rename_i htrail
      rw [List.isEmpty_iff.mp htrail, List.append_nil]
    · rfl

/-- A call of the replacer writes the restored text up to its pending text. -/
theorem process_spec {chunk : Text} (hend : ∀ pair ∈ r.pairs, patEndsToken u pair.1 = true) (hne : r.pairs ≠ [])
    (hsafe : CutSafeAt u r.pairs r.lastChar (r.pending ++ chunk ++ y) (r.pending ++ chunk).length) :
    (r.process u chunk).2.pairs = r.pairs ∧
    (r.process u chunk).1 ++ restored u r.pairs (r.process u chunk).2.lastChar ((r.process u chunk).2.pending ++ y) =
      restored u r.pairs r.lastChar (r.pending ++ chunk ++ y) ∧
    ∀ c, CutSafeAt u r.pairs r.lastChar (r.pending ++ chunk ++ y) ((r.pending ++ chunk).length + c) →
      CutSafeAt u r.pairs (r.process u chunk).2.lastChar ((r.process u chunk).2.pending ++ y)
        ((r.process u chunk).2.pending.length + c) := by
  have hpairs : ¬ r.pairs.isEmpty = true := by simpa using hne
  unfold process processInternal
  rw [if_neg hpairs]
  dsimp only
  by_cases hnil : (r.pending ++ chunk).isEmpty = true
  · rw [if_pos hnil]
    obtain ⟨h1, h2⟩ := List.append_eq_nil_iff.mp (List.isEmpty_iff.mp hnil)
    simp [h1, h2]
  · rw [if_neg hnil]
    exact @processInput_spec u { r with pending := [] } _ y hend hne (by simpa using hnil) hsafe

/-- At the end of the text the pending text is restored. -/
theorem flush_spec (hend : ∀ pair ∈ r.pairs, patEndsToken u pair.1 = true) (hne : r.pairs ≠ []) :
    (r.flush u).1 = restored u r.pairs r.lastChar r.pending := by
  have hpairs : ¬ r.pairs.isEmpty = true := by simpa using hne
  unfold flush
  by_cases hnil : r.pending.isEmpty = true
  · rw [if_pos hnil, List.isEmpty_iff.mp hnil]
    rfl
  · rw [if_neg hnil]
    simp only [processInternal, hpairs, Bool.false_eq_true, ↓reduceIte, List.nil_append, hnil]
    exact @processInput_eof u { r with pending := [] } r.pending hend

/-! ### The whole stream -/

/-- The chunks of a text that is safe to cut where they end are restored as the text is. -/
theorem restoreChunks_eq {chunks : List Text} (hend : ∀ pair ∈ r.pairs, patEndsToken u pair.1 = true)
    (hne : r.pairs ≠ []) (hsafe : ∀ n ≤ chunks.length, CutSafeAt u r.pairs r.lastChar (r.pending ++ chunks.flatten)
      (r.pending.length + (chunks.take n).flatten.length)) :
    r.restoreChunks u chunks = restored u r.pairs r.lastChar (r.pending ++ chunks.flatten) := by
  induction chunks generalizing r with
  | nil =>
    rw [List.flatten_nil, List.append_nil, ← flush_spec hend hne]
    rfl
  | cons chunk chunks ih =>
    rw [List.flatten_cons, ← List.append_assoc] at hsafe ⊢
    -- where the other chunks end, for the replacer that has read the first one
    have hends : ∀ n ≤ chunks.length, CutSafeAt u r.pairs r.lastChar (r.pending ++ chunk ++ chunks.flatten)
        ((r.pending ++ chunk).length + (chunks.take n).flatten.length) := by
      intro n hn
      have := hsafe (n + 1) (by simpa using hn)
      rwa [List.take_succ_cons, List.flatten_cons, List.length_append, ← Nat.add_assoc, ← List.length_append] at this
    obtain ⟨hpairs, hout, hrest⟩ := process_spec hend hne (by simpa using hends 0 (Nat.zero_le _))
    have := @ih (r.process u chunk).2 (by rw [hpairs]; exact hend) (by rw [hpairs]; exact hne)
      (by rw [hpairs]; exact fun n hn => hrest _ (hends n hn))
    rw [hpairs] at this
    rw [← hout, ← this]
    unfold restoreChunks
    rw [processAll]
    simp only [List.append_assoc]

/-- Without patterns the chunks are passed on. -/
theorem restoreChunks_nil {chunks : List Text} (hpairs : r.pairs = []) (hpending : r.pending = []) :
    r.restoreChunks u chunks = chunks.flatten := by
  have hall : r.processAll u chunks = (chunks.flatten, r) := by
    induction chunks with
    | nil => rfl
    | cons chunk chunks ih =>
      have : r.process u chunk = (chunk, r) := by simp [process, processInternal, hpairs]
      rw [processAll, this]
      simp [ih]
  unfold restoreChunks
  rw [hall]
  simp [flush, hpending]

/-- The chunks of a fresh replacer. -/
theorem restoreChunks_of_fresh {chunks : List Text} (hend : ∀ pair ∈ r.pairs, patEndsToken u pair.1 = true)
    (hne : r.pairs ≠ []) (hpending : r.pending = []) (hchar : r.lastChar = none)
    (hsafe : ChunksSafe u r.pairs none chunks) : r.restoreChunks u chunks = restored u r.pairs none chunks.flatten := by
  have := @restoreChunks_eq u r chunks hend hne (by
    intro n hn
    rw [hpending, hchar, List.nil_append, List.length_nil, Nat.zero_add]
    exact hsafe n hn)
  rwa [hpending, hchar, List.nil_append] at this

/-- A fresh replacer restores the chunks as it restores the text in one piece. -/
theorem restoreChunks_whole {chunks : List Text} (hend : ∀ pair ∈ r.pairs, patEndsToken u pair.1 = true)
    (hpending : r.pending = []) (hchar : r.lastChar = none) (hsafe : ChunksSafe u r.pairs none chunks) :
    r.restoreChunks u chunks = r.restoreChunks u [chunks.flatten] := by
  by_cases hne : r.pairs = []
  · rw [restoreChunks_nil hne hpending, restoreChunks_nil hne hpending, List.flatten_singleton]
  · rw [restoreChunks_of_fresh hend hne hpending hchar hsafe,
      restoreChunks_of_fresh hend hne hpending hchar hsafe.whole, List.flatten_singleton]

end StreamingWindowReplacer

end OpenProxy.Pii
