import OpenProxy.Pii.Replacer

/-!
# What a text is restored to

The matches in a whole text, each of which is replaced if it stands alone (`standsAlone`), give what the text is restored
to (`restored`).  The replacer that has seen a text up to an offset begins its pending text at the first tail that is the
beginning of a pattern.  The offset is safe (`CutSafeAt`) if this is not inside a match in a way that changes the matches
that follow, and a replacer may begin anew at such a position (`Resumes`).

The replacer looks for the beginning of a pattern only in the last bytes of its input, as many as a beginning can have, so
that it finds the first tail of the whole input that is one.  The decision on a match that it does not put off is the one
that the whole text gives.
-/

namespace OpenProxy.Pii

section

variable {u : CharTables} {pairs : List (Text × Text)} {prev : Option Char} {s : Text}

/-- The character before offset `n` of a text that is preceded by `prev`. -/
def precededBy (prev : Option Char) (s : Text) (n : Nat) : Option Char := (s.take n).getLast?.or prev

/-- Nothing to the right of a match continues its token. -/
def endsAlone (u : CharTables) (pat tail : Text) : Bool :=
  !(StreamingWindowReplacer.patEndsToken u pat && tail.head?.any (isTokenChar u)) &&
    (contactKind pat).all fun kind => extendsContactRight u kind tail true == some false

/-- A match in a whole text that is not a part of a longer token. -/
def standsAlone (u : CharTables) (prev : Option Char) (s : Text) (m : Match Text) : Bool :=
  !StreamingWindowReplacer.rejectsLeft u m.pattern (precededBy prev s m.start) && endsAlone u m.pattern (s.drop m.stop)

/-- The text from `lastEnd` on, with the matches that stand alone replaced. -/
def render (alone : Match Text → Bool) (s : Text) : Nat → List (Match Text) → Text
  | lastEnd, [] => s.drop lastEnd
  | lastEnd, m :: ms =>
    if alone m then (s.take m.start).drop lastEnd ++ m.value ++ render alone s m.stop ms else render alone s lastEnd ms

/-- What a whole text that is preceded by `prev` is restored to. -/
def restored (u : CharTables) (pairs : List (Text × Text)) (prev : Option Char) (s : Text) : Text :=
  render (standsAlone u prev s) s 0 (findIter pairs s)

/-- Of what is seen of the text up to offset `c`, no tail that begins inside a match is the beginning of a pattern in a way
that matters: if the match is not replaced, no pattern occurs after such a tail begins and before the match ends, and if it
is replaced, no such tail lasts over a later match that is replaced. -/
structure CutSafeAt (u : CharTables) (pairs : List (Text × Text)) (prev : Option Char) (s : Text) (c : Nat) : Prop where
  rejected : ∀ m ∈ findIter pairs s, m.stop ≤ c → standsAlone u prev s m = false → ∀ n v, m.start < n → n ≤ v →
    v < m.stop → isBeginning pairs ((s.take c).drop n) = true → longestAt pairs (s.drop v) = none
  replaced : (findIter pairs s).Pairwise fun m m' => m'.stop ≤ c → standsAlone u prev s m = true →
    standsAlone u prev s m' = true → ∀ n, m.start < n → n < m.stop → isBeginning pairs ((s.take c).drop n) = false

instance (u : CharTables) (pairs : List (Text × Text)) (prev : Option Char) (s : Text) (c : Nat) :
    Decidable (CutSafeAt u pairs prev s c) :=
  @decidable_of_iff _
    ((∀ m ∈ findIter pairs s, m.stop ≤ c → standsAlone u prev s m = false → ∀ n < m.stop, ∀ v < m.stop, m.start < n →
        n ≤ v → isBeginning pairs ((s.take c).drop n) = true → longestAt pairs (s.drop v) = none) ∧
      (findIter pairs s).Pairwise fun m m' => m'.stop ≤ c → standsAlone u prev s m = true →
        standsAlone u prev s m' = true → ∀ n < m.stop, m.start < n → isBeginning pairs ((s.take c).drop n) = false)
    ⟨fun h => ⟨fun m hm hc ha n v hn hv hs hb => h.1 m hm hc ha n (lt_of_le_of_lt hv hs) v hs hn hv hb,
      h.2.imp fun h hc ha ha' n hn hs => h hc ha ha' n hs hn⟩,
    fun h => ⟨fun m hm hc ha n _ v hs hn hv hb => h.rejected m hm hc ha n v hn hv hs hb,
      h.replaced.imp fun h hc ha ha' n hs hn => h hc ha ha' n hn hs⟩⟩
    (@instDecidableAnd _ _ inferInstance inferInstance)

/-- Every offset is safe. -/
def CutSafe (u : CharTables) (pairs : List (Text × Text)) (prev : Option Char) (s : Text) : Prop :=
  ∀ c ≤ s.length, CutSafeAt u pairs prev s c

instance (u : CharTables) (pairs : List (Text × Text)) (prev : Option Char) (s : Text) :
    Decidable (CutSafe u pairs prev s) :=
  inferInstanceAs (Decidable (∀ c ≤ s.length, CutSafeAt u pairs prev s c))

/-- The offsets at which the chunks of a text end are safe. -/
def ChunksSafe (u : CharTables) (pairs : List (Text × Text)) (prev : Option Char) (chunks : List Text) : Prop :=
  ∀ n ≤ chunks.length, CutSafeAt u pairs prev chunks.flatten (chunks.take n).flatten.length

instance (u : CharTables) (pairs : List (Text × Text)) (prev : Option Char) (chunks : List Text) :
    Decidable (ChunksSafe u pairs prev chunks) :=
  inferInstanceAs (Decidable (∀ n ≤ chunks.length, CutSafeAt u pairs prev chunks.flatten (chunks.take n).flatten.length))

theorem cutSafe_nil (u : CharTables) (pairs : List (Text × Text)) (prev : Option Char) : CutSafe u pairs prev [] :=
  fun _ _ => ⟨by simp [findIter, findFrom], by simp [findIter, findFrom]⟩

/-- The chunks of a text that is safe to cut everywhere, in whatever way it is cut. -/
theorem CutSafe.chunksSafe {chunks : List Text} (h : CutSafe u pairs prev chunks.flatten) :
    ChunksSafe u pairs prev chunks := by
  intro n _
  apply h
  conv_rhs => rw [← List.take_append_drop n chunks, List.flatten_append, List.length_append]
  omega

/-- A text that is one chunk. -/
theorem ChunksSafe.whole {chunks : List Text} (h : ChunksSafe u pairs prev chunks) :
    ChunksSafe u pairs prev [chunks.flatten] := by
  have hall := h chunks.length le_rfl
  rw [List.take_length] at hall
  intro n hn
  rw [List.flatten_singleton]
  cases n with
  | zero => exact h 0 (Nat.zero_le _)
  | succ n => simpa using hall

/-- The replacer that has written `out` may go on with the text from offset `p` on. -/
structure Resumes (u : CharTables) (pairs : List (Text × Text)) (prev : Option Char) (s : Text) (out : Text) (p : Nat) :
    Prop where
  le : p ≤ s.length
  emitted : out ++ render (standsAlone u prev s) s p (findFrom pairs p 0 (s.drop p)) = restored u pairs prev s
  suffix : ∃ before, findIter pairs s = before ++ findFrom pairs p 0 (s.drop p)

/-! ### Rendering -/

theorem render_append {alone : Match Text → Bool} {lastEnd : Nat} {ms ms' : List (Match Text)}
    (h : ∀ m ∈ ms, alone m = false) : render alone s lastEnd (ms ++ ms') = render alone s lastEnd ms' := by
  induction ms with
  | nil => rfl
  | cons m ms ih =>
    rw [List.cons_append, render, h m (by simp), ih fun m' hm' => h m' (by simp [hm'])]
    rfl

/-- The text up to the next match can be written at once. -/
theorem render_from {alone : Match Text → Bool} {lastEnd p : Nat} {ms : List (Match Text)} (hle : lastEnd ≤ p)
    (hp : p ≤ s.length) (h : ∀ m ∈ ms, p ≤ m.start) :
    render alone s lastEnd ms = (s.take p).drop lastEnd ++ render alone s p ms := by
  have hcut : ∀ t : Text, p ≤ t.length → t.drop lastEnd = (t.take p).drop lastEnd ++ t.drop p := by
    intro t ht
    rw [List.drop_take, ← Nat.sub_add_cancel hle, Nat.add_comm, ← List.drop_drop, Nat.add_sub_cancel_left,
      List.take_append_drop]
  induction ms with
  | nil => exact hcut s hp
  | cons m ms ih =>
    have hm := h m (by simp)
    rw [render, render]
    split
    · by_cases hlen : m.start ≤ s.length
      · rw [hcut (s.take m.start) (by simp only [List.length_take]; omega), List.take_take, Nat.min_eq_left hm]
        simp only [List.append_assoc]
      · rw [List.take_of_length_le (i := m.start) (by omega), hcut s hp]
        simp only [List.append_assoc]
    · exact ih fun m' hm' => h m' (by simp [hm'])

/-! ### Going on from an offset -/

private theorem slice_drop (s : Text) (p a b : Nat) : (s.take (b + p)).drop (a + p) = ((s.drop p).take b).drop a := by
  rw [List.take_drop, List.drop_drop, Nat.add_comm p b, Nat.add_comm p a]

theorem precededBy_drop {p n : Nat} :
    precededBy (precededBy prev s p) (s.drop p) n = precededBy prev s (p + n) := by
  unfold precededBy
  rw [List.take_add, List.getLast?_append, Option.or_assoc]

theorem standsAlone_shift (p : Nat) (m : Match Text) :
    standsAlone u prev s (m.shift p) = standsAlone u (precededBy prev s p) (s.drop p) m := by
  unfold standsAlone Match.shift
  simp only [precededBy_drop, List.drop_drop, Nat.add_comm]

theorem render_shift (p lastEnd : Nat) (ms : List (Match Text)) :
    render (standsAlone u prev s) s (lastEnd + p) (ms.map (Match.shift p)) =
      render (standsAlone u (precededBy prev s p) (s.drop p)) (s.drop p) lastEnd ms := by
  induction ms generalizing lastEnd with
  | nil => simp only [List.map_nil, render, List.drop_drop, Nat.add_comm]
  | cons m ms ih =>
    rw [List.map_cons, render, render, standsAlone_shift]
    split
    · simp only [Match.shift] at ih ⊢
      rw [slice_drop, ih]
    · exact ih lastEnd

/-- A part of the text without a match that is replaced is written as it is. -/
theorem Resumes.advance {out : Text} {p q : Nat} {ms : List (Match Text)} (hpat : ∀ pair ∈ pairs, pair.1 ≠ [])
    (h : Resumes u pairs prev s out p) (hle : p ≤ q) (hq : q ≤ s.length)
    (hsplit : findFrom pairs p 0 (s.drop p) = ms ++ findFrom pairs q 0 (s.drop q))
    (hno : ∀ m ∈ ms, standsAlone u prev s m = false) : Resumes u pairs prev s (out ++ (s.take q).drop p) q where
  le := hq
  emitted := by
    rw [← h.emitted, hsplit, render_append hno, List.append_assoc, ← render_from hle hq]
    intro m hm
    exact (mem_findFrom hpat hm).1
  suffix := by
    obtain ⟨before, hbefore⟩ := h.suffix
    exact ⟨before ++ ms, by rw [hbefore, hsplit, List.append_assoc]⟩

/-- A match that is replaced. -/
theorem Resumes.replace {out : Text} {p : Nat} {m : Match Text} (h : Resumes u pairs prev s out p) (hstart : m.start = p)
    (hstop : m.stop ≤ s.length)
    (hcons : findFrom pairs p 0 (s.drop p) = m :: findFrom pairs m.stop 0 (s.drop m.stop))
    (halone : standsAlone u prev s m = true) : Resumes u pairs prev s (out ++ m.value) m.stop where
  le := hstop
  emitted := by
    rw [← h.emitted, hcons, render, if_pos halone, hstart]
    simp
  suffix := by
    obtain ⟨before, hbefore⟩ := h.suffix
    exact ⟨before ++ [m], by rw [hbefore, hcons, List.append_assoc, List.singleton_append]⟩

/-- What is left to do from there is to restore the rest of the text. -/
theorem Resumes.restored {out : Text} {p : Nat} (h : Resumes u pairs prev s out p) :
    out ++ restored u pairs (precededBy prev s p) (s.drop p) = restored u pairs prev s := by
  rw [← h.emitted, findFrom_eq_map_shift]
  have hrender := @render_shift u prev s p 0 (findIter pairs (s.drop p))
  rw [Nat.zero_add] at hrender
  rw [hrender]
  rfl

/-- An offset that is safe is safe in the rest of the text. -/
theorem CutSafeAt.resumes {out : Text} {p c : Nat} (h : CutSafeAt u pairs prev s (c + p))
    (hr : Resumes u pairs prev s out p) : CutSafeAt u pairs (precededBy prev s p) (s.drop p) c := by
  obtain ⟨before, hsuffix⟩ := hr.suffix
  rw [findFrom_eq_map_shift] at hsuffix
  constructor
  · intro m hm hc halone n v hn hv hvs hb
    rw [← standsAlone_shift] at halone
    rw [List.drop_drop, Nat.add_comm]
    refine h.rejected (m.shift p) ?_ ?_ halone (n + p) (v + p) ?_ ?_ ?_ ?_
    · rw [hsuffix]
      exact List.mem_append_right _ (List.mem_map_of_mem hm)
    · simp only [Match.shift]
      omega
    · simp only [Match.shift]
      omega
    · omega
    · simp only [Match.shift]
      omega
    · rw [slice_drop]
      exact hb
  · have hpair := h.replaced
    rw [hsuffix, List.pairwise_append] at hpair
    refine (List.pairwise_map.mp hpair.2.1).imp ?_
    intro m m' hmm hc halone halone' n hn hns
    rw [← standsAlone_shift] at halone halone'
    have := hmm (by simp only [Match.shift]; omega) halone halone' (n + p) (by simp only [Match.shift]; omega)
      (by simp only [Match.shift]; omega)
    rwa [slice_drop] at this

end

/-! ### The window of undecided text -/

namespace StreamingWindowReplacer

variable {u : CharTables} {r : StreamingWindowReplacer}

/-! ### The beginnings of patterns -/

theorem contains_prefixes (r : StreamingWindowReplacer) (s : Text) :
    r.prefixes.contains (lower s) = isBeginning r.pairs s := by
  rw [Bool.eq_iff_iff, List.contains_iff_mem, isBeginning_iff]
  unfold prefixes
  simp only [List.mem_flatMap, List.mem_map, List.mem_range'_1]
  constructor
  · rintro ⟨pair, hpair, n, hn, h⟩
    have hlen := congrArg List.length h
    simp only [length_lower, List.length_take] at hlen
    refine ⟨?_, pair, hpair, by omega, ?_⟩
    · rintro rfl
      simp only [List.length_nil] at hlen
      omega
    · rw [← h, lower_take]
      exact List.take_prefix _ _
  · rintro ⟨hs, pair, hpair, hlen, hpre⟩
    have := List.length_pos_iff.mpr hs
    refine ⟨pair, hpair, s.length, by omega, ?_⟩
    rw [lower_take]
    have := List.prefix_iff_eq_take.mp hpre
    rw [length_lower] at this
    exact this.symm

theorem utf8Len_le_maxLen {pair : Text × Text} (h : pair ∈ r.pairs) : utf8Len pair.1 ≤ r.maxLen := by
  have hsorted := r.longestFirst
  unfold maxLen
  cases hp : r.pairs with
  | nil => simp [hp] at h
  | cons a l =>
    rw [hp] at h hsorted
    rcases List.mem_cons.mp h with rfl | h
    · simp
    · simpa using List.rel_of_pairwise_cons hsorted h

/-- A beginning is shorter than the longest pattern. -/
theorem utf8Len_lt_maxLen {s : Text} (h : isBeginning r.pairs s = true) : utf8Len s < r.maxLen := by
  obtain ⟨-, pair, hpair, hlen, rest, hrest⟩ := isBeginning_iff.mp h
  have hle := utf8Len_le_maxLen hpair
  have hsum := congrArg utf8Len hrest
  rw [utf8Len_append, utf8Len_lower, utf8Len_lower] at hsum
  have hne : rest ≠ [] := by
    rintro rfl
    have := congrArg List.length hrest
    simp only [List.append_nil, length_lower] at this
    omega
  have := utf8Len_pos hne
  omega

/-- The search may leave out the tails that are too long. -/
theorem firstAt_tailStart {p : Text → Bool} {bytes : Nat} (hp : ∀ tail, p tail = true → utf8Len tail ≤ bytes) (s : Text) :
    (firstAt p (s.drop (tailStart bytes s))).map (tailStart bytes s + ·) = firstAt p s := by
  induction s with
  | nil => simp [tailStart]
  | cons c s ih =>
    unfold tailStart
    split
    · simp
    · rename_i hlong
      have hfalse : ¬ p (c :: s) = true := fun h => hlong (hp _ h)
      rw [List.drop_succ_cons, firstAt, if_neg hfalse, ← ih, Option.map_map]
      congr 1
      funext n
      simp only [Function.comp_apply]
      omega

theorem undecidableStart_eq (r : StreamingWindowReplacer) (input : Text) :
    r.undecidableStart input = firstAt (isBeginning r.pairs) input := by
  unfold undecidableStart
  simp only [contains_prefixes]
  apply firstAt_tailStart
  intro tail h
  have := utf8Len_lt_maxLen h
  omega

theorem splitPoint_eq (r : StreamingWindowReplacer) (trailing : Text) :
    r.splitPoint trailing = firstAt (isBeginning r.pairs) trailing := by
  have htest : (fun suffix => decide (utf8Len suffix < r.maxLen) && r.prefixes.contains (lower suffix)) =
      isBeginning r.pairs := by
    funext suffix
    rw [contains_prefixes, Bool.eq_iff_iff, Bool.and_eq_true, decide_eq_true_eq]
    exact ⟨fun h => h.2, fun h => ⟨utf8Len_lt_maxLen h, h⟩⟩
  unfold splitPoint
  rw [htest]
  simp only
  split
  · apply firstAt_tailStart
    intro tail h
    have := utf8Len_lt_maxLen h
    omega
  · simp

/-! ### Decisions -/

private theorem extendsContactRight_append {kind : ContactKind} {first : Char} {rest y : Text} {isEof : Bool}
    (heof : isEof = true → y = []) :
    (∀ b, extendsContactRight u kind (first :: rest) isEof = some b →
      extendsContactRight u kind (first :: rest ++ y) true = some b) ∧
    (extendsContactRight u kind (first :: rest) isEof = none → isEof = false) := by
  simp only [List.cons_append, extendsContactRight]
  by_cases h1 : kind = .email ∧ ['-', '+', '%', '@'].contains first = true
  · rw [if_pos h1, if_pos h1]
    simp
  · rw [if_neg h1, if_neg h1]
    by_cases h2 : kind = .ipv6
    · simp [h2]
    · rw [if_neg h2, if_neg h2]
      by_cases h3 : first = '.'
      · rw [if_pos h3, if_pos h3]
        cases rest with
        | nil =>
          cases isEof with
          | false => simp
          | true => simp [heof rfl]
        | cons next rest => simp
      · simp [h3]

/-- A decision that is not put off is the one that the whole text gives. -/
theorem rightBoundary_eq {x y : Text} {m : Match Text} {isEof : Bool} (hstop : m.stop ≤ x.length)
    (hend : patEndsToken u m.pattern = true) (heof : isEof = true → y = []) :
    (r.rightBoundary u x m isEof = .larger → endsAlone u m.pattern ((x ++ y).drop m.stop) = false) ∧
    (r.rightBoundary u x m isEof = .delimiter → endsAlone u m.pattern ((x ++ y).drop m.stop) = true) ∧
    (r.rightBoundary u x m isEof = .undecided → isEof = false) := by
  unfold rightBoundary endsAlone
  rw [List.drop_append_of_le_length hstop]
  by_cases hlen : m.stop = x.length
  · rw [if_pos hlen, hlen, List.drop_length, List.nil_append, hend]
    cases isEof with
    | false => simp
    | true =>
      rw [heof rfl]
      cases contactKind m.pattern with
      | none => simp
      | some kind => simp [extendsContactRight]
  · rw [if_neg hlen, hend, Bool.true_and, Bool.true_and]
    -- the next character is in the input
    cases htail : x.drop m.stop with
    | nil =>
      rw [List.drop_eq_nil_iff] at htail
      omega
    | cons first rest =>
      simp only [List.cons_append, List.head?_cons, Option.any_some]
      by_cases htoken : isTokenChar u first = true
      · simp [htoken]
      · cases contactKind m.pattern with
        | none => simp [htoken]
        | some kind =>
          obtain ⟨hsome, hnone⟩ := @extendsContactRight_append u kind first rest y isEof heof
          rw [List.cons_append] at hsome
          simp only [htoken]
          cases hext : extendsContactRight u kind (first :: rest) isEof with
          | none => simp [hnone hext]
          | some b =>
            have := hsome b hext
            cases b with
            | true => simp [this]
            | false => simp [this]

end StreamingWindowReplacer

end OpenProxy.Pii
