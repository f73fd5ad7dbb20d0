import OpenProxy.Text.Basic
import Mathlib.Data.List.MinMax

/-!
# Leftmost-longest matches

The search for several patterns at once, up to ASCII case: `findIter` lists the matches from left to right, each the
longest one at the leftmost position at which some pattern occurs, and goes on where the match ends.  A pattern carries a
value, and none of the patterns is empty.

A text may be the beginning of a longer one.  The tails of which more text could make a pattern are those that are a
`isBeginning` of one, and where they are not, the part has the occurrences that the whole has (`longestAt_append`).
-/

namespace OpenProxy

/-- An occurrence of a pattern, from `start` to before `stop`. -/
structure Match (β : Type) where
  start : Nat
  stop : Nat
  pattern : Text
  value : β
  deriving DecidableEq, Repr

/-- The match when the text is preceded by `n` characters. -/
def Match.shift {β : Type} (n : Nat) (m : Match β) : Match β := { m with start := m.start + n, stop := m.stop + n }

section Matches

variable {β : Type} (entries : List (Text × β))

/-- The longest of the patterns that the text begins with, and the first of the longest ones. -/
def longestAt (s : Text) : Option (Text × β) :=
  (entries.filter fun e => startsWithIgnoreAsciiCase s e.1).argmax fun e => e.1.length

/-- The matches in a text whose first character is at offset `pos`, of which `skip` characters are passed over. -/
@[grind =] def findFrom : Nat → Nat → Text → List (Match β)
  | _, _, [] => []
  | pos, skip + 1, _ :: s => findFrom (pos + 1) skip s
  | pos, 0, c :: s =>
    match longestAt entries (c :: s) with
    | none => findFrom (pos + 1) 0 s
    | some e => ⟨pos, pos + e.1.length, e.1, e.2⟩ :: findFrom (pos + 1) (e.1.length - 1) s

/-- `AhoCorasick::find_iter`. -/
def findIter (s : Text) : List (Match β) := findFrom entries 0 0 s

/-- A text that is not empty, and that more text can make one of the patterns. -/
def isBeginning (s : Text) : Bool :=
  !s.isEmpty && entries.any fun e => decide (s.length < e.1.length) && (lower s).isPrefixOf (lower e.1)

variable {entries}

theorem longestAt_eq_some {s : Text} {e : Text × β} (h : longestAt entries s = some e) :
    e ∈ entries ∧ startsWithIgnoreAsciiCase s e.1 = true := by
  have := List.argmax_mem h
  rwa [List.mem_filter] at this

theorem isBeginning_iff {s : Text} :
    isBeginning entries s = true ↔ s ≠ [] ∧ ∃ e ∈ entries, s.length < e.1.length ∧ lower s <+: lower e.1 := by
  simp [isBeginning]

/-- A pattern that does not end in the first part makes the first part a beginning. -/
theorem isBeginning_of_longer {s t : Text} {e : Text × β} (he : e ∈ entries) (hs : s ≠ [])
    (hstart : startsWithIgnoreAsciiCase (s ++ t) e.1 = true) (hlen : s.length < e.1.length) :
    isBeginning entries s = true :=
  isBeginning_iff.mpr ⟨hs, e, he, hlen, prefix_of_startsWith_append hstart hlen.le⟩

/-- What a text begins with is known as soon as the text is not a beginning. -/
theorem longestAt_append {s : Text} (t : Text) (hs : s ≠ []) (h : isBeginning entries s = false) :
    longestAt entries (s ++ t) = longestAt entries s := by
  unfold longestAt
  congr 1
  apply List.filter_congr
  intro e he
  rw [Bool.eq_iff_iff]
  constructor
  · intro hstart
    apply startsWith_of_append hstart
    by_contra hlen
    rw [isBeginning_of_longer he hs hstart (by omega)] at h
    exact absurd h (by simp)
  · exact startsWith_append t

/-! ### From match to match -/

theorem findFrom_skip {pos n : Nat} {s : Text} (hn : n ≤ s.length) :
    findFrom entries pos n s = findFrom entries (pos + n) 0 (s.drop n) := by
  induction n generalizing pos s with
  | zero => rfl
  | succ n ih =>
    cases s with
    | nil => simp at hn
    | cons c s =>
      rw [List.drop_succ_cons, findFrom, ih (by simpa using hn)]
      congr 1
      omega

theorem findFrom_none {pos n : Nat} {s : Text} (hn : n ≤ s.length)
    (h : ∀ j < n, longestAt entries (s.drop j) = none) :
    findFrom entries pos 0 s = findFrom entries (pos + n) 0 (s.drop n) := by
  induction n generalizing pos s with
  | zero => rfl
  | succ n ih =>
    cases s with
    | nil => simp at hn
    | cons c s =>
      have h0 : longestAt entries (c :: s) = none := h 0 (by omega)
      rw [List.drop_succ_cons, findFrom]
      simp only [h0]
      rw [ih (by simpa using hn) fun j hj => h (j + 1) (by omega)]
      congr 1
      omega

theorem findFrom_some {pos : Nat} {s : Text} {e : Text × β} (h : longestAt entries s = some e) (he : e.1 ≠ []) :
    findFrom entries pos 0 s =
      ⟨pos, pos + e.1.length, e.1, e.2⟩ :: findFrom entries (pos + e.1.length) 0 (s.drop e.1.length) := by
  have hlen := length_le_of_startsWith (longestAt_eq_some h).2
  have hpos := List.length_pos_iff.mpr he
  cases s with
  | nil =>
    simp only [List.length_nil] at hlen
    omega
  | cons c s =>
    obtain ⟨n, hn⟩ : ∃ n, e.1.length = n + 1 := ⟨e.1.length - 1, by omega⟩
    simp only [List.length_cons] at hlen
    rw [findFrom]
    simp only [h, hn, List.drop_succ_cons, Nat.add_sub_cancel]
    rw [findFrom_skip (by omega)]
    congr 2
    omega

/-- The first match: no pattern occurs before it, and the search goes on at its end. -/
structure FirstMatch (entries : List (Text × β)) (pos : Nat) (s : Text) (m : Match β) (rest : List (Match β)) : Prop where
  le : pos ≤ m.start
  lt : m.start < m.stop
  bound : m.stop ≤ pos + s.length
  before : ∀ j, pos + j < m.start → longestAt entries (s.drop j) = none
  here : longestAt entries (s.drop (m.start - pos)) = some (m.pattern, m.value)
  length : m.stop = m.start + m.pattern.length
  rest : rest = findFrom entries m.stop 0 (s.drop (m.stop - pos))

theorem findFrom_cons (hpat : ∀ e ∈ entries, e.1 ≠ []) {pos : Nat} {s : Text} {m : Match β} {rest : List (Match β)}
    (h : findFrom entries pos 0 s = m :: rest) : FirstMatch entries pos s m rest := by
  induction s generalizing pos with
  | nil => simp [findFrom] at h
  | cons c s ih =>
    cases hl : longestAt entries (c :: s) with
    | none =>
      rw [findFrom] at h
      simp only [hl] at h
      have hm := ih h
      have hle := hm.le
      have hlt := hm.lt
      refine ⟨by omega, hm.lt, ?_, ?_, ?_, hm.length, ?_⟩
      · have := hm.bound
        simp only [List.length_cons]
        omega
      · intro j hj
        cases j with
        | zero => exact hl
        | succ j => exact hm.before j (by omega)
      · rw [show m.start - pos = m.start - (pos + 1) + 1 by omega, List.drop_succ_cons]
        exact hm.here
      · rw [show m.stop - pos = m.stop - (pos + 1) + 1 by omega, List.drop_succ_cons]
        exact hm.rest
    | some e =>
      have hne := hpat e (longestAt_eq_some hl).1
      have hlen := length_le_of_startsWith (longestAt_eq_some hl).2
      have hpos := List.length_pos_iff.mpr hne
      rw [findFrom_some hl hne, List.cons.injEq] at h
      obtain ⟨rfl, rfl⟩ := h
      refine ⟨le_refl _, by simpa using hpos, by simpa using hlen, ?_, by simpa using hl, rfl, by simp⟩
      intro j hj
      simp only at hj
      omega

theorem findFrom_nil (hpat : ∀ e ∈ entries, e.1 ≠ []) {pos : Nat} {s : Text} (h : findFrom entries pos 0 s = []) :
    ∀ j < s.length, longestAt entries (s.drop j) = none := by
  induction s generalizing pos with
  | nil => simp
  | cons c s ih =>
    cases hl : longestAt entries (c :: s) with
    | none =>
      rw [findFrom] at h
      simp only [hl] at h
      intro j hj
      cases j with
      | zero => exact hl
      | succ j => exact ih h j (by simpa using hj)
    | some e =>
      rw [findFrom_some hl (hpat e (longestAt_eq_some hl).1)] at h
      simp at h

/-- The matches are occurrences of patterns in the text. -/
theorem mem_findFrom (hpat : ∀ e ∈ entries, e.1 ≠ []) {pos : Nat} {s : Text} {m : Match β}
    (h : m ∈ findFrom entries pos 0 s) :
    pos ≤ m.start ∧ m.start < m.stop ∧ m.stop ≤ pos + s.length ∧ m.stop = m.start + m.pattern.length ∧
      longestAt entries (s.drop (m.start - pos)) = some (m.pattern, m.value) := by
  generalize hl : findFrom entries pos 0 s = l at h
  induction l generalizing pos s with
  | nil => simp at h
  | cons a rest ih =>
    have ha := findFrom_cons hpat hl
    have hle := ha.le
    have hlt := ha.lt
    have hbound := ha.bound
    rcases List.mem_cons.mp h with rfl | h
    · exact ⟨hle, hlt, hbound, ha.length, ha.here⟩
    · obtain ⟨h1, h2, h3, h4, h5⟩ := ih ha.rest.symm h
      rw [List.drop_drop, show a.stop - pos + (m.start - a.stop) = m.start - pos by omega] at h5
      simp only [List.length_drop] at h3
      exact ⟨by omega, h2, by omega, h4, h5⟩

/-! ### The matches in a part of the text -/

/-- Two texts with the same occurrences up to the first match have the same first match. -/
theorem findFrom_congr (hpat : ∀ e ∈ entries, e.1 ≠ []) {pos : Nat} {s t : Text} {m : Match β} {rest : List (Match β)}
    (h : findFrom entries pos 0 s = m :: rest) (hlen : s.length ≤ t.length)
    (hsame : ∀ j, pos + j ≤ m.start → longestAt entries (t.drop j) = longestAt entries (s.drop j)) :
    findFrom entries pos 0 t = m :: findFrom entries m.stop 0 (t.drop (m.stop - pos)) := by
  have hm := findFrom_cons hpat h
  have hle := hm.le
  have hlt := hm.lt
  have hbound := hm.bound
  have hstart : pos + (m.start - pos) = m.start := by omega
  have hhere : longestAt entries (t.drop (m.start - pos)) = some (m.pattern, m.value) := by
    rw [hsame _ (by omega)]
    exact hm.here
  have hstop := hm.length
  rw [findFrom_none (n := m.start - pos) (by omega), findFrom_some hhere, hstart, List.drop_drop, ← hstop,
    show m.start - pos + m.pattern.length = m.stop - pos by omega]
  · exact hpat _ (longestAt_eq_some hhere).1
  · intro j hj
    rw [hsame j (by omega)]
    exact hm.before j (by omega)

/-- A match that begins in the first part, and not in a beginning, ends in the first part. -/
theorem stop_le_of_not_isBeginning (hpat : ∀ e ∈ entries, e.1 ≠ []) {pos : Nat} {s t : Text} {m : Match β}
    (h : m ∈ findFrom entries pos 0 (s ++ t)) (hlt : m.start < pos + s.length)
    (hb : isBeginning entries (s.drop (m.start - pos)) = false) : m.stop ≤ pos + s.length := by
  obtain ⟨h1, -, -, h4, h5⟩ := mem_findFrom hpat h
  obtain ⟨hmem, hstart⟩ := longestAt_eq_some h5
  rw [List.drop_append_of_le_length (by omega)] at hstart
  by_contra hgt
  rw [isBeginning_of_longer hmem _ hstart] at hb
  · exact absurd hb (by simp)
  · simp only [List.length_drop]
    omega
  · intro hnil
    rw [List.drop_eq_nil_iff] at hnil
    omega

/-- The search may start again at a position from which no pattern occurs inside the match that the position is in. -/
theorem findFrom_split (hpat : ∀ e ∈ entries, e.1 ≠ []) {pos n : Nat} {s : Text} (hn : n ≤ s.length)
    (h : ∀ m ∈ findFrom entries pos 0 s, m.start < pos + n → pos + n < m.stop →
      ∀ v, n ≤ v → pos + v < m.stop → longestAt entries (s.drop v) = none) :
    ∃ before, findFrom entries pos 0 s = before ++ findFrom entries (pos + n) 0 (s.drop n) ∧
      ∀ m ∈ before, m.start < pos + n := by
  generalize hl : findFrom entries pos 0 s = l at h
  induction l generalizing pos n s with
  | nil =>
    have hnone := findFrom_nil hpat hl
    refine ⟨[], ?_, by simp⟩
    rw [List.nil_append, ← hl, findFrom_none hn fun j hj => hnone j (by omega)]
  | cons a rest ih =>
    have ha := findFrom_cons hpat hl
    have hle := ha.le
    have hlt := ha.lt
    have hbound := ha.bound
    by_cases h1 : pos + n ≤ a.start
    · refine ⟨[], ?_, by simp⟩
      rw [List.nil_append, ← hl, findFrom_none hn fun j hj => ha.before j (by omega)]
    · by_cases h2 : pos + n < a.stop
      · -- the rest of the match is passed over
        refine ⟨[a], ?_, by simpa using h1⟩
        have hskip : findFrom entries (pos + n) 0 (s.drop n) = rest := by
          rw [findFrom_none (n := a.stop - (pos + n)), List.drop_drop, ha.rest]
          · congr 2 <;> omega
          · simp only [List.length_drop]
            omega
          · intro j hj
            rw [List.drop_drop]
            exact h a (by simp) (by omega) h2 (n + j) (by omega) (by omega)
        rw [hskip, List.singleton_append]
      · obtain ⟨before, hbefore, hmem⟩ := @ih a.stop (n - (a.stop - pos)) (s.drop (a.stop - pos))
          (by simp only [List.length_drop]; omega) ha.rest.symm (by
            intro m hm hm1 hm2 v hv1 hv2
            rw [List.drop_drop]
            exact h m (List.mem_cons_of_mem a hm) (by omega) (by omega) _ (by omega) (by omega))
        refine ⟨a :: before, ?_, ?_⟩
        · rw [hbefore, List.drop_drop, List.cons_append]
          congr 3
          · omega
          · congr 1
            omega
        · intro m hm
          rcases List.mem_cons.mp hm with rfl | hm
          · omega
          · have := hmem m hm
            omega

/-- A search that starts further to the right finds the same matches at the same distances. -/
theorem findFrom_shift (pos n skip : Nat) (s : Text) :
    findFrom entries (pos + n) skip s = (findFrom entries pos skip s).map (Match.shift n) := by
  induction s generalizing pos skip with
  | nil => simp [findFrom]
  | cons c s ih =>
    have hassoc : pos + n + 1 = pos + 1 + n := by omega
    cases skip with
    | succ skip =>
      rw [findFrom, findFrom, hassoc, ih]
    | zero =>
      rw [findFrom, findFrom]
      cases longestAt entries (c :: s) with
      | none => simp only [hassoc, ih]
      | some e =>
        simp only [hassoc, ih, List.map_cons, Match.shift]
        congr 2
        omega

theorem findFrom_eq_map_shift (n : Nat) (s : Text) :
    findFrom entries n 0 s = (findIter entries s).map (Match.shift n) := by
  have h : findFrom entries (0 + n) 0 s = _ := findFrom_shift 0 n 0 s
  rwa [Nat.zero_add] at h

end Matches

end OpenProxy
