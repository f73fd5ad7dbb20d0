import OpenProxy.Data.JsonRaw
import OpenProxy.Compression.Visitor

/-!
# Compacting JSON in a message

`try_compact_json_text` deletes the white space of a text that looks like JSON and keeps the result if it is JSON.  The
white space is deleted before anything is checked, and so the result can be JSON where the text is not: two numbers with
a line break between them become one number, and a form feed or a no-break space disappears.  The text is the same
document if and only if its white space outside strings is that of JSON and never stands between two words
(`sameDocument_iff`), and `compact_json` changes nothing but such texts (`compactJson_faithful_iff`).
-/

namespace OpenProxy.Compression

open Json

/-! ### Deleting white space -/

/-- The flags of the loop in `minify_json`. -/
structure Scan where
  inString : Bool
  escaped : Bool
  deriving DecidableEq, Repr

namespace Scan

def start : Scan := ⟨false, false⟩

/-- The flags after a character. -/
def next (x : Scan) (c : Char) : Scan :=
  if x.inString then
    if x.escaped then { x with escaped := false }
    else if c = '\\' then { x with escaped := true }
    else if c = '"' then { x with inString := false }
    else x
  else if c = '"' then { x with inString := true }
  else x

/-- The loop writes the character. -/
def keeps (x : Scan) (c : Char) : Bool := x.inString || c == '"' || !isAsciiWhitespace c

end Scan

/-- The loop of `minify_json`. -/
def minifyFrom (x : Scan) : Text → Text
  | [] => []
  | c :: s => if x.keeps c then c :: minifyFrom (x.next c) s else minifyFrom (x.next c) s

/-- `minify_json`. -/
def minifyJson (json : Text) : Text := minifyFrom .start json

/-- `is_json_candidate`. -/
def isJsonCandidate (trimmed : Text) : Bool :=
  ((trimmed.head? == some '\x7b' && trimmed.getLast? == some '\x7d') ||
    (trimmed.head? == some '[' && trimmed.getLast? == some ']')) &&
    (trimmed.contains '\n' || (find trimmed [' ', ' ']).isSome)

/-- `try_compact_json_text`. -/
def tryCompactJsonText (text : Text) : Option Text :=
  let trimmed := trim text
  if !isJsonCandidate trimmed then none
  else
    let minified := minifyJson trimmed
    if utf8Len minified < utf8Len text ∧ (readRaw minified).isSome then some minified else none

/-- `compact_json`. -/
def compactJson (msgs : List OpenAIMessage) : List OpenAIMessage × List Text :=
  pass "lite::compact_json".toList tryCompactJsonText msgs

/-! ### White space that can be deleted -/

/-- What stands before a character outside strings. -/
inductive Gap
  /-- No word. -/
  | clear
  /-- The last character of a word. -/
  | word
  /-- White space that follows a word. -/
  | space
  deriving DecidableEq, Repr

def Gap.next (gap : Gap) (c : Char) : Gap :=
  if isWhitespace c then (if gap = .clear then .clear else .space)
  else if isWordChar c then .word
  else .clear

/-- White space outside strings is that of JSON and does not stand between two words. -/
@[grind =] def idleFrom (x : Scan) (gap : Gap) : Text → Bool
  | [] => true
  | c :: s =>
    (x.inString || (if isWhitespace c then isJsonWhitespace c else !(isWordChar c && gap == .space))) &&
      idleFrom (x.next c) (if x.inString then .clear else gap.next c) s

/-- The white space of a text that is not in a string separates no words. -/
def idleSpaces (text : Text) : Bool := idleFrom .start .clear text

/-- Two texts hold the same JSON document: they have the same tokens, and so they are read as the same value. -/
structure SameDocument (text text' : Text) : Prop where
  valid : (readRaw text).isSome = true
  tokens : rawLex text = rawLex text'
  value : fromStr text = fromStr text'

/-! ### Characters -/

theorem rawBetween_space {c : Char} (h : isJsonWhitespace c = true) : rawBetween c = some (.between, []) := by
  simp only [isJsonWhitespace, Bool.or_eq_true, beq_iff_eq] at h
  rcases h with ((rfl | rfl) | rfl) | rfl <;> decide

/-- Other white space is not a part of JSON. -/
theorem rawBetween_eq_none {c : Char} (h : isWhitespace c = true) (hjson : isJsonWhitespace c = false) :
    rawBetween c = none := by
  have hword := not_isWordChar_of_isWhitespace h
  have hpunctuation : punctuation c = none := by
    unfold punctuation
    split_ifs with h1 h2 h3 h4 h5 h6
    · subst h1; revert h; decide
    · subst h2; revert h; decide
    · subst h3; revert h; decide
    · subst h4; revert h; decide
    · subst h5; revert h; decide
    · subst h6; revert h; decide
    · rfl
  have hquote : c ≠ '"' := by
    rintro rfl
    revert h
    decide
  simp [rawBetween, lexBetween, hpunctuation, hjson, hquote, hword]

/-- What a character that is not white space begins between two tokens. -/
theorem rawBetween_cases {c : Char} {x : RawState} {ts : List Token} (h : rawBetween c = some (x, ts))
    (hspace : isWhitespace c = false) :
    (isWordChar c = true ∧ c ≠ '"' ∧ x = .word [c] ∧ ts = []) ∨
      (isWordChar c = false ∧ c = '"' ∧ x = .string [] ∧ ts = []) ∨
      (isWordChar c = false ∧ c ≠ '"' ∧ x = .between) := by
  have hword : ∀ token, punctuation c = some token → isWordChar c = false ∧ c ≠ '"' := by
    intro token htoken
    unfold punctuation at htoken
    split_ifs at htoken with h1 h2 h3 h4 h5 h6
    · subst h1; decide
    · subst h2; decide
    · subst h3; decide
    · subst h4; decide
    · subst h5; decide
    · subst h6; decide
  simp only [rawBetween, lexBetween, Option.map_eq_some_iff] at h
  obtain ⟨next, hnext, heq⟩ := h
  split at hnext
  · rename_i token htoken
    cases hnext
    cases heq
    exact Or.inr (Or.inr ⟨(hword token htoken).1, (hword token htoken).2, rfl⟩)
  · split_ifs at hnext with h1 h2 h3
    · rw [isWhitespace_of_isAsciiWhitespace (isAsciiWhitespace_of_isJsonWhitespace h1)] at hspace
      cases hspace
    · cases hnext
      cases heq
      subst h2
      exact Or.inr (Or.inl ⟨by decide, rfl, rfl, rfl⟩)
    · cases hnext
      cases heq
      exact Or.inl ⟨h3, h2, rfl, rfl⟩

/-! ### The loop and the reader -/

/-- The flags of the loop, and what it is known to stand behind, in a state of the reader. -/
inductive Sync : RawState → Scan → Gap → Prop
  | between : Sync .between ⟨false, false⟩ .clear
  | word (w : Text) : Sync (.word w) ⟨false, false⟩ .word
  | string (raw : Text) : Sync (.string raw) ⟨true, false⟩ .clear
  | escape (raw : Text) : Sync (.escape raw) ⟨true, true⟩ .clear
  | unicode (raw : Text) (n : Nat) : Sync (.unicode raw n) ⟨true, false⟩ .clear

theorem rawTokens_cons {x : RawState} {c : Char} {t : Text} {ts : List Token} :
    rawTokens x (c :: t) = some ts ↔
      ∃ x' us vs, rawStep x c = some (x', us) ∧ rawTokens x' t = some vs ∧ ts = us ++ vs := by
  rw [rawTokens, Option.bind_eq_some_iff]
  constructor
  · rintro ⟨⟨x', us⟩, hstep, h⟩
    obtain ⟨vs, hvs, rfl⟩ := Option.map_eq_some_iff.mp h
    exact ⟨x', us, vs, hstep, hvs, rfl⟩
  · rintro ⟨x', us, vs, hstep, hvs, rfl⟩
    exact ⟨(x', us), hstep, by simp [hvs]⟩

/-- A character outside strings that is not white space, between two tokens. -/
theorem sync_between {c : Char} {x : RawState} {ts : List Token} {gap : Gap} (h : rawBetween c = some (x, ts))
    (hspace : isWhitespace c = false) : Sync x (Scan.next ⟨false, false⟩ c) (gap.next c) := by
  rcases rawBetween_cases h hspace with ⟨hword, hquote, rfl, -⟩ | ⟨hword, hquote, rfl, -⟩ | ⟨hword, hquote, rfl⟩
  · simpa [Scan.next, Gap.next, hquote, hspace, hword] using Sync.word [c]
  · subst hquote
    simpa [Scan.next, Gap.next, hspace, hword] using Sync.string []
  · simpa [Scan.next, Gap.next, hquote, hspace, hword] using Sync.between

/-- A character in a string. -/
theorem Sync.inside {x x' : RawState} {scan : Scan} {gap : Gap} {c : Char} {ts : List Token} (h : Sync x scan gap)
    (hin : scan.inString = true) (hstep : rawStep x c = some (x', ts)) : Sync x' (scan.next c) .clear := by
  cases h with
  | between | word w => cases hin
  | string raw =>
    simp only [rawStep] at hstep
    split_ifs at hstep with hquote hescape hcontrol
    · cases hstep
      subst hquote
      exact Sync.between
    · cases hstep
      subst hescape
      exact Sync.escape _
    · cases hstep
      simpa [Scan.next, hquote, hescape] using Sync.string _
  | escape raw =>
    simp only [rawStep] at hstep
    split_ifs at hstep with hu hescape
    · cases hstep
      exact Sync.unicode _ _
    · cases hstep
      exact Sync.string _
  | unicode raw n =>
    have hdigit : (hexValue c).isSome = true → c ≠ '\\' ∧ c ≠ '"' := by
      intro h
      constructor
      · rintro rfl; revert h; decide
      · rintro rfl; revert h; decide
    simp only [rawStep] at hstep
    split_ifs at hstep with hnone hlast
    · cases hstep
      have := hdigit (by simpa [Option.isSome_iff_ne_none] using hnone)
      simpa [Scan.next, this.1, this.2] using Sync.string _
    · cases hstep
      have := hdigit (by simpa [Option.isSome_iff_ne_none] using hnone)
      simpa [Scan.next, this.1, this.2] using Sync.unicode _ _

/-- A character outside strings that is not white space. -/
theorem Sync.outside {x x' : RawState} {scan : Scan} {gap : Gap} {c : Char} {ts : List Token} (h : Sync x scan gap)
    (hout : scan.inString = false) (hspace : isWhitespace c = false) (hstep : rawStep x c = some (x', ts)) :
    Sync x' (scan.next c) (gap.next c) := by
  cases h with
  | between => exact sync_between hstep hspace
  | word w =>
    simp only [rawStep] at hstep
    split_ifs at hstep with hword
    · cases hstep
      have hquote : c ≠ '"' := by rintro rfl; revert hword; decide
      simpa [Scan.next, Gap.next, hquote, hspace, hword] using Sync.word _
    · simp only [Option.bind_eq_some_iff, Option.map_eq_some_iff] at hstep
      obtain ⟨token, -, ⟨y, us⟩, hbetween, heq⟩ := hstep
      cases heq
      exact sync_between hbetween hspace
  | string raw | escape raw | unicode raw n => cases hout

theorem next_space {x : Scan} {c : Char} (hout : x.inString = false) (hspace : isWhitespace c = true) :
    x.next c = x := by
  have hquote : c ≠ '"' := by rintro rfl; revert hspace; decide
  simp [Scan.next, hout, hquote]

/-- What can be deleted is skipped by the reader. -/
theorem rawTokens_space {c : Char} (h : isJsonWhitespace c = true) (t : Text) :
    rawTokens .between (c :: t) = rawTokens .between t := by
  rw [rawTokens, rawStep, rawBetween_space h, Option.bind_some]
  cases rawTokens .between t <;> rfl

theorem rawTokens_word_space {c : Char} (h : isJsonWhitespace c = true) (w t : Text) :
    rawTokens (.word w) (c :: t) =
      (wordToken w).bind fun token => (rawTokens .between t).map fun ts => token :: ts := by
  have hword := not_isWordChar_of_isWhitespace
    (isWhitespace_of_isAsciiWhitespace (isAsciiWhitespace_of_isJsonWhitespace h))
  rw [rawTokens, rawStep, if_neg (by simp [hword]), rawBetween_space h]
  cases wordToken w with
  | none => rfl
  | some token => cases h : rawTokens .between t <;> simp [h]

/-- The reader at the end of the text, where white space may follow. -/
theorem rawTokens_trailing {x : Scan} {gap : Gap} {trail : Text} (hout : x.inString = false)
    (hspace : ∀ c ∈ trail, isWhitespace c = true) (hidle : idleFrom x gap trail = true) :
    (∀ ts, rawTokens .between trail = some ts ↔ ts = []) ∧
      ∀ w, rawTokens (.word w) trail = (wordToken w).map fun token => [token] := by
  induction trail generalizing gap with
  | nil =>
    refine ⟨fun ts => ?_, fun w => rfl⟩
    simp [rawTokens, rawEnd, eq_comm]
  | cons c trail ih =>
    have hc := hspace c (by simp)
    simp only [idleFrom, hout, hc, Bool.false_or, Bool.and_eq_true, if_true, next_space hout hc] at hidle
    obtain ⟨hjson, hrest⟩ := hidle
    obtain ⟨hbetween, -⟩ := ih (fun d hd => hspace d (by simp [hd])) hrest
    have hnil := (hbetween []).mpr rfl
    refine ⟨fun ts => ?_, fun w => ?_⟩
    · rw [rawTokens_space hjson]
      exact hbetween ts
    · rw [rawTokens_word_space hjson, hnil]
      cases wordToken w <;> rfl

/-- If deleting the white space leaves a text that can be read, then the reader finds the same tokens with it. -/
theorem rawTokens_of_minify (trail : Text) (hspace : ∀ c ∈ trail, isWhitespace c = true) (s : Text) :
    (∀ x scan gap ts, Sync x scan gap → idleFrom scan gap (s ++ trail) = true →
      rawTokens x (minifyFrom scan s) = some ts → rawTokens x (s ++ trail) = some ts) ∧
    ∀ w ts, idleFrom ⟨false, false⟩ .space (s ++ trail) = true →
      rawTokens (.word w) (minifyFrom ⟨false, false⟩ s) = some ts →
      ((wordToken w).bind fun token => (rawTokens .between (s ++ trail)).map fun us => token :: us) = some ts := by
  induction s with
  | nil =>
    constructor
    · intro x scan gap ts hsync hidle h
      cases hsync with
      | between =>
        simp only [minifyFrom, rawTokens, rawEnd, Option.some.injEq] at h
        exact ((rawTokens_trailing rfl hspace hidle).1 ts).mpr h.symm
      | word w => exact ((rawTokens_trailing rfl hspace hidle).2 w).trans h
      | string raw | escape raw | unicode raw n => cases h
    · intro w ts hidle h
      have hnil := ((rawTokens_trailing rfl hspace hidle).1 []).mpr rfl
      rw [List.nil_append, hnil]
      simp only [minifyFrom, rawTokens, rawEnd] at h
      cases hw : wordToken w with
      | none => rw [hw] at h; cases h
      | some token => rw [hw] at h; exact h
  | cons c s ih =>
    obtain ⟨ihSync, ihSpace⟩ := ih
    constructor
    · intro x scan gap ts hsync hidle h
      rw [List.cons_append] at hidle ⊢
      simp only [idleFrom, Bool.and_eq_true] at hidle
      obtain ⟨hc, hidle⟩ := hidle
      cases hin : scan.inString with
      | true =>
        -- in a string nothing is deleted
        simp only [hin, if_true] at hidle
        rw [minifyFrom, if_pos (by simp [Scan.keeps, hin]), rawTokens_cons] at h
        obtain ⟨x', us, vs, hstep, hrest, rfl⟩ := h
        exact rawTokens_cons.mpr ⟨x', us, vs, hstep, ihSync _ _ _ _ (hsync.inside hin hstep) hidle hrest, rfl⟩
      | false =>
        simp only [hin, Bool.false_or, Bool.false_eq_true, if_false] at hc hidle
        cases hwhite : isWhitespace c with
        | true =>
          rw [hwhite, if_pos rfl] at hc
          have hquote : c ≠ '"' := by rintro rfl; revert hwhite; decide
          have hkeeps : scan.keeps c = false := by
            simp [Scan.keeps, hin, hquote, isAsciiWhitespace_of_isJsonWhitespace hc]
          rw [minifyFrom, if_neg (by simp [hkeeps])] at h
          rw [next_space hin hwhite] at h hidle
          cases hsync with
          | between =>
            rw [rawTokens_space hc]
            refine ihSync _ _ _ _ Sync.between ?_ h
            simpa [Gap.next, hwhite] using hidle
          | word w =>
            rw [rawTokens_word_space hc]
            refine ihSpace w ts ?_ h
            simpa [Gap.next, hwhite] using hidle
          | string raw | escape raw | unicode raw n => cases hin
        | false =>
          have hascii := not_isAsciiWhitespace hwhite
          rw [minifyFrom, if_pos (by simp [Scan.keeps, hascii]), rawTokens_cons] at h
          obtain ⟨x', us, vs, hstep, hrest, rfl⟩ := h
          exact rawTokens_cons.mpr
            ⟨x', us, vs, hstep, ihSync _ _ _ _ (hsync.outside hin hwhite hstep) hidle hrest, rfl⟩
    · intro w ts hidle h
      rw [List.cons_append] at hidle ⊢
      simp only [idleFrom, Bool.and_eq_true, Bool.false_or, Bool.false_eq_true, if_false] at hidle
      obtain ⟨hc, hidle⟩ := hidle
      cases hwhite : isWhitespace c with
      | true =>
        rw [hwhite, if_pos rfl] at hc
        have hquote : c ≠ '"' := by rintro rfl; revert hwhite; decide
        have hkeeps : Scan.keeps ⟨false, false⟩ c = false := by
          simp [Scan.keeps, hquote, isAsciiWhitespace_of_isJsonWhitespace hc]
        rw [minifyFrom, if_neg (by simp [hkeeps])] at h
        rw [next_space rfl hwhite] at h hidle
        rw [rawTokens_space hc]
        refine ihSpace w ts ?_ h
        simpa [Gap.next, hwhite] using hidle
      | false =>
        -- the word ends before the white space, and what follows is not a word
        have hword : isWordChar c = false := by simpa [hwhite] using hc
        have hascii := not_isAsciiWhitespace hwhite
        rw [minifyFrom, if_pos (by simp [Scan.keeps, hascii]), rawTokens_cons] at h
        obtain ⟨x', us, vs, hstep, hrest, rfl⟩ := h
        simp only [rawStep, hword, Bool.false_eq_true, if_false, Option.bind_eq_some_iff, Option.map_eq_some_iff] at hstep
        obtain ⟨token, htoken, ⟨y, us'⟩, hbetween, heq⟩ := hstep
        cases heq
        have hrest' := ihSync _ _ _ _ (sync_between hbetween hwhite) hidle hrest
        have htext : rawTokens .between (c :: (s ++ trail)) = some (us' ++ vs) :=
          rawTokens_cons.mpr ⟨y, us', vs, hbetween, hrest', rfl⟩
        simp [htoken, htext]

/-- The white space of a text that is JSON separates no words. -/
theorem idleFrom_of_watch (s : Text) {x : RawState} {scan : Scan} {gap : Gap} {ts : List Token} {r r' : ReadState}
    (hsync : Sync x scan gap ∨ (x = .between ∧ scan = ⟨false, false⟩ ∧ gap = .space ∧ r.afterValue = true))
    (htokens : rawTokens x s = some ts) (hread : watch readStep r ts = some r') : idleFrom scan gap s = true := by
  induction s generalizing x scan gap ts r with
  | nil => rfl
  | cons c s ih =>
    obtain ⟨x', us, vs, hstep, hrest, rfl⟩ := rawTokens_cons.mp htokens
    rw [watch_append, Option.bind_eq_some_iff] at hread
    obtain ⟨r₁, hus, hvs⟩ := hread
    simp only [idleFrom, Bool.and_eq_true]
    rcases hsync with hsync | ⟨rfl, rfl, rfl, hafter⟩
    · cases hin : scan.inString with
      | true => exact ⟨rfl, ih (Or.inl (by simpa using hsync.inside hin hstep)) hrest hvs⟩
      | false =>
        simp only [Bool.false_or, Bool.false_eq_true, if_false]
        cases hwhite : isWhitespace c with
        | false =>
          refine ⟨?_, ih (Or.inl (hsync.outside hin hwhite hstep)) hrest hvs⟩
          cases hsync <;> simp
        | true =>
          rw [next_space hin hwhite]
          cases hjson : isJsonWhitespace c with
          | false =>
            -- the reader stops at other white space
            exfalso
            have hnone := rawBetween_eq_none hwhite hjson
            cases hsync with
            | between =>
              rw [rawStep, hnone] at hstep
              cases hstep
            | word w =>
              have hword := not_isWordChar_of_isWhitespace hwhite
              rw [rawStep, if_neg (by simp [hword]), hnone] at hstep
              cases hw : wordToken w <;> simp [hw] at hstep
            | string raw | escape raw | unicode raw n => cases hin
          | true =>
            refine ⟨rfl, ?_⟩
            cases hsync with
            | between =>
              rw [rawStep, rawBetween_space hjson] at hstep
              cases hstep
              refine ih (Or.inl ?_) hrest hvs
              simpa [Gap.next, hwhite] using Sync.between
            | word w =>
              have hword := not_isWordChar_of_isWhitespace hwhite
              rw [rawStep, if_neg (by simp [hword]), rawBetween_space hjson] at hstep
              simp only [Option.map_some, Option.bind_eq_some_iff] at hstep
              obtain ⟨token, htoken, heq⟩ := hstep
              cases heq
              have hus : readStep r token = some r₁ := by simpa using hus
              refine ih (Or.inr ⟨rfl, rfl, ?_, afterValue_of_isWord (wordToken_isWord htoken) hus⟩) hrest hvs
              simp [Gap.next, hwhite]
            | string raw | escape raw | unicode raw n => cases hin
    · -- a word has been read, and white space after it
      simp only [Bool.false_or, Bool.false_eq_true, if_false]
      cases hwhite : isWhitespace c with
      | true =>
        rw [next_space rfl hwhite]
        cases hjson : isJsonWhitespace c with
        | false =>
          rw [rawStep, rawBetween_eq_none hwhite hjson] at hstep
          cases hstep
        | true =>
          rw [rawStep, rawBetween_space hjson] at hstep
          cases hstep
          cases hus
          refine ⟨rfl, ih (Or.inr ⟨rfl, rfl, ?_, hafter⟩) hrest hvs⟩
          simp [Gap.next, hwhite]
      | false =>
        refine ⟨?_, ih (Or.inl (sync_between hstep hwhite)) hrest hvs⟩
        rcases rawBetween_cases hstep hwhite with ⟨hword, -, rfl, rfl⟩ | ⟨hword, -⟩ | ⟨hword, -⟩
        · exfalso
          obtain ⟨token, ws, rfl, htoken⟩ := exists_rawTokens_word hrest
          cases hus
          rw [watch_cons, readStep_afterValue hafter htoken] at hvs
          cases hvs
        · simp [hword]
        · simp [hword]

/-! ### The result of compacting -/

/-- White space at the beginning of a text. -/
theorem idle_lead {lead s : Text} (hspace : ∀ c ∈ lead, isWhitespace c = true) (hidle : idleSpaces (lead ++ s) = true) :
    idleSpaces s = true ∧ rawLex (lead ++ s) = rawLex s := by
  induction lead with
  | nil => exact ⟨hidle, rfl⟩
  | cons c lead ih =>
    have hc := hspace c (by simp)
    rw [List.cons_append, idleSpaces, idleFrom, next_space rfl hc] at hidle
    simp only [Scan.start, hc, if_true, Bool.false_or, Bool.false_eq_true, if_false, Bool.and_eq_true, Gap.next] at hidle
    obtain ⟨hjson, hidle⟩ := hidle
    obtain ⟨hs, hlex⟩ := ih (fun d hd => hspace d (by simp [hd])) hidle
    refine ⟨hs, ?_⟩
    rw [List.cons_append, rawLex, rawTokens_space hjson]
    exact hlex

theorem tryCompactJsonText_eq_some {text minified : Text} (h : tryCompactJsonText text = some minified) :
    minified = minifyJson (trim text) ∧ (readRaw minified).isSome = true := by
  unfold tryCompactJsonText at h
  simp only at h
  split_ifs at h with hcandidate hok
  cases h
  exact ⟨rfl, hok.2⟩

/-- A compacted text holds the document of the text if and only if the white space of the text separates no words. -/
theorem sameDocument_iff {text minified : Text} (h : tryCompactJsonText text = some minified) :
    SameDocument text minified ↔ idleSpaces text = true := by
  obtain ⟨rfl, hvalid⟩ := tryCompactJsonText_eq_some h
  constructor
  · intro hsame
    obtain ⟨v, hv⟩ := Option.isSome_iff_exists.mp hsame.valid
    rw [readRaw, Option.bind_eq_some_iff] at hv
    obtain ⟨ts, hts, hv⟩ := hv
    unfold readTokens at hv
    split at hv
    · rename_i u hwatch
      exact idleFrom_of_watch text (Or.inl Sync.between) hts hwatch
    · cases hv
  · intro hidle
    obtain ⟨lead, trail, htext, hlead, htrail⟩ := exists_eq_trim text
    have htokens : rawLex text = rawLex (minifyJson (trim text)) := by
      rw [htext] at hidle
      obtain ⟨hidle, hlex⟩ := idle_lead hlead hidle
      obtain ⟨v, hv⟩ := Option.isSome_iff_exists.mp hvalid
      rw [readRaw, Option.bind_eq_some_iff] at hv
      obtain ⟨ts, hts, -⟩ := hv
      have hfound := (rawTokens_of_minify trail htrail (trim text)).1 _ _ _ _ Sync.between hidle hts
      rw [hts]
      conv_lhs => rw [htext]
      rw [hlex]
      exact hfound
    refine ⟨?_, htokens, ?_⟩
    · rw [readRaw, htokens]
      exact hvalid
    · rw [fromStr, fromStr, read_eq_of_rawLex_eq htokens]

/-- Every text that `compact_json` replaces holds the same document as before, and nothing else changes. -/
structure Faithful (msgs : List OpenAIMessage) : Prop where
  documents : ∀ msg ∈ msgs, ∀ text ∈ contentTexts msg.content, ∀ minified,
    tryCompactJsonText text = some minified → SameDocument text minified
  others : List.Forall₂ (MessageReplaced (changed tryCompactJsonText)) msgs (compactJson msgs).1

theorem compactJson_faithful_iff (msgs : List OpenAIMessage) :
    Faithful msgs ↔ ∀ msg ∈ msgs, ∀ text ∈ contentTexts msg.content,
      (tryCompactJsonText text).isSome = true → idleSpaces text = true := by
  constructor
  · intro h msg hmsg text htext hsome
    obtain ⟨minified, hminified⟩ := Option.isSome_iff_exists.mp hsome
    exact (sameDocument_iff hminified).mp (h.documents msg hmsg text htext minified hminified)
  · intro h
    refine ⟨?_, pass_replaces _ _ msgs⟩
    intro msg hmsg text htext minified hminified
    exact (sameDocument_iff hminified).mpr (h msg hmsg text htext (by simp [hminified]))

/-- The message of a tool that gives two numbers on two lines. -/
def twoLines : OpenAIMessage :=
  ⟨Role.tool, some (string ['[', '1', '\n', '2', ']']), none, none, none, []⟩

/-- The two numbers become one. -/
theorem not_faithful_twoLines : ¬ Faithful [twoLines] := by
  intro h
  have hcompact : tryCompactJsonText ['[', '1', '\n', '2', ']'] = some ['[', '1', '2', ']'] := by decide +kernel
  have hinvalid : (readRaw ['[', '1', '\n', '2', ']']).isSome = false := by decide +kernel
  have htext : ['[', '1', '\n', '2', ']'] ∈ contentTexts twoLines.content := by simp [twoLines, contentTexts]
  have hvalid := (h.documents twoLines (by simp) _ htext _ hcompact).valid
  rw [hinvalid] at hvalid
  cases hvalid

end OpenProxy.Compression
