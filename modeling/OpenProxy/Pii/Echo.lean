import OpenProxy.Pii.Chunks
import OpenProxy.Pii.Engine

/-!
# The echo of a redacted text

A redacted text that comes back unchanged is restored to the original text, up to the case of persons
(`restoreText_redactText`), if the search for the keys of the session finds each pseudonym where it was written
(`Undisturbed`) and leads from it to the original.  A person whose name is another original in other case breaks the second
condition: it rewrites the entry of that original (`redactText_password`).
-/

namespace OpenProxy.Pii

variable {text : Text} {u : CharTables} {pairs : List (Text × Text)}

namespace Candidate

/-- The candidate stands between white space and the ends of the text. -/
def Bounded (c : Candidate text) : Prop :=
  (text.take c.start).getLast?.all isWhitespace = true ∧ (text.drop c.stop).head?.all isWhitespace = true

instance (c : Candidate text) : Decidable c.Bounded := inferInstanceAs (Decidable (_ ∧ _))

/-- No key that begins in the text before a pseudonym runs into it, and none that begins with a pseudonym is another one of
its length or runs past its end. -/
def Undisturbed (keys : List Text) (ph : Candidate text → Text) : Nat → List (Candidate text) → Prop
  | _, [] => True
  | curr, c :: cs =>
    let gap := (text.take c.start).drop curr
    let tail := ph c ++ substitute ph c.stop cs
    (∀ n < gap.length, ∀ key ∈ keys, startsWithIgnoreAsciiCase ((gap ++ tail).drop n) key = true →
      n + key.length ≤ gap.length) ∧
    (∀ key ∈ keys, startsWithIgnoreAsciiCase tail key = true → key = ph c ∨ key.length < (ph c).length) ∧
    Undisturbed keys ph c.stop cs

instance decidableUndisturbed (keys : List Text) (ph : Candidate text → Text) :
    (curr : Nat) → (cs : List (Candidate text)) → Decidable (Undisturbed keys ph curr cs)
  | _, [] => inferInstanceAs (Decidable True)
  | _, c :: cs =>
    have := decidableUndisturbed keys ph c.stop cs
    inferInstanceAs (Decidable (_ ∧ _ ∧ _))

theorem Undisturbed.mono {keys keys' : List Text} {ph : Candidate text → Text} {curr : Nat} {cs : List (Candidate text)}
    (h : Undisturbed keys ph curr cs) (hsub : ∀ key ∈ keys', key ∈ keys) : Undisturbed keys' ph curr cs := by
  induction cs generalizing curr with
  | nil => trivial
  | cons c cs ih =>
    obtain ⟨hgap, hown, hrest⟩ := h
    exact ⟨fun n hn key hkey => hgap n hn key (hsub key hkey), fun key hkey => hown key (hsub key hkey), ih hrest⟩

end Candidate

/-! ### A text without keys -/

theorem longestAt_eq_none {s : Text} : longestAt pairs s = none ↔ ∀ e ∈ pairs, startsWithIgnoreAsciiCase s e.1 = false := by
  unfold longestAt
  rw [List.argmax_eq_none, List.filter_eq_nil_iff]
  simp

/-- The longest pattern at a place, if the others there are shorter or of the same text and value. -/
theorem longestAt_eq_of_longest {s : Text} {p v : Text} (hmem : (p, v) ∈ pairs)
    (hstart : startsWithIgnoreAsciiCase s p = true)
    (hlongest : ∀ e ∈ pairs, startsWithIgnoreAsciiCase s e.1 = true → e = (p, v) ∨ e.1.length < p.length) :
    longestAt pairs s = some (p, v) := by
  have hfilter : (p, v) ∈ pairs.filter fun e => startsWithIgnoreAsciiCase s e.1 := List.mem_filter.mpr ⟨hmem, hstart⟩
  cases hl : longestAt pairs s with
  | none =>
    rw [longestAt_eq_none.mp hl _ hmem] at hstart
    exact absurd hstart (by simp)
  | some e =>
    obtain ⟨he, hes⟩ := longestAt_eq_some hl
    have hle : p.length ≤ e.1.length := List.le_of_mem_argmax (f := fun e : Text × Text => e.1.length) hfilter hl
    rcases hlongest e he hes with rfl | hlt
    · rfl
    · omega

theorem findIter_eq_nil {s : Text} (h : ∀ n ≤ s.length, longestAt pairs (s.drop n) = none) : findIter pairs s = [] := by
  unfold findIter
  rw [findFrom_none (n := s.length) (le_refl _) fun j hj => h j hj.le, List.drop_length]
  rfl

theorem restored_of_none {prev : Option Char} {s : Text} (h : ∀ n ≤ s.length, longestAt pairs (s.drop n) = none) :
    restored u pairs prev s = s := by
  unfold restored
  rw [findIter_eq_nil h]
  rfl

/-! ### The white space around a candidate -/

section Space

variable (hspace : ∀ c, isWhitespace c = true → u.isAlphanumeric c = false)

include hspace in
theorem isTokenChar_of_isWhitespace {c : Char} (h : isWhitespace c = true) : isTokenChar u c = false := by
  unfold isTokenChar
  rw [hspace c h, Bool.false_or, beq_eq_false_iff_ne]
  rintro rfl
  exact absurd h (by decide)

/-- White space is no letter or digit of ASCII. -/
theorem ascii_of_isWhitespace {c : Char} (h : isWhitespace c = true) : CharTables.ascii.isAlphanumeric c = false := by
  show c.isAlphanum = false
  rw [Bool.eq_false_iff]
  intro halnum
  have e1 : 'z'.val.toNat = 122 := by decide
  have e2 : 'Z'.val.toNat = 90 := by decide
  have e3 : '9'.val.toNat = 57 := by decide
  have e4 : 'a'.val.toNat = 97 := by decide
  have e5 : 'A'.val.toNat = 65 := by decide
  have e6 : '0'.val.toNat = 48 := by decide
  delta Char.isAlphanum Char.isAlpha Char.isUpper Char.isLower Char.isDigit at halnum
  unfold isWhitespace Char.toNat at h
  simp only [Bool.or_eq_true, Bool.and_eq_true, decide_eq_true_eq, ge_iff_le, UInt32.le_iff_toNat_le, beq_iff_eq] at h halnum
  omega

/-- White space is none of the characters of a list without any. -/
private theorem contains_of_isWhitespace {c : Char} {l : List Char} (h : isWhitespace c = true)
    (hl : l.all fun d => !isWhitespace d) : l.contains c = false := by
  rw [List.all_eq_true] at hl
  rw [← Bool.not_eq_true, List.contains_iff_mem]
  intro hc
  have := hl c hc
  rw [h] at this
  exact absurd this (by simp)

private theorem ne_of_isWhitespace {c d : Char} (h : isWhitespace c = true) (hd : isWhitespace d = false) : c ≠ d := by
  rintro rfl
  rw [h] at hd
  exact absurd hd (by simp)

include hspace in
theorem rejectsLeft_of_isWhitespace {pat : Text} {prevChar : Option Char} (h : prevChar.all isWhitespace = true) :
    StreamingWindowReplacer.rejectsLeft u pat prevChar = false := by
  unfold StreamingWindowReplacer.rejectsLeft
  cases prevChar with
  | none =>
    cases contactKind pat <;> simp
  | some c =>
    rw [Option.all_some] at h
    have hcontact : ∀ kind, extendsContactLeft kind c = false := by
      intro kind
      cases kind with
      | email => exact contains_of_isWhitespace h (by decide)
      | ipv4 => exact contains_of_isWhitespace h (by decide)
      | ipv6 => exact beq_eq_false_iff_ne.mpr (ne_of_isWhitespace h (by decide))
    simp only [Option.any_some, isTokenChar_of_isWhitespace hspace h, Bool.and_false, Bool.false_or, hcontact]
    cases contactKind pat <;> rfl

include hspace in
theorem endsAlone_of_isWhitespace {pat tail : Text} (h : tail.head?.all isWhitespace = true) :
    endsAlone u pat tail = true := by
  unfold endsAlone
  cases tail with
  | nil => cases contactKind pat <;> simp [extendsContactRight]
  | cons c rest =>
    rw [List.head?_cons, Option.all_some] at h
    have hcontact : ∀ kind, extendsContactRight u kind (c :: rest) true = some false := by
      intro kind
      have hdot : c ≠ '.' := ne_of_isWhitespace h (by decide)
      have hcolon : (c == ':' || c == '%') = false := by
        simp [ne_of_isWhitespace (d := ':') h (by decide), ne_of_isWhitespace (d := '%') h (by decide)]
      have hmail : ['-', '+', '%', '@'].contains c = false := contains_of_isWhitespace h (by decide)
      unfold extendsContactRight
      simp only [hmail, Bool.false_eq_true, and_false, ↓reduceIte, hcolon, hdot, ite_self]
    simp only [List.head?_cons, Option.any_some, isTokenChar_of_isWhitespace hspace h, Bool.and_false, Bool.not_false,
      Bool.true_and, hcontact]
    cases contactKind pat <;> rfl

end Space

/-! ### From candidate to candidate -/

/-- A stretch without matches and then a match that is replaced. -/
theorem restored_step {prev : Option Char} {gap p v rest : Text} (hpat : ∀ pair ∈ pairs, pair.1 ≠ [])
    (hgap : ∀ n < gap.length, longestAt pairs ((gap ++ (p ++ rest)).drop n) = none)
    (hhere : longestAt pairs (p ++ rest) = some (p, v))
    (hleft : StreamingWindowReplacer.rejectsLeft u p (gap.getLast?.or prev) = false) (hright : endsAlone u p rest = true) :
    restored u pairs prev (gap ++ (p ++ rest)) = gap ++ v ++ restored u pairs (p.getLast?.or (gap.getLast?.or prev)) rest := by
  have hp : p ≠ [] := hpat _ (longestAt_eq_some hhere).1
  have hdrop : (gap ++ (p ++ rest)).drop gap.length = p ++ rest := List.drop_left
  have hstop : (gap ++ (p ++ rest)).drop (gap.length + p.length) = rest := by
    rw [← List.drop_drop, hdrop, List.drop_left]
  have hbefore : precededBy prev (gap ++ (p ++ rest)) gap.length = gap.getLast?.or prev := by
    unfold precededBy
    rw [List.take_left]
  have hafter : precededBy prev (gap ++ (p ++ rest)) (gap.length + p.length) = p.getLast?.or (gap.getLast?.or prev) := by
    unfold precededBy
    rw [← List.append_assoc, ← List.length_append, List.take_left, List.getLast?_append, Option.or_assoc]
  have hlen : gap.length + p.length ≤ (gap ++ (p ++ rest)).length := by
    simp only [List.length_append]
    omega
  have hstart : Resumes u pairs prev (gap ++ (p ++ rest)) [] 0 := ⟨Nat.zero_le _, rfl, [], rfl⟩
  have hup : Resumes u pairs prev (gap ++ (p ++ rest)) gap gap.length := by
    have hsplit : findFrom pairs 0 0 ((gap ++ (p ++ rest)).drop 0) =
        [] ++ findFrom pairs gap.length 0 ((gap ++ (p ++ rest)).drop gap.length) := by
      rw [List.nil_append, List.drop_zero, findFrom_none (n := gap.length) (by omega) hgap, Nat.zero_add]
    have := hstart.advance hpat (Nat.zero_le _) (by omega) hsplit (by simp)
    simpa using this
  have hmatch := hup.replace (m := ⟨gap.length, gap.length + p.length, p, v⟩) rfl hlen
    (by rw [hdrop, findFrom_some hhere hp, hstop, List.drop_left]) (by
      unfold standsAlone
      rw [hbefore, hstop, hleft, hright]
      rfl)
  have := hmatch.restored
  rw [hafter, hstop] at this
  exact this.symm

namespace Candidate

/-- The candidates begin further right than the ones before them end. -/
def Apart (cs : List (Candidate text)) : Prop := cs.IsChain fun a b => a.stop < b.start

instance (cs : List (Candidate text)) : Decidable (Apart cs) := inferInstanceAs (Decidable (cs.IsChain _))

/-- What follows a candidate begins as the text does, whatever is written in place of the candidates further right. -/
theorem head?_substitute {f : Candidate text → Text} {c : Candidate text} {cs : List (Candidate text)}
    (h : Apart (c :: cs)) : (substitute f c.stop cs).head? = (text.drop c.stop).head? := by
  cases cs with
  | nil => rfl
  | cons c' cs =>
    have hlt : c.stop < c'.start := (List.isChain_cons_cons.mp h).1
    have hlen := c'.stop_le
    have hle := c'.start_le
    rw [substitute, List.append_assoc, List.head?_append, List.head?_drop, List.head?_drop, List.getElem?_take_of_lt hlt]
    rw [List.getElem?_eq_getElem (show c.stop < text.length by omega)]
    rfl

/-- The text with the keys in place of the candidates is restored to the text with their values. -/
theorem restored_substitute (hspace : ∀ c, isWhitespace c = true → u.isAlphanumeric c = false)
    (hpat : ∀ pair ∈ pairs, pair.1 ≠ []) (hunique : ∀ p v v', (p, v) ∈ pairs → (p, v') ∈ pairs → v = v')
    (habsent : ∀ pair ∈ pairs, ∀ n ≤ text.length, startsWithIgnoreAsciiCase (text.drop n) pair.1 = false)
    {ph val : Candidate text → Text} {cs : List (Candidate text)} (hval : ∀ c ∈ cs, (ph c, val c) ∈ pairs)
    (hbounded : ∀ c ∈ cs, c.Bounded) {prev : Option Char} {curr : Nat} (hcurr : curr ≤ text.length) (hordered : Ordered curr cs)
    (hapart : Apart cs) (hprev : ∀ c ∈ cs.head?, curr < c.start ∨ prev = none)
    (hundisturbed : Undisturbed (pairs.map Prod.fst) ph curr cs) :
    restored u pairs prev (substitute ph curr cs) = substitute val curr cs := by
  induction cs generalizing curr prev with
  | nil =>
    apply restored_of_none
    intro n hn
    rw [longestAt_eq_none]
    intro e he
    simp only [substitute, List.length_drop] at hn
    rw [substitute, List.drop_drop]
    exact habsent e he _ (by omega)
  | cons c cs ih =>
    obtain ⟨hgap, hown, hrest⟩ := hundisturbed
    have hle := hordered.1
    have hstart := c.start_le
    have hstop := c.stop_le
    have hglen : ((text.take c.start).drop curr).length = c.start - curr := by
      simp only [List.length_drop, List.length_take]
      omega
    have hhere : longestAt pairs (ph c ++ substitute ph c.stop cs) = some (ph c, val c) := by
      apply longestAt_eq_of_longest (hval c (by simp))
      · exact startsWith_append _ (startsWith_iff.mpr (List.prefix_refl _))
      · rintro ⟨p, v⟩ he hes
        rcases hown p (List.mem_map.mpr ⟨_, he, rfl⟩) hes with heq | hlt
        · subst heq
          exact Or.inl (by rw [hunique _ _ _ he (hval c (by simp))])
        · exact Or.inr hlt
    have hnone : ∀ n < ((text.take c.start).drop curr).length,
        longestAt pairs (((text.take c.start).drop curr ++ (ph c ++ substitute ph c.stop cs)).drop n) = none := by
      intro n hn
      rw [longestAt_eq_none]
      intro e he
      rw [Bool.eq_false_iff]
      intro hes
      -- an occurrence that ends before the candidate is one in the text
      have hend := hgap n hn e.1 (List.mem_map.mpr ⟨e, he, rfl⟩) hes
      rw [List.drop_append_of_le_length hn.le] at hes
      have hin := startsWith_of_append hes (by simp only [List.length_drop]; simp only [List.length_drop] at hend; omega)
      have htext := startsWith_append (text.drop c.start) hin
      have hsplit : ((text.take c.start).drop curr).drop n ++ text.drop c.start = text.drop (curr + n) := by
        rw [List.drop_drop, ← drop_eq_slice text (by omega)]
      rw [hsplit, habsent e he _ (by omega)] at htext
      exact absurd htext (by simp)
    have hleft : StreamingWindowReplacer.rejectsLeft u (ph c) (((text.take c.start).drop curr).getLast?.or prev) = false := by
      apply rejectsLeft_of_isWhitespace hspace
      by_cases hlt : curr < c.start
      · have hlast : ((text.take c.start).drop curr).getLast? = (text.take c.start).getLast? := by
          rw [List.getLast?_drop, if_neg]
          simp only [List.length_take]
          omega
        have hne : ((text.take c.start).getLast?).isSome = true := by
          rw [List.getLast?_isSome]
          intro hnil
          have := congrArg List.length hnil
          simp only [List.length_take, List.length_nil] at this
          omega
        rw [hlast, Option.or_of_isSome hne]
        exact (hbounded c (by simp)).1
      · have hnil : (text.take c.start).drop curr = [] := List.eq_nil_of_length_eq_zero (by omega)
        rcases hprev c (by simp) with h | h
        · exact absurd h hlt
        · rw [hnil, h]
          rfl
    have hright : endsAlone u (ph c) (substitute ph c.stop cs) = true := by
      apply endsAlone_of_isWhitespace hspace
      rw [head?_substitute hapart]
      exact (hbounded c (by simp)).2
    have hstep := restored_step (u := u) hpat hnone hhere hleft hright
    rw [substitute, List.append_assoc, hstep, substitute]
    congr 1
    apply ih
    · exact fun c' hc' => hval c' (by simp [hc'])
    · exact fun c' hc' => hbounded c' (by simp [hc'])
    · exact hstop
    · exact hordered.2
    · exact hapart.of_cons
    · intro c' hc'
      cases cs with
      | nil => simp at hc'
      | cons c'' cs =>
        simp only [List.head?_cons, Option.mem_def, Option.some.injEq] at hc'
        subst hc'
        exact Or.inl (List.isChain_cons_cons.mp hapart).1
    · exact hrest

/-- Two texts with a common beginning and then parts of one length differ in these parts or behind them. -/
private theorem differ_of_append {α : Type} {gap x y s t : List α} {i : Nat} (hlen : x.length = y.length)
    (h : (gap ++ (x ++ s))[i]? ≠ (gap ++ (y ++ t))[i]?) :
    gap.length ≤ i ∧ i < gap.length + y.length ∧ x ≠ y ∨
      gap.length + y.length ≤ i ∧ s[i - gap.length - y.length]? ≠ t[i - gap.length - y.length]? := by
  by_cases hin : i < gap.length
  · rw [List.getElem?_append_left hin, List.getElem?_append_left hin] at h
    exact absurd rfl h
  · have hright : ∀ z : List α, (gap ++ z)[i]? = z[i - gap.length]? := fun z => List.getElem?_append_right (by omega)
    rw [hright, hright] at h
    by_cases hown : i - gap.length < y.length
    · refine Or.inl ⟨by omega, by omega, ?_⟩
      rintro rfl
      rw [List.getElem?_append_left hown, List.getElem?_append_left hown] at h
      exact absurd rfl h
    · have hs : (x ++ s)[i - gap.length]? = s[i - gap.length - y.length]? := by
        rw [List.getElem?_append_right (by omega), hlen]
      have ht : (y ++ t)[i - gap.length]? = t[i - gap.length - y.length]? := List.getElem?_append_right (by omega)
      rw [hs, ht] at h
      exact Or.inr ⟨by omega, h⟩

/-- A text that differs in case only from what the candidates matched differs from the text nowhere else. -/
theorem substitute_agrees {f : Candidate text → Text} {cs : List (Candidate text)} {curr : Nat} (hordered : Ordered curr cs)
    (hlower : ∀ c ∈ cs, lower (f c) = lower c.matchedText) :
    lower (substitute f curr cs) = lower (text.drop curr) ∧
      ∀ i, (substitute f curr cs)[i]? ≠ (text.drop curr)[i]? →
        ∃ c ∈ cs, c.start ≤ curr + i ∧ curr + i < c.stop ∧ f c ≠ c.matchedText := by
  induction cs generalizing curr with
  | nil => exact ⟨rfl, fun i h => absurd rfl h⟩
  | cons c cs ih =>
    obtain ⟨ihlower, ihdiff⟩ := ih hordered.2 fun c' hc' => hlower c' (by simp [hc'])
    have hc := hlower c (by simp)
    have hle := hordered.1
    have hstart := c.start_le
    have hstop := c.stop_le
    have hsplit : text.drop curr = (text.take c.start).drop curr ++ c.matchedText ++ text.drop c.stop := by
      rw [matchedText, List.append_assoc, ← drop_eq_slice text c.start_le, ← drop_eq_slice text hordered.1]
    have hlen : (f c).length = c.matchedText.length := by simpa using congrArg List.length hc
    have hmatched : c.matchedText.length = c.stop - c.start := by
      simp only [matchedText, List.length_drop, List.length_take]
      omega
    have hgap : ((text.take c.start).drop curr).length = c.start - curr := by
      simp only [List.length_drop, List.length_take]
      omega
    constructor
    · rw [hsplit, substitute, lower_append, lower_append, lower_append, lower_append, hc, ihlower]
    · intro i hi
      rw [hsplit, substitute, List.append_assoc, List.append_assoc] at hi
      rcases differ_of_append hlen hi with ⟨h1, h2, hne⟩ | ⟨h1, hrest⟩
      · exact ⟨c, by simp, by omega, by omega, hne⟩
      · obtain ⟨c', hc', h2, h3, hne⟩ := ihdiff _ hrest
        exact ⟨c', by simp [hc'], by omega, by omega, hne⟩

/-- The text, except that what a person candidate matched may differ in ASCII case wherever a candidate matched it. -/
def EchoOf (selected : List (Candidate text)) (r : Text) : Prop :=
  lower r = lower text ∧ ∀ i, r[i]? ≠ text[i]? → ∃ c ∈ selected, c.start ≤ i ∧ i < c.stop ∧
    ∃ person ∈ selected, person.entity = .person ∧ person.matchedText = c.matchedText

end Candidate

open Candidate PiiSession StreamingWindowReplacer

/-- `restore_text` on a text that is safe to cut. -/
theorem restoreText_eq_restored {s : PiiSession} (h : s.WellSpelled) {order order' : HashOrder} {t : Text}
    (hcut : CutSafe u (fromSession s order order').pairs none t) :
    s.restoreText u order order' t = restored u (fromSession s order order').pairs none t := by
  have hfresh : (fromSession s order order').pending = [] ∧ (fromSession s order order').lastChar = none := by
    unfold fromSession
    split <;> exact ⟨rfl, rfl⟩
  rw [← restoreChunks_singleton u s order order']
  by_cases hpairs : (fromSession s order order').pairs = []
  · rw [restoreChunks_nil hpairs hfresh.1, hpairs, restored_of_none]
    · simp
    · intro n _
      rw [longestAt_eq_none]
      simp
  · have hsafe : ChunksSafe u (fromSession s order order').pairs none [t] := CutSafe.chunksSafe (by simpa using hcut)
    rw [restoreChunks_of_fresh (fun _ hp => patEndsToken_fromSession u h hp) hpairs hfresh.1 hfresh.2 hsafe]
    simp

/-- What the text and the session after its redaction have to be like. -/
structure Echoes (u : CharTables) (collected : List (Candidate text)) (orders : Nat → HashOrder) (order order' : HashOrder)
    (out : Text) (s : PiiSession) : Prop where
  /-- No person call rewrites the entry of another entity. -/
  calls : (PiiSession.new true).safeRun u
    (.seedExistingPlaceholders text :: loopCalls orders (nonOverlapping collected) 0) = true
  /-- There is text between two candidates. -/
  apart : Apart (nonOverlapping collected)
  /-- The search finds the pseudonyms. -/
  undisturbed : Undisturbed (s.restorationMapping order).keys s.placeholderOf 0 (nonOverlapping collected)
  cutSafe : CutSafe u (fromSession s order order').pairs none out

/-- The redacted text, sent back, is restored to the original text up to the case of persons. -/
theorem restoreText_redactText (u : CharTables) (hspace : ∀ c, isWhitespace c = true → u.isAlphanumeric c = false)
    (entities : List PiiEntity) (collected : List (Candidate text)) (orders : Nat → HashOrder) (order order' : HashOrder)
    (out : Text) (s : PiiSession) (hredact : redactText u entities collected orders (PiiSession.new true) = some (out, s))
    (hbounded : ∀ c ∈ nonOverlapping collected, c.Bounded)
    (habsent : ∀ key ∈ (s.restorationMapping order).keys, findIgnoreAsciiCase text key = none)
    (hechoes : Echoes u collected orders order order' out s) :
    EchoOf (nonOverlapping collected) (s.restoreText u order order' out) := by
  have hself : ∀ counts, s = { PiiSession.new true with counts := counts } → out = text →
      EchoOf (nonOverlapping collected) (s.restoreText u order order' out) := by
    rintro counts rfl rfl
    exact ⟨rfl, fun i h => absurd rfl h⟩
  obtain ⟨counts, hseed⟩ := seedExistingPlaceholders_eq (PiiSession.new true) text
  unfold redactText at hredact
  split at hredact
  · simp only [Option.some.injEq, Prod.mk.injEq] at hredact
    exact hself ∅ hredact.2.symm hredact.1.symm
  · dsimp only at hredact
    split at hredact
    · simp only [Option.some.injEq, Prod.mk.injEq] at hredact
      exact hself counts (hredact.2.symm.trans hseed) hredact.1.symm
    · obtain ⟨hout, -, hsome, hrev, registered, hrun⟩ := replaceLoop_spec ∅ hredact
      have hrun' : (PiiSession.new true).runFrom u ∅
          (.seedExistingPlaceholders text :: loopCalls orders (nonOverlapping collected) 0) = some (s, registered) := by
        simp only [runFrom, call, Option.bind_some]
        exact hrun
      have hinv := (new_inv true).runFrom hechoes.calls hrun'
      have hspelled : s.WellSpelled := (new_wellSpelled true).runFrom hrun'
      have hreversible : s.reversible = true := by
        rw [hrev, hseed]
        rfl
      have hpairs : ∀ {p v : Text}, (p, v) ∈ (fromSession s order order').pairs ↔
          (s.restorationMapping order).lookup p = some v := by
        intro p v
        unfold fromSession
        rw [if_pos hreversible, mem_new_pairs]
      -- the pseudonym of a candidate leads back to what it matched
      have hback : ∀ c ∈ nonOverlapping collected, ∃ r, s.reverse.lookup (s.placeholderOf c) = some r ∧
          (s.restorationMapping order).lookup (s.placeholderOf c) = some r ∧ lower r = lower c.matchedText ∧
          s.forward.lookup c.matchedText = some (s.placeholderOf c) := by
        intro c hc
        obtain ⟨ph, hph⟩ := Option.isSome_iff_exists.mp (hsome c hc)
        obtain ⟨r, hr, hlower⟩ := hinv.back _ _ hph
        have hof : s.placeholderOf c = ph := by rw [placeholderOf, hph, Option.getD_some]
        rw [hof]
        refine ⟨r, hr, ?_, hlower, hph⟩
        unfold PiiSession.restorationMapping
        rw [if_pos hreversible]
        dsimp only
        rw [AList.lookup_union_left (AList.lookup_isSome.mp (by rw [hr]; rfl))]
        exact hr
      let val : Candidate text → Text := fun c => ((s.restorationMapping order).lookup (s.placeholderOf c)).getD []
      have hrestored : s.restoreText u order order' out = substitute val 0 (nonOverlapping collected) := by
        rw [restoreText_eq_restored hspelled hechoes.cutSafe, hout, List.nil_append]
        apply restored_substitute hspace
        · rintro ⟨p, v⟩ hp rfl
          have := hspelled.restorationMapping (hpairs.mp hp)
          simp [endsInWord] at this
        · intro p v v' hv hv'
          have h1 := hpairs.mp hv
          rw [hpairs.mp hv', Option.some.injEq] at h1
          exact h1.symm
        · rintro ⟨p, v⟩ hp n hn
          exact findIgnoreAsciiCase_eq_none.mp (habsent p (AList.mem_keys.mp
            (AList.lookup_isSome.mp (by rw [hpairs.mp hp]; rfl)))) n hn
        · intro c hc
          obtain ⟨r, -, hr, -⟩ := hback c hc
          rw [hpairs, hr]
          simp only [val, hr, Option.getD_some]
        · exact hbounded
        · exact Nat.zero_le _
        · exact nonOverlapping_ordered collected
        · exact hechoes.apart
        · exact fun _ _ => Or.inr rfl
        · apply hechoes.undisturbed.mono
          intro key hkey
          obtain ⟨⟨p, v⟩, hp, rfl⟩ := List.mem_map.mp hkey
          exact AList.mem_keys.mp (AList.lookup_isSome.mp (by rw [hpairs.mp hp]; rfl))
      have hlower : ∀ c ∈ nonOverlapping collected, lower (val c) = lower c.matchedText := by
        intro c hc
        obtain ⟨r, -, hr, hl, -⟩ := hback c hc
        simp only [val, hr, Option.getD_some]
        exact hl
      obtain ⟨hall, hdiff⟩ := substitute_agrees (nonOverlapping_ordered collected) hlower
      rw [hrestored]
      refine ⟨by simpa using hall, ?_⟩
      intro i hi
      obtain ⟨c, hc, h1, h2, hne⟩ := hdiff i (by simpa using hi)
      refine ⟨c, hc, by omega, by omega, ?_⟩
      -- an original that is restored in other case is registered as a person
      obtain ⟨r, hr, hr', -, hf⟩ := hback c hc
      obtain ⟨e, he⟩ := Option.isSome_iff_exists.mp ((hinv.domain c.matchedText).trans (by rw [hf]; rfl))
      have hperson : e = .person := by
        by_contra hnot
        obtain ⟨hexact, -⟩ := hinv.exact _ _ _ he hnot hf
        apply hne
        simp only [val, hr', Option.getD_some]
        rw [hr, Option.some.injEq] at hexact
        exact hexact
      rcases runFrom_registered hrun he with hreg | ⟨o, hmem⟩
      · simp at hreg
      · obtain ⟨person, hp, hpe, hpm⟩ := mem_loopCalls hmem
        exact ⟨person, hp, hpe.trans hperson, hpm⟩

/-- A text with an address and with a person in two cases. -/
def personText : Text := "tell bob jones that Bob Jones is bob@example.com".toList

/-- Its candidates, of which one is a part of another. -/
def personCandidates : List (Candidate personText) :=
  [⟨33, 48, .email, by decide, by decide⟩, ⟨5, 14, .person, by decide, by decide⟩,
    ⟨20, 29, .person, by decide, by decide⟩, ⟨20, 23, .person, by decide, by decide⟩]

/-- The person is restored with capitals in both places. -/
theorem restoreText_redactText_person :
    ∃ out s, redactText .ascii [.email, .person] personCandidates (fun _ => .latestFirst) (PiiSession.new true) =
        some (out, s) ∧
      out = "tell Alex Vance that Alex Vance is alex.turner1@fastmail.com".toList ∧
      s.restoreText .ascii .latestFirst .latestFirst out = "tell Bob Jones that Bob Jones is bob@example.com".toList ∧
      EchoOf (nonOverlapping personCandidates) (s.restoreText .ascii .latestFirst .latestFirst out) := by
  have hread : (redactText .ascii [.email, .person] personCandidates (fun _ => .latestFirst) (PiiSession.new true)).map
      (fun r => (r.1, r.2.restoreText .ascii .latestFirst .latestFirst r.1,
        ((r.2.restorationMapping .latestFirst).keys.all fun key => findIgnoreAsciiCase personText key == none,
          decide (Undisturbed (r.2.restorationMapping .latestFirst).keys r.2.placeholderOf 0
            (nonOverlapping personCandidates)),
          decide (CutSafe .ascii (fromSession r.2 .latestFirst .latestFirst).pairs none r.1)))) =
      some ("tell Alex Vance that Alex Vance is alex.turner1@fastmail.com".toList,
        "tell Bob Jones that Bob Jones is bob@example.com".toList, (true, true, true)) := by decide +kernel
  simp only [Option.map_eq_some_iff, Prod.mk.injEq] at hread
  obtain ⟨⟨out, s⟩, hredact, hout, hrestored, habsent, hundisturbed, hcut⟩ := hread
  refine ⟨out, s, hredact, hout, hrestored, ?_⟩
  apply restoreText_redactText .ascii ?_ [.email, .person] personCandidates (fun _ => .latestFirst) .latestFirst
    .latestFirst out s hredact
  · decide +kernel
  · intro key hkey
    exact eq_of_beq (List.all_eq_true.mp habsent key hkey)
  · exact ⟨by decide +kernel, by decide +kernel, of_decide_eq_true hundisturbed, of_decide_eq_true hcut⟩
  · intro c hc
    exact ascii_of_isWhitespace hc

/-- A text with a password that is also a first name, and with the name. -/
def passwordText : Text := "password: miguel\nask Miguel".toList

def passwordCandidates : List (Candidate passwordText) :=
  [⟨10, 16, .secret, by decide, by decide⟩, ⟨21, 27, .person, by decide, by decide⟩]

/-- The name takes the entry of the password over: the password comes back with a capital. -/
theorem redactText_password :
    ∃ out s, redactText .ascii [.secret, .person] passwordCandidates (fun _ => .latestFirst) (PiiSession.new true) =
        some (out, s) ∧
      (∀ c ∈ nonOverlapping passwordCandidates, c.Bounded) ∧
      (∀ key ∈ (s.restorationMapping .latestFirst).keys, findIgnoreAsciiCase passwordText key = none) ∧
      out = "password: sec_073d82a2\nask sec_073d82a2".toList ∧
      s.restoreText .ascii .latestFirst .latestFirst out = "password: Miguel\nask Miguel".toList ∧
      ¬ EchoOf (nonOverlapping passwordCandidates) (s.restoreText .ascii .latestFirst .latestFirst out) := by
  have hread : (redactText .ascii [.secret, .person] passwordCandidates (fun _ => .latestFirst) (PiiSession.new true)).map
      (fun r => (r.1, r.2.restoreText .ascii .latestFirst .latestFirst r.1,
        (r.2.restorationMapping .latestFirst).keys.all fun key => findIgnoreAsciiCase passwordText key == none)) =
      some ("password: sec_073d82a2\nask sec_073d82a2".toList, "password: Miguel\nask Miguel".toList, true) := by
    decide +kernel
  simp only [Option.map_eq_some_iff, Prod.mk.injEq] at hread
  obtain ⟨⟨out, s⟩, hredact, hout, hrestored, habsent⟩ := hread
  refine ⟨out, s, hredact, by decide +kernel, ?_, hout, hrestored, ?_⟩
  · intro key hkey
    exact eq_of_beq (List.all_eq_true.mp habsent key hkey)
  · rw [hrestored]
    rintro ⟨-, hdiff⟩
    obtain ⟨c, hc, h1, h2, person, hp, hpe, hpm⟩ := hdiff 10 (by decide)
    revert c person
    decide +kernel

end OpenProxy.Pii
