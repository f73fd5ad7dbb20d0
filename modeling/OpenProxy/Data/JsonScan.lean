import OpenProxy.Data.JsonRaw

/-!
# Scanning a JSON text

A text that has tokens is made of pieces: spaces, punctuation, words, and strings in which every quote and every backslash
is escaped (`Lexed`).  The search for a name in quotes therefore ends behind a string of the text, which is the name or ends
with an escaped quote and the name (`afterQuoted_lexed`).
-/

namespace OpenProxy

/-! ### The pieces of a text -/

/-- A string as it is written between its quotes. -/
inductive IsBody : Text → Prop
  | nil : IsBody []
  | char {c : Char} {t : Text} (hquote : c ≠ '"') (hescape : c ≠ '\\') (h : IsBody t) : IsBody (c :: t)
  | escape (c : Char) {t : Text} (h : IsBody t) : IsBody ('\\' :: c :: t)

/-- A text taken apart into its tokens, with the strings as they are written. -/
inductive Lexed : Text → List Token → Prop
  | nil : Lexed [] []
  | space {c : Char} {t : Text} {ts : List Token} (hc : isJsonWhitespace c = true) (h : Lexed t ts) : Lexed (c :: t) ts
  | punctuation {c : Char} {token : Token} {t : Text} {ts : List Token} (hc : punctuation c = some token)
      (h : Lexed t ts) : Lexed (c :: t) (token :: ts)
  | string {raw t : Text} {ts : List Token} (hraw : IsBody raw) (h : Lexed t ts) :
      Lexed ('"' :: (raw ++ '"' :: t)) (.string raw :: ts)
  | word {w t : Text} {token : Token} {ts : List Token} (hne : w ≠ []) (hw : w.all isWordChar = true)
      (htoken : wordToken w = some token) (hend : ∀ c ∈ t.head?, isWordChar c = false) (h : Lexed t ts) :
      Lexed (w ++ t) (token :: ts)

/-- What has been read of a string. -/
def RawState.written : RawState → Text
  | .string raw | .escape raw | .unicode raw _ => raw
  | _ => []

/-- The rest of a string up to its closing quote. -/
def RawState.Completes : RawState → Text → Prop
  | .string _, raw | .unicode _ _, raw => IsBody raw
  | .escape _, raw => ∃ c raw', raw = c :: raw' ∧ IsBody raw'
  | _, _ => False

/-- The machine is in a string. -/
def RawState.inString : RawState → Bool
  | .string _ | .escape _ | .unicode _ _ => true
  | _ => false

theorem hexValue_isSome_ne {c : Char} (h : ¬ (hexValue c).isNone = true) : c ≠ '"' ∧ c ≠ '\\' := by
  constructor
  · rintro rfl
    exact h (by decide)
  · rintro rfl
    exact h (by decide)

/-- A character in a string either ends it or goes on with it. -/
theorem rawStep_inString {x y : RawState} {c : Char} {ts : List Token} (hx : x.inString = true)
    (h : rawStep x c = some (y, ts)) :
    (c = '"' ∧ y = .between ∧ ts = [.string x.written] ∧ x.Completes []) ∨
      (y.inString = true ∧ y.written = x.written ++ [c] ∧ ts = [] ∧ ∀ raw, y.Completes raw → x.Completes (c :: raw)) := by
  cases x with
  | between => cases hx
  | word w => cases hx
  | string raw =>
    simp only [rawStep] at h
    split_ifs at h with hquote hescape hcontrol
    · cases h
      exact .inl ⟨hquote, rfl, rfl, .nil⟩
    · cases h
      refine .inr ⟨rfl, rfl, rfl, ?_⟩
      rintro _ ⟨d, raw', rfl, hbody⟩
      rw [hescape]
      exact .escape d hbody
    · cases h
      exact .inr ⟨rfl, rfl, rfl, fun raw' hbody => .char hquote hescape hbody⟩
  | escape raw =>
    simp only [rawStep] at h
    split_ifs at h
    all_goals
      cases h
      exact .inr ⟨rfl, rfl, rfl, fun raw' hbody => ⟨c, raw', rfl, hbody⟩⟩
  | unicode raw n =>
    simp only [rawStep] at h
    split_ifs at h with hdigit hlast
    all_goals
      cases h
      have hne := hexValue_isSome_ne hdigit
      exact .inr ⟨rfl, rfl, rfl, fun raw' hbody => .char hne.1 hne.2 hbody⟩

/-- A string ends. -/
theorem exists_body {x : RawState} {t : Text} {ts : List Token} (hx : x.inString = true) (h : rawTokens x t = some ts) :
    ∃ raw rest us, t = raw ++ '"' :: rest ∧ x.Completes raw ∧ ts = .string (x.written ++ raw) :: us ∧
      rawTokens .between rest = some us := by
  induction t generalizing x ts with
  | nil =>
    cases x with
    | between | word w => cases hx
    | string raw | escape raw | unicode raw n => cases h
  | cons c t ih =>
    obtain ⟨⟨y, us⟩, hstep, hrest⟩ := Option.bind_eq_some_iff.mp h
    obtain ⟨vs, hvs, rfl⟩ := Option.map_eq_some_iff.mp hrest
    rcases rawStep_inString hx hstep with ⟨rfl, rfl, rfl, hnil⟩ | ⟨hy, hwritten, rfl, hcompletes⟩
    · refine ⟨[], t, vs, rfl, hnil, ?_, hvs⟩
      rw [List.append_nil]
      rfl
    · obtain ⟨raw, rest, us, rfl, hraw, rfl, hus⟩ := ih hy hvs
      refine ⟨c :: raw, rest, us, rfl, hcompletes raw hraw, ?_, hus⟩
      rw [hwritten, List.append_assoc]
      rfl

/-- A word ends. -/
theorem exists_word {w t : Text} {ts : List Token} (h : rawTokens (.word w) t = some ts) :
    ∃ w' rest token us, t = w' ++ rest ∧ w'.all isWordChar = true ∧ wordToken (w ++ w') = some token ∧
      (∀ c ∈ rest.head?, isWordChar c = false) ∧ ts = token :: us ∧ rawTokens .between rest = some us := by
  induction t generalizing w ts with
  | nil =>
    obtain ⟨token, htoken, rfl⟩ := Option.map_eq_some_iff.mp h
    exact ⟨[], [], token, [], rfl, rfl, by rwa [List.append_nil], by simp, rfl, rfl⟩
  | cons c t ih =>
    obtain ⟨⟨y, us⟩, hstep, hrest⟩ := Option.bind_eq_some_iff.mp h
    obtain ⟨vs, hvs, rfl⟩ := Option.map_eq_some_iff.mp hrest
    simp only [rawStep] at hstep
    split_ifs at hstep with hword
    · cases hstep
      obtain ⟨w', rest, token, us, rfl, hall, htoken, hend, heq, hus⟩ := ih hvs
      refine ⟨c :: w', rest, token, us, rfl, ?_, ?_, hend, heq, hus⟩
      · rw [List.all_cons, hword, hall]
        rfl
      · rw [← htoken, List.append_assoc]
        rfl
    · obtain ⟨token, htoken, hmap⟩ := Option.bind_eq_some_iff.mp hstep
      obtain ⟨⟨y', us'⟩, hbetween, heq⟩ := Option.map_eq_some_iff.mp hmap
      cases heq
      refine ⟨[], c :: t, token, us' ++ vs, rfl, rfl, by rwa [List.append_nil], ?_, rfl, ?_⟩
      · rintro d ⟨⟩
        exact Bool.eq_false_iff.mpr hword
      · show (rawBetween c).bind _ = _
        rw [hbetween, Option.bind_some, hvs, Option.map_some]

theorem lexed_of_rawTokens {t : Text} {ts : List Token} (h : rawTokens .between t = some ts) : Lexed t ts := by
  induction hlen : t.length using Nat.strong_induction_on generalizing t ts with
  | _ n ih =>
    subst hlen
    cases t with
    | nil =>
      cases h
      exact .nil
    | cons c t =>
      obtain ⟨⟨y, us⟩, hstep, hrest⟩ := Option.bind_eq_some_iff.mp h
      obtain ⟨vs, hvs, rfl⟩ := Option.map_eq_some_iff.mp hrest
      obtain ⟨⟨x, us'⟩, hlex, heq⟩ := Option.map_eq_some_iff.mp hstep
      cases heq
      unfold lexBetween at hlex
      cases hpunctuation : punctuation c with
      | some token =>
        simp only [hpunctuation, Option.some.injEq] at hlex
        cases hlex
        exact .punctuation hpunctuation (ih _ (Nat.lt_succ_self _) hvs rfl)
      | none =>
        simp only [hpunctuation] at hlex
        split_ifs at hlex with hspace hquote hword
        · cases hlex
          exact .space hspace (ih _ (Nat.lt_succ_self _) hvs rfl)
        · cases hlex
          obtain ⟨raw, rest, us, rfl, hraw, rfl, hus⟩ := exists_body rfl hvs
          subst hquote
          refine .string hraw (ih _ ?_ hus rfl)
          simp only [List.length_cons, List.length_append]
          omega
        · cases hlex
          obtain ⟨w', rest, token, us, rfl, hall, htoken, hend, rfl, hus⟩ := exists_word hvs
          refine .word (w := c :: w') (by simp) ?_ htoken hend (ih _ ?_ hus rfl)
          · rw [List.all_cons, hword, hall]
            rfl
          · simp only [List.length_cons, List.length_append]
            omega

theorem lexed_of_rawLex {t : Text} {ts : List Token} (h : rawLex t = some ts) : Lexed t ts := lexed_of_rawTokens h

/-- A word is all the word characters that a text begins with. -/
theorem takeWhile_word {w t : Text} (hw : w.all isWordChar = true) (hend : ∀ c ∈ t.head?, isWordChar c = false) :
    (w ++ t).takeWhile isWordChar = w := by
  rw [List.takeWhile_append_of_pos (fun c hc => List.all_eq_true.mp hw c hc)]
  cases t with
  | nil => exact List.append_nil w
  | cons c t => rw [List.takeWhile_cons_of_neg (by rw [hend c rfl]; simp), List.append_nil]

/-! ### The first token -/

/-- The text begins with the token, and the rest of it with what follows. -/
inductive Begins : Text → Token → Text → Prop
  | punctuation {c : Char} {token : Token} {rest : Text} (hc : punctuation c = some token) : Begins (c :: rest) token rest
  | string {raw rest : Text} (hraw : IsBody raw) : Begins ('"' :: (raw ++ '"' :: rest)) (.string raw) rest
  | word {w rest : Text} {token : Token} (hne : w ≠ []) (hw : w.all isWordChar = true) (htoken : wordToken w = some token)
      (hend : ∀ c ∈ rest.head?, isWordChar c = false) : Begins (w ++ rest) token rest

theorem isAsciiWhitespace_of_punctuation {c : Char} {token : Token} (h : punctuation c = some token) :
    isAsciiWhitespace c = false := by
  unfold punctuation at h
  repeat' split at h
  all_goals first | (rename_i hc; subst hc; decide) | cases h

theorem isAsciiWhitespace_of_isWordChar {c : Char} (h : isWordChar c = true) : isAsciiWhitespace c = false :=
  not_isAsciiWhitespace (not_isWhitespace_of_isWordChar h)

/-- Behind spaces there is the first token, if there is any. -/
theorem Lexed.first {t : Text} {ts : List Token} (h : Lexed t ts) :
    (ts = [] ∧ t.dropWhile isAsciiWhitespace = []) ∨
      ∃ token us rest, ts = token :: us ∧ Begins (t.dropWhile isAsciiWhitespace) token rest ∧ Lexed rest us := by
  induction h with
  | nil => exact .inl ⟨rfl, rfl⟩
  | space hc h ih =>
    rw [List.dropWhile_cons_of_pos (isAsciiWhitespace_of_isJsonWhitespace hc)]
    exact ih
  | punctuation hc h ih =>
    rw [List.dropWhile_cons_of_neg (by rw [isAsciiWhitespace_of_punctuation hc]; simp)]
    exact .inr ⟨_, _, _, rfl, .punctuation hc, h⟩
  | string hraw h ih =>
    rw [List.dropWhile_cons_of_neg (by decide)]
    exact .inr ⟨_, _, _, rfl, .string hraw, h⟩
  | @word w t token ts hne hw htoken hend h ih =>
    cases w with
    | nil => exact absurd rfl hne
    | cons c w =>
      have hc : isAsciiWhitespace c = false :=
        isAsciiWhitespace_of_isWordChar (List.all_eq_true.mp hw c List.mem_cons_self)
      rw [List.cons_append, List.dropWhile_cons_of_neg (by rw [hc]; simp), ← List.cons_append]
      exact .inr ⟨_, _, _, rfl, .word hne hw htoken hend, h⟩

/-- The character of a punctuation token. -/
def Token.character : Token → Char
  | .openBrace => '\x7b'
  | .closeBrace => '\x7d'
  | .openBracket => '['
  | .closeBracket => ']'
  | .comma => ','
  | .colon => ':'
  | _ => '"'

theorem character_of_punctuation {c : Char} {token : Token} (h : punctuation c = some token) : token.character = c := by
  unfold punctuation at h
  split_ifs at h with h₁ h₂ h₃ h₄ h₅ h₆
  · cases h
    exact h₁.symm
  · cases h
    exact h₂.symm
  · cases h
    exact h₃.symm
  · cases h
    exact h₄.symm
  · cases h
    exact h₅.symm
  · cases h
    exact h₆.symm

theorem Begins.ne_nil {t rest : Text} {token : Token} (h : Begins t token rest) : t ≠ [] := by
  cases h with
  | punctuation hc => exact List.cons_ne_nil _ _
  | string hraw => exact List.cons_ne_nil _ _
  | word hne hw htoken hend => exact List.append_ne_nil_of_left_ne_nil hne _

/-- A text that begins with a punctuation character begins with its token. -/
theorem Begins.of_head {c : Char} {t rest : Text} {token token' : Token} (hc : OpenProxy.punctuation c = some token)
    (h : Begins (c :: t) token' rest) : token' = token ∧ rest = t := by
  generalize ht : c :: t = text at h
  cases h with
  | punctuation hc' =>
    cases ht
    exact ⟨Option.some_inj.mp (hc'.symm.trans hc), rfl⟩
  | string hraw =>
    rw [(List.cons.inj ht).1] at hc
    exact absurd hc (by simp [OpenProxy.punctuation])
  | @word w _ _ hne hw htoken hend =>
    cases w with
    | nil => exact absurd rfl hne
    | cons d w =>
      have hword := List.all_eq_true.mp hw d List.mem_cons_self
      rw [← (List.cons.inj ht).1, isWordChar_of_punctuation hc] at hword
      cases hword

/-- A text that begins with the token of a punctuation character begins with the character. -/
theorem Begins.of_punctuation {c : Char} {t rest : Text} {token : Token} (hc : OpenProxy.punctuation c = some token)
    (h : Begins t token rest) : t = c :: rest := by
  cases h with
  | punctuation hc' => rw [← character_of_punctuation hc', character_of_punctuation hc]
  | string hraw =>
    unfold OpenProxy.punctuation at hc
    split_ifs at hc
    all_goals cases hc
  | word hne hw htoken hend =>
    have hword := wordToken_isWord htoken
    unfold OpenProxy.punctuation at hc
    split_ifs at hc
    all_goals
      cases hc
      cases hword

/-- A text that begins with a word begins with the token of all its word characters. -/
theorem Begins.of_takeWhile {t rest : Text} {token : Token} (h : Begins t token rest) {w : Text} (hne : w ≠ [])
    (hw : t.takeWhile isWordChar = w) : wordToken w = some token := by
  cases h with
  | punctuation hc =>
    rw [List.takeWhile_cons_of_neg (by rw [isWordChar_of_punctuation hc]; simp)] at hw
    exact absurd hw.symm hne
  | string hraw =>
    rw [List.takeWhile_cons_of_neg (by decide)] at hw
    exact absurd hw.symm hne
  | @word w' _ _ hne' hw' htoken hend =>
    rw [← hw, takeWhile_word hw' hend]
    exact htoken

/-! ### Names in quotes -/

def quotedName (n : Text) : Text := '"' :: (n ++ ['"'])

/-- What follows the first occurrence of a name in quotes. -/
def afterQuoted (n t : Text) : Option Text :=
  (find t (quotedName n)).map fun idx => t.drop (idx + (quotedName n).length)

/-- A name that is not the beginning of a JSON text. -/
structure IsName (n : Text) : Prop where
  plain : ∀ c ∈ n, c ≠ '"' ∧ c ≠ '\\'
  first : ∃ c ∈ n.head?, isWordChar c = true
  word : wordToken (n.takeWhile isWordChar) = none

theorem isName_of_checks {n : Text} (hplain : n.all (fun c => c != '"' && c != '\\') = true)
    (hfirst : n.head?.any isWordChar = true) (hword : (wordToken (n.takeWhile isWordChar)).isNone = true) : IsName n where
  plain := by
    intro c hc
    have hchar := List.all_eq_true.mp hplain c hc
    rwa [Bool.and_eq_true, bne_iff_ne, bne_iff_ne] at hchar
  first := by
    obtain ⟨c, hc, hchar⟩ := (Option.any_eq_true _ _).mp hfirst
    exact ⟨c, hc, hchar⟩
  word := Option.isNone_iff_eq_none.mp hword

/-- The string is the name or ends with an escaped quote and the name. -/
def Token.quotes (n : Text) : Token → Bool
  | .string raw => raw = n ∨ '"' :: n <:+ raw
  | _ => false

/-- What follows the first string that quotes the name. -/
def afterName (n : Text) : List Token → Option (List Token)
  | [] => none
  | token :: ts => if token.quotes n then some ts else afterName n ts

theorem afterQuoted_cons (n : Text) (c : Char) (t : Text) :
    afterQuoted n (c :: t) =
      if quotedName n <+: c :: t then some ((c :: t).drop (quotedName n).length) else afterQuoted n t := by
  unfold afterQuoted find
  rw [firstAt]
  simp only [List.isPrefixOf_iff_prefix]
  split
  · rw [Option.map_some, Nat.zero_add]
  · rw [Option.map_map]
    refine congrArg (Option.map · _) (funext fun idx => ?_)
    show (c :: t).drop (idx + 1 + _) = _
    rw [Nat.add_right_comm, List.drop_succ_cons]

theorem afterQuoted_skip {c : Char} (n t : Text) (hc : c ≠ '"') : afterQuoted n (c :: t) = afterQuoted n t := by
  rw [afterQuoted_cons, if_neg]
  intro hbegins
  exact hc (List.cons_prefix_cons.mp hbegins).1.symm

theorem afterQuoted_quote (n t : Text) :
    afterQuoted n ('"' :: t) = if n ++ ['"'] <+: t then some (t.drop (n.length + 1)) else afterQuoted n t := by
  rw [afterQuoted_cons]
  have hbegins : quotedName n <+: '"' :: t ↔ n ++ ['"'] <+: t :=
    List.cons_prefix_cons.trans (and_iff_right rfl)
  have hlength : (quotedName n).length = n.length + 1 + 1 := by
    rw [quotedName, List.length_cons, List.length_append]
    rfl
  simp only [hbegins, hlength, List.drop_succ_cons]

theorem afterQuoted_skip_all {w : Text} (n t : Text) (hw : ∀ c ∈ w, c ≠ '"') : afterQuoted n (w ++ t) = afterQuoted n t := by
  induction w with
  | nil => rfl
  | cons c w ih =>
    rw [List.cons_append, afterQuoted_skip n _ (hw c List.mem_cons_self)]
    exact ih fun d hd => hw d (List.mem_cons_of_mem _ hd)

section

variable {n : Text} (hplain : ∀ c ∈ n, c ≠ '"' ∧ c ≠ '\\')
include hplain

/-- A name and a quote begin a string only if the string is the name. -/
theorem prefix_body {raw : Text} (hraw : IsBody raw) (t : Text) : n ++ ['"'] <+: raw ++ '"' :: t ↔ raw = n := by
  constructor
  · intro h
    induction n generalizing raw with
    | nil =>
      cases hraw with
      | nil => rfl
      | char hquote hescape hbody => exact absurd (List.cons_prefix_cons.mp h).1.symm hquote
      | escape c hbody => exact absurd (List.cons_prefix_cons.mp h).1 (by decide)
    | cons d n ih =>
      obtain ⟨hd, hn⟩ := List.forall_mem_cons.mp hplain
      cases hraw with
      | nil => exact absurd (List.cons_prefix_cons.mp h).1 hd.1
      | char hquote hescape hbody =>
        obtain ⟨rfl, hrest⟩ := List.cons_prefix_cons.mp h
        rw [ih hn hbody hrest]
      | escape c hbody => exact absurd (List.cons_prefix_cons.mp h).1 hd.2
  · rintro rfl
    exact ⟨t, by rw [List.append_assoc]; rfl⟩

omit hplain in
theorem drop_body (t : Text) : (n ++ '"' :: t).drop (n.length + 1) = t := by
  rw [List.drop_append, List.drop_eq_nil_of_le (Nat.le_succ _), Nat.add_sub_cancel_left]
  rfl

/-- The search in a string: an occurrence ends where the string does. -/
theorem afterQuoted_body {raw : Text} (hraw : IsBody raw) (t : Text) :
    afterQuoted n (raw ++ '"' :: t) = if '"' :: n <:+ raw then some t else afterQuoted n ('"' :: t) := by
  induction hraw with
  | nil => rw [if_neg (by simp), List.nil_append]
  | @char c raw hquote hescape hbody ih =>
    have hsuffix : '"' :: n <:+ c :: raw ↔ '"' :: n <:+ raw := by
      rw [List.suffix_cons_iff]
      exact or_iff_right fun heq => hquote (List.cons.inj heq).1.symm
    rw [List.cons_append, afterQuoted_skip n _ hquote, ih]
    simp only [hsuffix]
  | @escape c raw hbody ih =>
    rw [List.cons_append, List.cons_append, afterQuoted_skip n _ (by decide)]
    have hsuffix : '"' :: n <:+ '\\' :: c :: raw ↔ '"' :: n = c :: raw ∨ '"' :: n <:+ raw := by
      rw [List.suffix_cons_iff, List.suffix_cons_iff]
      exact or_iff_right fun heq => absurd (List.cons.inj heq).1 (by decide)
    by_cases hc : c = '"'
    · subst hc
      have hhere : '"' :: n = '"' :: raw ↔ raw = n := by
        rw [List.cons.injEq, eq_comm (a := n)]
        exact and_iff_right rfl
      rw [afterQuoted_quote]
      simp only [hsuffix, prefix_body hplain hbody, hhere]
      by_cases hraw : raw = n
      · rw [if_pos hraw, if_pos (.inl hraw), hraw, drop_body]
      · rw [if_neg hraw, ih]
        simp only [hraw, false_or]
    · rw [afterQuoted_skip n _ hc, ih]
      have hthere : '"' :: n ≠ c :: raw := fun heq => hc (List.cons.inj heq).1.symm
      simp only [hsuffix, hthere, false_or]

end

theorem isWordChar_quote : isWordChar '"' = false := by decide

/-- No token begins with a name. -/
theorem Lexed.not_begins {n t : Text} {ts : List Token} (hname : IsName n) (h : Lexed t ts) : ¬ n ++ ['"'] <+: t := by
  intro hbegins
  obtain ⟨rest, hrest⟩ := hbegins
  obtain ⟨d, hd, hdword⟩ := hname.first
  obtain ⟨n', rfl⟩ : ∃ n', n = d :: n' := by
    cases n with
    | nil => cases hd
    | cons e n' =>
      cases hd
      exact ⟨n', rfl⟩
  cases h with
  | nil => cases hrest
  | space hc h =>
    cases hrest
    exact absurd (isAsciiWhitespace_of_isJsonWhitespace hc) (by rw [isAsciiWhitespace_of_isWordChar hdword]; simp)
  | punctuation hc h =>
    cases hrest
    exact absurd hdword (by rw [isWordChar_of_punctuation hc]; simp)
  | string hraw h =>
    have hquote := (List.cons.inj hrest).1
    rw [hquote, isWordChar_quote] at hdword
    cases hdword
  | @word w t token ts hne hw htoken hend h =>
    have hright : (w ++ t).takeWhile isWordChar = (d :: n').takeWhile isWordChar := by
      rw [← hrest, List.append_assoc, List.takeWhile_append]
      split
      · rename_i hall
        rw [(List.takeWhile_prefix _).eq_of_length hall, List.singleton_append,
          List.takeWhile_cons_of_neg (by rw [isWordChar_quote]; simp), List.append_nil]
      · rfl
    have hnone := hname.word
    rw [← hright, takeWhile_word hw hend, htoken] at hnone
    cases hnone

theorem quotes_of_punctuation {c : Char} {token : Token} (n : Text) (h : punctuation c = some token) :
    token.quotes n = false := by
  unfold punctuation at h
  split_ifs at h
  all_goals
    cases h
    rfl

theorem quotes_of_isWord {token : Token} (n : Text) (h : token.isWord = true) : token.quotes n = false := by
  cases token with
  | string raw => cases h
  | _ => rfl

theorem afterName_cons_of_not {n : Text} {token : Token} (ts : List Token) (h : token.quotes n = false) :
    afterName n (token :: ts) = afterName n ts := by
  rw [afterName, h]
  rfl

/-- What follows a string of the text. -/
theorem exists_afterName {n : Text} {ts us : List Token} (h : afterName n ts = some us) :
    ∃ before raw, ts = before ++ .string raw :: us := by
  induction ts with
  | nil => cases h
  | cons token ts ih =>
    rw [afterName] at h
    split at h
    · rename_i hquotes
      cases h
      cases token with
      | string raw => exact ⟨[], raw, rfl⟩
      | _ => cases hquotes
    · obtain ⟨before, raw, rfl⟩ := ih h
      exact ⟨token :: before, raw, rfl⟩

/-- The search for a name in a text finds the first string that quotes it. -/
theorem afterQuoted_lexed {n t : Text} {ts : List Token} (hname : IsName n) (h : Lexed t ts) :
    Option.Rel Lexed (afterQuoted n t) (afterName n ts) := by
  induction h with
  | nil => exact .none
  | space hc h ih =>
    rw [afterQuoted_skip n _ (by rintro rfl; revert hc; decide)]
    exact ih
  | punctuation hc h ih =>
    rw [afterQuoted_skip n _ (by rintro rfl; revert hc; simp [OpenProxy.punctuation]),
      afterName_cons_of_not _ (quotes_of_punctuation n hc)]
    exact ih
  | @string raw t ts hraw h ih =>
    -- behind the closing quote there is no name
    have hclosing : afterQuoted n ('"' :: t) = afterQuoted n t := by
      rw [afterQuoted_quote, if_neg (h.not_begins hname)]
    rw [afterQuoted_quote, afterName]
    simp only [prefix_body hname.plain hraw, Token.quotes, decide_eq_true_eq]
    by_cases heq : raw = n
    · rw [if_pos heq, if_pos (.inl heq), heq, drop_body]
      exact .some h
    · rw [if_neg heq, afterQuoted_body hname.plain hraw, hclosing]
      simp only [heq, false_or]
      split
      · exact .some h
      · exact ih
  | @word w t token ts hne hw htoken hend h ih =>
    have hquote : ∀ c ∈ w, c ≠ '"' := by
      rintro c hc rfl
      have hword := List.all_eq_true.mp hw _ hc
      rw [isWordChar_quote] at hword
      cases hword
    rw [afterQuoted_skip_all n t hquote, afterName_cons_of_not _ (quotes_of_isWord n (wordToken_isWord htoken))]
    exact ih

end OpenProxy
