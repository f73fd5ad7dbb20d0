import OpenProxy.Data.JsonText

/-!
# JSON texts as they are written

A reader that checks a text without decoding its strings accepts more texts than one that does: it does not look at the
numbers behind `\u`.  Its tokens have the strings as they are written (`rawLex`), and decoding these strings gives the
tokens of the text (`lex_eq_rawLex`).
-/

namespace OpenProxy

/-- Where the machine stands between two characters.  `raw` is what has been read of a string. -/
inductive RawState
  | between
  | word (w : Text)
  | string (raw : Text)
  /-- After a backslash. -/
  | escape (raw : Text)
  /-- After `\u` and `n` digits. -/
  | unicode (raw : Text) (n : Nat)
  deriving DecidableEq

/-- The state in which a token begins. -/
def RawState.ofLex : LexState → RawState
  | .between => .between
  | .word w => .word w
  | _ => .string []

/-- A character between two tokens. -/
def rawBetween (c : Char) : Option (RawState × List Token) :=
  (lexBetween c).map fun next => (.ofLex next.1, next.2)

/-- `ignore_escape`: the character after a backslash. -/
def isEscape (c : Char) : Bool := ['"', '\\', '/', 'b', 'f', 'n', 'r', 't'].contains c

/-- One character. -/
def rawStep : RawState → Char → Option (RawState × List Token)
  | .between, c => rawBetween c
  | .word w, c =>
    if isWordChar c then some (.word (w ++ [c]), [])
    else (wordToken w).bind fun token => (rawBetween c).map fun next => (next.1, token :: next.2)
  | .string raw, c =>
    if c = '"' then some (.between, [.string raw])
    else if c = '\\' then some (.escape (raw ++ [c]), [])
    else if c.toNat < 0x20 then none
    else some (.string (raw ++ [c]), [])
  | .escape raw, c =>
    if c = 'u' then some (.unicode (raw ++ [c]) 0, [])
    else if isEscape c then some (.string (raw ++ [c]), [])
    else none
  | .unicode raw n, c =>
    if (hexValue c).isNone then none
    else if n = 3 then some (.string (raw ++ [c]), [])
    else some (.unicode (raw ++ [c]) (n + 1), [])

/-- What the end of the text completes. -/
def rawEnd : RawState → Option (List Token)
  | .between => some []
  | .word w => (wordToken w).map fun token => [token]
  | _ => none

/-- The tokens of the rest of a text. -/
def rawTokens : RawState → Text → Option (List Token)
  | x, [] => rawEnd x
  | x, c :: t => (rawStep x c).bind fun next => (rawTokens next.1 t).map (next.2 ++ ·)

/-- The tokens of a text, with the strings as they are written. -/
def rawLex (t : Text) : Option (List Token) := rawTokens .between t

/-- The document that a text holds, with the strings as they are written.  `serde_json::from_str::<&RawValue>` accepts
the texts that hold one. -/
def readRaw (t : Text) : Option Json := (rawLex t).bind readTokens

/-! ### Decoding the strings -/

/-- The string that is written as `raw`. -/
def decodeString (raw : Text) : Option Text :=
  match lexFrom (.string []) raw with
  | some (.string s, []) => some s
  | _ => none

def decodeToken : Token → Option Token
  | .string raw => (decodeString raw).map .string
  | token => some token

def decodeTokens (ts : List Token) : Option (List Token) := ts.mapM decodeToken

@[simp] theorem decodeTokens_nil : decodeTokens [] = some [] := rfl

theorem decodeTokens_cons (token : Token) (ts : List Token) :
    decodeTokens (token :: ts) =
      (decodeToken token).bind fun token' => (decodeTokens ts).map fun ts' => token' :: ts' := by
  simp only [decodeTokens, List.mapM_cons, Option.bind_eq_bind, Option.pure_def]
  cases decodeToken token with
  | none => rfl
  | some token' => cases List.mapM decodeToken ts <;> rfl

theorem decodeTokens_append (ts us : List Token) :
    decodeTokens (ts ++ us) =
      (decodeTokens ts).bind fun ts' => (decodeTokens us).map fun us' => ts' ++ us' := by
  induction ts with
  | nil =>
    simp only [List.nil_append, decodeTokens_nil, Option.bind_some]
    cases decodeTokens us <;> rfl
  | cons token ts ih =>
    rw [List.cons_append, decodeTokens_cons, decodeTokens_cons, ih]
    cases decodeToken token with
    | none => rfl
    | some token' =>
      cases decodeTokens ts with
      | none => rfl
      | some ts' => cases decodeTokens us <;> rfl

/-- The tokens of the rest of a text, with the strings decoded. -/
def lexTokens : LexState → Text → Option (List Token)
  | y, [] => lexEnd y
  | y, c :: t => (lexStep y c).bind fun next => (lexTokens next.1 t).map (next.2 ++ ·)

theorem lexTokens_eq (y : LexState) (t : Text) :
    lexTokens y t = (lexFrom y t).bind fun last => (lexEnd last.1).map fun tokens => last.2 ++ tokens := by
  induction t generalizing y with
  | nil =>
    simp only [lexTokens, lexFrom, Option.bind_some]
    cases lexEnd y <;> rfl
  | cons c t ih =>
    simp only [lexTokens, lexFrom]
    cases lexStep y c with
    | none => rfl
    | some next =>
      simp only [Option.bind_some, ih]
      cases lexFrom next.1 t with
      | none => rfl
      | some last =>
        simp only [Option.bind_some, Option.map_some]
        cases lexEnd last.1 with
        | none => rfl
        | some ts => simp

/-- The state that the decoding machine has after what has been read of a string. -/
def Inside (raw : Text) (y : LexState) : Prop := lexFrom (.string []) raw = some (y, [])

/-- The decoding machine stands where the other one does. -/
inductive Decodes : RawState → LexState → Prop
  | between : Decodes .between .between
  | word (w : Text) : Decodes (.word w) (.word w)
  | string {raw s : Text} (h : Inside raw (.string s)) : Decodes (.string raw) (.string s)
  | surrogate {raw s : Text} {high : Nat} (h : Inside raw (.surrogate s high)) : Decodes (.string raw) (.surrogate s high)
  | escape {raw s : Text} (h : Inside raw (.escape s)) : Decodes (.escape raw) (.escape s)
  | surrogateEscape {raw s : Text} {high : Nat} (h : Inside raw (.surrogateEscape s high)) :
      Decodes (.escape raw) (.surrogateEscape s high)
  | unicode {raw s : Text} {hex : List Nat} (h : Inside raw (.unicode s hex)) :
      Decodes (.unicode raw hex.length) (.unicode s hex)
  | low {raw s : Text} {high : Nat} {hex : List Nat} (h : Inside raw (.low s high hex)) :
      Decodes (.unicode raw hex.length) (.low s high hex)

/-- What has been read of a string cannot be decoded. -/
def Undecodable : RawState → Prop
  | .string raw | .escape raw | .unicode raw _ => lexFrom (.string []) raw = none
  | _ => False

theorem Inside.snoc {raw : Text} {y y' : LexState} {c : Char} (h : Inside raw y) (hc : lexStep y c = some (y', [])) :
    Inside (raw ++ [c]) y' := by
  have hlast : lexFrom y [c] = some (y', []) := by simp [lexFrom, hc]
  simpa [Inside] using lexFrom_trans h hlast

theorem Inside.undecodable {raw : Text} {y : LexState} {c : Char} (h : Inside raw y) (hc : lexStep y c = none) :
    lexFrom (.string []) (raw ++ [c]) = none := by
  simp [lexFrom_append, show lexFrom _ _ = _ from h, lexFrom, hc]

theorem undecodable_snoc {raw : Text} (c : Char) (h : lexFrom (.string []) raw = none) :
    lexFrom (.string []) (raw ++ [c]) = none := by
  simp [lexFrom_append, h]

/-- What the two machines do with one character. -/
def StepsAgree : Option (RawState × List Token) → Option (LexState × List Token) → Prop
  | none, none => True
  | some (x, ts), some (y, us) => Decodes x y ∧ decodeTokens ts = some us
  | some (x, ts), none => Undecodable x ∨ decodeTokens ts = none
  | none, some _ => False

theorem punctuation_decodes {c : Char} {token : Token} (h : punctuation c = some token) :
    decodeToken token = some token := by
  unfold punctuation at h
  split_ifs at h <;> (cases h; rfl)

theorem wordToken_decodes {w : Text} {token : Token} (h : wordToken w = some token) : decodeToken token = some token := by
  unfold wordToken at h
  split_ifs at h <;> (cases h; rfl)

theorem stepsAgree_between (c : Char) : StepsAgree (rawBetween c) (lexBetween c) := by
  unfold rawBetween lexBetween
  split
  · rename_i token htoken
    refine ⟨Decodes.between, ?_⟩
    simp [decodeTokens_cons, punctuation_decodes htoken]
  · split_ifs with hspace hquote hword
    · exact ⟨Decodes.between, rfl⟩
    · exact ⟨Decodes.string rfl, rfl⟩
    · exact ⟨Decodes.word [c], rfl⟩
    · trivial

theorem stepsAgree_word (w : Text) (c : Char) : StepsAgree (rawStep (.word w) c) (lexStep (.word w) c) := by
  simp only [rawStep, lexStep]
  split_ifs with hword
  · exact ⟨Decodes.word _, rfl⟩
  · cases htoken : wordToken w with
    | none => trivial
    | some token =>
      have hbetween := stepsAgree_between c
      simp only [Option.bind_some]
      cases hraw : rawBetween c with
      | none =>
        rw [hraw] at hbetween
        cases hlex : lexBetween c with
        | none => trivial
        | some next => simp [hlex, StepsAgree] at hbetween
      | some next =>
        rw [hraw] at hbetween
        cases hlex : lexBetween c with
        | none => simp [rawBetween, hlex] at hraw
        | some next' =>
          rw [hlex] at hbetween
          obtain ⟨hnext, htokens⟩ := hbetween
          refine ⟨hnext, ?_⟩
          simp [decodeTokens_cons, wordToken_decodes htoken, htokens]

/-- A character after which the string goes on, and at which the decoding machine may stop. -/
theorem stepsAgree_inside {raw : Text} {c : Char} {x' : RawState} {y : LexState} (h : Inside raw y)
    (hx' : lexFrom (.string []) (raw ++ [c]) = none → Undecodable x')
    (hstep : lexStep y c = none ∨ ∃ y', lexStep y c = some (y', []) ∧ (Inside (raw ++ [c]) y' → Decodes x' y')) :
    StepsAgree (some (x', [])) (lexStep y c) := by
  rcases hstep with hnone | ⟨y', hy', hdecodes⟩
  · rw [hnone]
    exact Or.inl (hx' (h.undecodable hnone))
  · rw [hy']
    exact ⟨hdecodes (h.snoc hy'), rfl⟩

theorem stepsAgree_string {raw s : Text} (h : Inside raw (.string s)) (c : Char) :
    StepsAgree (rawStep (.string raw) c) (lexStep (.string s) c) := by
  by_cases hquote : c = '"'
  · simp only [rawStep, lexStep, if_pos hquote]
    refine ⟨Decodes.between, ?_⟩
    simp [decodeTokens_cons, decodeToken, decodeString, show lexFrom _ raw = _ from h]
  · by_cases hescape : c = '\\'
    · subst hescape
      exact stepsAgree_inside h id (Or.inr ⟨.escape s, rfl, Decodes.escape⟩)
    · by_cases hcontrol : c.toNat < 0x20
      · simp [rawStep, lexStep, hquote, hescape, hcontrol, StepsAgree]
      · have hraw : rawStep (.string raw) c = some (.string (raw ++ [c]), []) := by
          simp [rawStep, hquote, hescape, hcontrol]
        have hlex : lexStep (.string s) c = some (.string (s ++ [c]), []) := by
          simp [lexStep, hquote, hescape, hcontrol]
        rw [hraw]
        exact stepsAgree_inside h id (Or.inr ⟨_, hlex, Decodes.string⟩)

theorem stepsAgree_surrogate {raw s : Text} {high : Nat} (h : Inside raw (.surrogate s high)) (c : Char) :
    StepsAgree (rawStep (.string raw) c) (lexStep (.surrogate s high) c) := by
  by_cases hescape : c = '\\'
  · subst hescape
    exact stepsAgree_inside h id (Or.inr ⟨.surrogateEscape s high, rfl, Decodes.surrogateEscape⟩)
  · have hlex : lexStep (.surrogate s high) c = none := by simp [lexStep, hescape]
    by_cases hquote : c = '"'
    · -- the string ends, but half a pair is missing
      simp only [rawStep, if_pos hquote, hlex]
      refine Or.inr ?_
      simp [decodeTokens_cons, decodeToken, decodeString, show lexFrom _ raw = _ from h]
    · by_cases hcontrol : c.toNat < 0x20
      · simp [rawStep, hlex, hquote, hescape, hcontrol, StepsAgree]
      · have hraw : rawStep (.string raw) c = some (.string (raw ++ [c]), []) := by
          simp [rawStep, hquote, hescape, hcontrol]
        rw [hraw]
        exact stepsAgree_inside h id (Or.inl hlex)

/-- The decoding machine accepts the same characters after a backslash. -/
theorem afterEscape_cases (s : Text) (c : Char) :
    (c = 'u' ∧ afterEscape s c = some (.unicode s [])) ∨
      (c ≠ 'u' ∧ isEscape c = true ∧ ∃ d, afterEscape s c = some (.string (s ++ [d]))) ∨
      (c ≠ 'u' ∧ isEscape c = false ∧ afterEscape s c = none) := by
  unfold afterEscape
  split_ifs with h1 h2 h3 h4 h5 h6 h7
  · rcases h1 with rfl | rfl | rfl <;> exact Or.inr (Or.inl ⟨by decide, by decide, _, rfl⟩)
  · subst h2; exact Or.inr (Or.inl ⟨by decide, by decide, _, rfl⟩)
  · subst h3; exact Or.inr (Or.inl ⟨by decide, by decide, _, rfl⟩)
  · subst h4; exact Or.inr (Or.inl ⟨by decide, by decide, _, rfl⟩)
  · subst h5; exact Or.inr (Or.inl ⟨by decide, by decide, _, rfl⟩)
  · subst h6; exact Or.inr (Or.inl ⟨by decide, by decide, _, rfl⟩)
  · exact Or.inl ⟨h7, rfl⟩
  · refine Or.inr (Or.inr ⟨h7, ?_, rfl⟩)
    simp only [not_or] at h1
    simp [isEscape, h1, h2, h3, h4, h5, h6]

theorem stepsAgree_escape {raw s : Text} (h : Inside raw (.escape s)) (c : Char) :
    StepsAgree (rawStep (.escape raw) c) (lexStep (.escape s) c) := by
  rcases afterEscape_cases s c with ⟨rfl, hafter⟩ | ⟨hu, hescape, d, hafter⟩ | ⟨hu, hescape, hafter⟩
  · exact stepsAgree_inside h id (Or.inr ⟨.unicode s [], rfl, Decodes.unicode⟩)
  · have hraw : rawStep (.escape raw) c = some (.string (raw ++ [c]), []) := by simp [rawStep, hu, hescape]
    rw [hraw]
    exact stepsAgree_inside h id (Or.inr ⟨.string (s ++ [d]), by simp [lexStep, hafter], Decodes.string⟩)
  · simp [rawStep, lexStep, hu, hescape, hafter, StepsAgree]

theorem stepsAgree_surrogateEscape {raw s : Text} {high : Nat} (h : Inside raw (.surrogateEscape s high)) (c : Char) :
    StepsAgree (rawStep (.escape raw) c) (lexStep (.surrogateEscape s high) c) := by
  by_cases hu : c = 'u'
  · subst hu
    exact stepsAgree_inside h id (Or.inr ⟨.low s high [], rfl, Decodes.low⟩)
  · have hlex : lexStep (.surrogateEscape s high) c = none := by simp [lexStep, hu]
    cases hescape : isEscape c with
    | true =>
      have hraw : rawStep (.escape raw) c = some (.string (raw ++ [c]), []) := by simp [rawStep, hu, hescape]
      rw [hraw]
      exact stepsAgree_inside h id (Or.inl hlex)
    | false => simp [rawStep, hlex, hu, hescape, StepsAgree]

/-- The digits behind `\u`, in a string of its own or in the second half of a pair. -/
theorem stepsAgree_digits {raw : Text} {hex : List Nat} {y : LexState} {more : List Nat → LexState}
    {next : Nat → Option LexState} (h : Inside raw y) (c : Char)
    (hlex : ∀ c, lexStep y c = (withDigit hex c more next).map fun next => (next, []))
    (hmore : ∀ d, Inside (raw ++ [c]) (more (hex ++ [d])) →
      Decodes (.unicode (raw ++ [c]) (hex.length + 1)) (more (hex ++ [d])))
    (hnext : ∀ n y', next n = some y' → Inside (raw ++ [c]) y' → Decodes (.string (raw ++ [c])) y') :
    StepsAgree (rawStep (.unicode raw hex.length) c) (lexStep y c) := by
  cases hdigit : hexValue c with
  | none => simp [rawStep, hlex, withDigit, hdigit, StepsAgree]
  | some d =>
    by_cases hlast : hex.length = 3
    · have hraw : rawStep (.unicode raw hex.length) c = some (.string (raw ++ [c]), []) := by
        simp [rawStep, hdigit, hlast]
      rw [hraw]
      refine stepsAgree_inside h id ?_
      cases hafter : next (ofHex (hex ++ [d])) with
      | none => exact Or.inl (by simp [hlex, withDigit, hdigit, hlast, hafter])
      | some y' =>
        exact Or.inr ⟨y', by simp [hlex, withDigit, hdigit, hlast, hafter], hnext _ y' hafter⟩
    · have hraw : rawStep (.unicode raw hex.length) c = some (.unicode (raw ++ [c]) (hex.length + 1), []) := by
        simp [rawStep, hdigit, hlast]
      rw [hraw]
      exact stepsAgree_inside h id (Or.inr ⟨_, by simp [hlex, withDigit, hdigit, hlast], hmore d⟩)

theorem stepsAgree_unicode {raw s : Text} {hex : List Nat} (h : Inside raw (.unicode s hex)) (c : Char) :
    StepsAgree (rawStep (.unicode raw hex.length) c) (lexStep (.unicode s hex) c) := by
  refine stepsAgree_digits h c (fun c => rfl) ?_ ?_
  · intro d hinside
    simpa using Decodes.unicode hinside
  · intro n y' hafter hinside
    unfold afterUnicode at hafter
    split_ifs at hafter with h1 h2
    · cases hafter
      exact Decodes.surrogate hinside
    · cases hafter
      exact Decodes.string hinside

theorem stepsAgree_low {raw s : Text} {high : Nat} {hex : List Nat} (h : Inside raw (.low s high hex)) (c : Char) :
    StepsAgree (rawStep (.unicode raw hex.length) c) (lexStep (.low s high hex) c) := by
  refine stepsAgree_digits h c (fun c => rfl) ?_ ?_
  · intro d hinside
    simpa using Decodes.low hinside
  · intro n y' hafter hinside
    unfold afterLow at hafter
    split_ifs at hafter
    cases hafter
    exact Decodes.string hinside

/-- One character is read by both machines, or the decoding one stops. -/
theorem Decodes.step {x : RawState} {y : LexState} (h : Decodes x y) (c : Char) :
    StepsAgree (rawStep x c) (lexStep y c) := by
  cases h with
  | between => exact stepsAgree_between c
  | word w => exact stepsAgree_word w c
  | string h => exact stepsAgree_string h c
  | surrogate h => exact stepsAgree_surrogate h c
  | escape h => exact stepsAgree_escape h c
  | surrogateEscape h => exact stepsAgree_surrogateEscape h c
  | unicode h => exact stepsAgree_unicode h c
  | low h => exact stepsAgree_low h c

/-- A string that cannot be decoded stays so until it ends. -/
theorem Undecodable.step {x x' : RawState} {c : Char} {ts : List Token} (h : Undecodable x)
    (hstep : rawStep x c = some (x', ts)) : Undecodable x' ∨ decodeTokens ts = none := by
  cases x with
  | between | word w => cases h
  | string raw =>
    simp only [rawStep] at hstep
    split_ifs at hstep with hquote hescape hcontrol
    · cases hstep
      refine Or.inr ?_
      simp [decodeTokens_cons, decodeToken, decodeString, show lexFrom _ raw = _ from h]
    · cases hstep
      exact Or.inl (undecodable_snoc c h)
    · cases hstep
      exact Or.inl (undecodable_snoc c h)
  | escape raw =>
    simp only [rawStep] at hstep
    split_ifs at hstep
    all_goals
      cases hstep
      exact Or.inl (undecodable_snoc c h)
  | unicode raw n =>
    simp only [rawStep] at hstep
    split_ifs at hstep
    all_goals
      cases hstep
      exact Or.inl (undecodable_snoc c h)

theorem Undecodable.rawTokens {x : RawState} (h : Undecodable x) (t : Text) :
    (rawTokens x t).bind decodeTokens = none := by
  induction t generalizing x with
  | nil =>
    cases x with
    | between | word w => cases h
    | string raw | escape raw | unicode raw n => rfl
  | cons c t ih =>
    rw [OpenProxy.rawTokens]
    cases hstep : rawStep x c with
    | none => rfl
    | some next =>
      obtain ⟨x', ts⟩ := next
      rw [Option.bind_some]
      cases hrest : OpenProxy.rawTokens x' t with
      | none => rfl
      | some us =>
        rw [Option.map_some, Option.bind_some, decodeTokens_append]
        rcases h.step hstep with h' | hts
        · have hus := ih h'
          rw [hrest, Option.bind_some] at hus
          cases decodeTokens ts <;> simp [hus]
        · simp [hts]

/-- The tokens of the rest of a text are those of the other machine with their strings decoded. -/
theorem Decodes.lexTokens {x : RawState} {y : LexState} (h : Decodes x y) (t : Text) :
    lexTokens y t = (rawTokens x t).bind decodeTokens := by
  induction t generalizing x y with
  | nil =>
    cases h with
    | word w =>
      simp only [OpenProxy.lexTokens, OpenProxy.rawTokens, lexEnd, rawEnd]
      cases hw : wordToken w with
      | none => rfl
      | some token => simp [decodeTokens_cons, wordToken_decodes hw]
    | _ => rfl
  | cons c t ih =>
    have hagree := h.step c
    simp only [OpenProxy.lexTokens, OpenProxy.rawTokens]
    cases hraw : rawStep x c with
    | none =>
      rw [hraw] at hagree
      cases hlex : lexStep y c with
      | none => rfl
      | some next => simp [hlex, StepsAgree] at hagree
    | some next =>
      obtain ⟨x', ts⟩ := next
      rw [hraw] at hagree
      cases hlex : lexStep y c with
      | none =>
        rw [hlex] at hagree
        simp only [Option.bind_none, Option.bind_some]
        cases hrest : OpenProxy.rawTokens x' t with
        | none => rfl
        | some us =>
          rw [Option.map_some, Option.bind_some, decodeTokens_append]
          rcases hagree with h' | hts
          · have hus := h'.rawTokens t
            rw [hrest, Option.bind_some] at hus
            cases decodeTokens ts <;> simp [hus]
          · simp [hts]
      | some next' =>
        obtain ⟨y', us⟩ := next'
        rw [hlex] at hagree
        obtain ⟨h', hts⟩ := hagree
        simp only [Option.bind_some, ih h']
        cases OpenProxy.rawTokens x' t with
        | none => rfl
        | some rest =>
          simp only [Option.bind_some, Option.map_some, decodeTokens_append, hts]

/-- The tokens of a text are those that it is written with, with their strings decoded. -/
theorem lex_eq_rawLex (t : Text) : lex t = (rawLex t).bind decodeTokens := by
  rw [rawLex, ← Decodes.between.lexTokens, lexTokens_eq, lex]

/-- Texts that are written with the same tokens hold the same document. -/
theorem read_eq_of_rawLex_eq {t u : Text} (h : rawLex t = rawLex u) : read t = read u := by
  rw [read, read, lex_eq_rawLex, lex_eq_rawLex, h]

/-! ### Words -/

/-- The tokens that words are. -/
def Token.isWord : Token → Bool
  | .number _ | .bool _ | .null => true
  | _ => false

theorem wordToken_isWord {w : Text} {token : Token} (h : wordToken w = some token) : token.isWord = true := by
  unfold wordToken at h
  split_ifs at h <;> (cases h; rfl)

/-- A word comes first among the tokens of a text that begins with one. -/
theorem exists_rawTokens_word {w t : Text} {ts : List Token} (h : rawTokens (.word w) t = some ts) :
    ∃ token us, ts = token :: us ∧ token.isWord = true := by
  induction t generalizing w ts with
  | nil =>
    simp only [rawTokens, rawEnd, Option.map_eq_some_iff] at h
    obtain ⟨token, htoken, rfl⟩ := h
    exact ⟨token, [], rfl, wordToken_isWord htoken⟩
  | cons c t ih =>
    rw [rawTokens, Option.bind_eq_some_iff] at h
    obtain ⟨⟨x, us⟩, hstep, h⟩ := h
    rw [Option.map_eq_some_iff] at h
    obtain ⟨vs, hvs, rfl⟩ := h
    simp only [rawStep] at hstep
    split_ifs at hstep with hword
    · cases hstep
      obtain ⟨token, us, rfl, htoken⟩ := ih hvs
      exact ⟨token, us, rfl, htoken⟩
    · simp only [Option.bind_eq_some_iff, Option.map_eq_some_iff] at hstep
      obtain ⟨token, htoken, next, -, heq⟩ := hstep
      cases heq
      exact ⟨token, next.2 ++ vs, rfl, wordToken_isWord htoken⟩

/-- The reader has just read a value. -/
def ReadState.afterValue : ReadState → Bool
  | .items .. | .fields .. | .done _ => true
  | _ => false

theorem afterValue_deliver (v : Json) (stack : List Frame) : (deliver v stack).afterValue = true := by
  cases stack with
  | nil => rfl
  | cons frame stack => cases frame <;> rfl

/-- A word is a value. -/
theorem afterValue_of_isWord {r r' : ReadState} {token : Token} (htoken : token.isWord = true)
    (h : readStep r token = some r') : r'.afterValue = true := by
  cases token with
  | number n | bool b | null =>
    cases r <;> simp only [readStep, readValue, Option.some.injEq, reduceCtorEq] at h
    all_goals
      rw [← h]
      exact afterValue_deliver _ _
  | _ => cases htoken

/-- No word follows a value. -/
theorem readStep_afterValue {r : ReadState} {token : Token} (hr : r.afterValue = true) (htoken : token.isWord = true) :
    readStep r token = none := by
  cases token with
  | number n | bool b | null => cases r <;> first | rfl | cases hr
  | _ => cases htoken

end OpenProxy
