import OpenProxy.Data.JsonPrefix

/-!
# Arguments of tool calls

The model of `sanitize_tool_call_arguments`.  Arguments that are no JSON are read from the front, or a scan finds the brackets
and the quote that are missing and adds them; where neither helps, the arguments are empty.  The scan and the reader agree
inside a document (`scan_eq`).  Arguments that are cut off keep what was complete unless the cut is inside an escape sequence,
where the quote that is added belongs to the escape (`keepsMembers_iff`).
-/

namespace OpenProxy.Formatting

open Json
open Option (bind_eq_some_iff map_eq_some_iff)

/-! ### The front of a text -/

/-- Tokens for the reader, until a document is complete. -/
def feed : ReadState → List Token → Option ReadState
  | .done v, _ => some (.done v)
  | r, [] => some r
  | r, token :: ts => (readStep r token).bind fun r' => feed r' ts

/-- The document that is complete. -/
def completed : ReadState → Option Json
  | .done v => some v
  | _ => none

def nextFrom : LexState → ReadState → Text → Option Json
  | x, r, [] => (lexEnd x).bind fun ts => (feed r ts).bind completed
  | x, r, c :: t =>
    (lexStep x c).bind fun next => (feed r next.2).bind fun r' =>
      match r' with
      | .done v => some v
      | r' => nextFrom next.1 r' t

/-- `StreamDeserializer::next`: the first document, whatever comes behind it. -/
def nextValue (t : Text) : Option Json :=
  (nextFrom .between (.value []) t).bind fun v => if v.depth ≤ 127 then some v.normal else none

/-! ### The repair -/

structure Scan where
  inQuote : Bool
  escaped : Bool
  /-- The stack, its top first. -/
  stack : Text
  deriving DecidableEq

def scanStep (s : Scan) (ch : Char) : Scan :=
  if s.escaped then { s with escaped := false }
  else if ch = '\\' then { s with escaped := true }
  else if ch = '"' then { s with inQuote := !s.inQuote }
  else if s.inQuote then s
  else if ch = '\x7b' then { s with stack := '\x7d' :: s.stack }
  else if ch = '[' then { s with stack := ']' :: s.stack }
  else if (ch = '\x7d' ∨ ch = ']') ∧ s.stack.head? = some ch then { s with stack := s.stack.tail }
  else s

def scan (t : Text) : Scan := t.foldl scanStep ⟨false, false, []⟩

def repaired (t : Text) : Text := t ++ ((if (scan t).inQuote then ['"'] else []) ++ (scan t).stack)

def emptyObject : Text := ['\x7b', '\x7d']

def sanitizeToolCallArguments (args : Text) : Text :=
  let trimmed := trim args
  if trimmed.isEmpty then emptyObject
  else if (fromStr trimmed).isSome then trimmed
  else
    match nextValue trimmed with
    | some val => write val
    | none =>
      match fromStr (repaired trimmed) with
      | some val => write val
      | none => emptyObject

/-! ### Arguments that are cut off -/

/-- The text ends inside a string that is a value. -/
def EndsInString (s : Text) : Prop :=
  ∃ x ts r, lexFrom .between s = some (x, ts) ∧ watch readStep (.value []) ts = some r ∧
    x.inQuote = true ∧ r.expectsValue = true

/-- The text ends after a member of an object, and what follows does not go on with its value. -/
def EndsAfterMember (s rest : Text) : Prop :=
  ∃ x ts vs fs stack, lexFrom .between s = some (x, ts) ∧ lexEnd x = some vs ∧
    watch readStep (.value []) (ts ++ vs) = some (.fields fs stack) ∧
    (x ≠ .between → ∀ c ∈ rest.head?, isWordChar c = false)

/-- The members of the outermost object that are complete at the end of the text. -/
def completeMembers (s : Text) : List (Text × Json) :=
  match lexFrom .between s with
  | some (x, ts) =>
    match watch readStep (.value []) (ts ++ (lexEnd x).getD []) with
    | some r => r.members
    | none => []
  | none => []

def endsInEscape (s : Text) : Bool := (lexFrom .between s).any fun last => last.1.inEscape

/-- The arguments that are made of a part of a document hold the members that are complete in it. -/
def KeepsMembers (s : Text) (all : List (Text × Json)) : Prop :=
  ∃ out, fromStr (sanitizeToolCallArguments s) = some (.object out) ∧
    ∀ m ∈ completeMembers s, getField out m.1 = getField (normalFields all) m.1

/-! ### The scan and the reader -/

theorem missing_of_isWord {r r' : ReadState} {token : Token} (hword : token.isWord = true)
    (h : readStep r token = some r') : r'.missing = r.missing := by
  obtain ⟨hmissing, -⟩ := missing_readStep h
  cases token <;> first | exact hmissing | cases hword

theorem scanStep_word {c : Char} (h : isWordChar c = true) (stack : Text) :
    scanStep ⟨false, false, stack⟩ c = ⟨false, false, stack⟩ := by
  have hne : c ≠ '\\' ∧ c ≠ '"' ∧ c ≠ '\x7b' ∧ c ≠ '[' ∧ c ≠ '\x7d' ∧ c ≠ ']' := by
    refine ⟨?_, ?_, ?_, ?_, ?_, ?_⟩ <;> (rintro rfl; revert h; decide)
  simp [scanStep, hne]

theorem inQuote_withDigit {c : Char} {hex : List Nat} {more : List Nat → LexState} {next : Nat → Option LexState}
    {y : LexState} (h : withDigit hex c more next = some y)
    (hmore : ∀ hex, (more hex).inQuote = true ∧ (more hex).escaped = false)
    (hnext : ∀ n z, next n = some z → z.inQuote = true ∧ z.escaped = false) : y.inQuote = true ∧ y.escaped = false := by
  obtain ⟨d, -, h⟩ := bind_eq_some_iff.mp h
  split at h
  · exact hnext _ _ h
  · cases h
    exact hmore _

/-- A hexadecimal digit means nothing to the scan. -/
theorem scanStep_withDigit {c : Char} {hex : List Nat} {more : List Nat → LexState} {next : Nat → Option LexState}
    {y : LexState} (h : withDigit hex c more next = some y) (stack : Text) :
    scanStep ⟨true, false, stack⟩ c = ⟨true, false, stack⟩ := by
  obtain ⟨d, hd, -⟩ := bind_eq_some_iff.mp h
  have hne : c ≠ '"' ∧ c ≠ '\\' := by
    constructor <;> (rintro rfl; revert hd; simp [hexValue])
  simp [scanStep, hne.1, hne.2]

theorem inQuote_afterEscape {w : Text} {c : Char} {y : LexState} (h : afterEscape w c = some y) :
    y.inQuote = true ∧ y.escaped = false := by
  unfold afterEscape at h
  repeat' split at h
  all_goals cases h
  all_goals exact ⟨rfl, rfl⟩

theorem inQuote_afterUnicode {w : Text} {n : Nat} {y : LexState} (h : afterUnicode w n = some y) :
    y.inQuote = true ∧ y.escaped = false := by
  unfold afterUnicode at h
  repeat' split at h
  all_goals cases h
  all_goals exact ⟨rfl, rfl⟩

theorem inQuote_afterLow {w : Text} {high n : Nat} {y : LexState} (h : afterLow w high n = some y) :
    y.inQuote = true ∧ y.escaped = false := by
  unfold afterLow at h
  split at h
  · cases h
    exact ⟨rfl, rfl⟩
  · cases h

theorem scanStep_between {c : Char} {y : LexState} {ts : List Token} {r r' : ReadState} (hstep : lexBetween c = some (y, ts))
    (hread : watch readStep r ts = some r') :
    scanStep ⟨false, false, r.missing⟩ c = ⟨y.inQuote, y.escaped, r'.missing⟩ := by
  unfold lexBetween at hstep
  cases hp : punctuation c with
  | some token =>
    rw [hp] at hstep
    cases hstep
    rw [watch_cons] at hread
    obtain ⟨r₁, hr₁, hread⟩ := bind_eq_some_iff.mp hread
    cases hread
    obtain ⟨hmissing, hcloses⟩ := missing_readStep hr₁
    rw [hmissing]
    unfold punctuation at hp
    repeat' split at hp
    all_goals cases hp
    all_goals rename_i hc
    all_goals subst hc
    · rfl
    · rw [scanStep]
      simp [show r.missing.head? = some '\x7d' from hcloses, Token.shift, LexState.inQuote, LexState.escaped]
    · rfl
    · rw [scanStep]
      simp [show r.missing.head? = some ']' from hcloses, Token.shift, LexState.inQuote, LexState.escaped]
    · rfl
    · rfl
  | none =>
    rw [hp] at hstep
    dsimp only at hstep
    split at hstep
    · rename_i hspace
      cases hstep
      cases hread
      unfold isJsonWhitespace at hspace
      simp only [Bool.or_eq_true, beq_iff_eq] at hspace
      rcases hspace with ((rfl | rfl) | rfl) | rfl <;> rfl
    · split at hstep
      · rename_i hquote
        cases hstep
        cases hread
        rw [hquote]
        rfl
      · rename_i hquote
        split at hstep
        · rename_i hword
          cases hstep
          cases hread
          exact scanStep_word hword r.missing
        · cases hstep

/-- One character: the scan knows where the reader is. -/
theorem scanStep_lexStep {x y : LexState} {c : Char} {ts : List Token} {r r' : ReadState}
    (hstep : lexStep x c = some (y, ts)) (hread : watch readStep r ts = some r') :
    scanStep ⟨x.inQuote, x.escaped, r.missing⟩ c = ⟨y.inQuote, y.escaped, r'.missing⟩ := by
  cases x with
  | between => exact scanStep_between hstep hread
  | word w =>
    rw [lexStep] at hstep
    split at hstep
    · rename_i hword
      cases hstep
      cases hread
      exact scanStep_word hword r.missing
    · obtain ⟨token, htoken, hstep⟩ := bind_eq_some_iff.mp hstep
      obtain ⟨⟨z, us⟩, hnext, heq⟩ := map_eq_some_iff.mp hstep
      cases heq
      rw [watch_cons] at hread
      obtain ⟨r₁, hr₁, hread⟩ := bind_eq_some_iff.mp hread
      have hbetween := scanStep_between hnext hread
      rw [missing_of_isWord (wordToken_isWord htoken) hr₁] at hbetween
      exact hbetween
  | string w =>
    rw [lexStep] at hstep
    split at hstep
    · rename_i hquote
      cases hstep
      rw [watch_cons] at hread
      obtain ⟨r₁, hr₁, hread⟩ := bind_eq_some_iff.mp hread
      cases hread
      obtain ⟨hmissing, -⟩ := missing_readStep hr₁
      rw [hmissing, hquote]
      rfl
    · rename_i hquote
      split at hstep
      · rename_i hbackslash
        cases hstep
        cases hread
        rw [hbackslash]
        rfl
      · rename_i hbackslash
        split at hstep
        · cases hstep
        · cases hstep
          cases hread
          simp [scanStep, LexState.inQuote, LexState.escaped, hquote, hbackslash]
  | escape w =>
    obtain ⟨z, hnext, heq⟩ := map_eq_some_iff.mp hstep
    cases heq
    cases hread
    obtain ⟨hquote, hescaped⟩ := inQuote_afterEscape hnext
    rw [hquote, hescaped]
    rfl
  | unicode w hex =>
    obtain ⟨z, hnext, heq⟩ := map_eq_some_iff.mp hstep
    cases heq
    cases hread
    obtain ⟨hquote, hescaped⟩ := inQuote_withDigit hnext (fun _ => ⟨rfl, rfl⟩) fun _ _ hz => inQuote_afterUnicode hz
    rw [hquote, hescaped]
    exact scanStep_withDigit hnext _
  | surrogate w high =>
    rw [lexStep] at hstep
    split at hstep
    · rename_i hbackslash
      cases hstep
      cases hread
      rw [hbackslash]
      rfl
    · cases hstep
  | surrogateEscape w high =>
    rw [lexStep] at hstep
    split at hstep
    · cases hstep
      cases hread
      rfl
    · cases hstep
  | low w high hex =>
    obtain ⟨z, hnext, heq⟩ := map_eq_some_iff.mp hstep
    cases heq
    cases hread
    obtain ⟨hquote, hescaped⟩ := inQuote_withDigit hnext (fun _ => ⟨rfl, rfl⟩) fun _ _ hz => inQuote_afterLow hz
    rw [hquote, hescaped]
    exact scanStep_withDigit hnext _

theorem foldl_scanStep {t : Text} {x y : LexState} {ts : List Token} {r r' : ReadState} (hlex : lexFrom x t = some (y, ts))
    (hread : watch readStep r ts = some r') :
    t.foldl scanStep ⟨x.inQuote, x.escaped, r.missing⟩ = ⟨y.inQuote, y.escaped, r'.missing⟩ := by
  induction t generalizing x ts r with
  | nil =>
    cases hlex
    cases hread
    rfl
  | cons c t ih =>
    obtain ⟨x₁, us, vs, hstep, hrest, rfl⟩ := exists_lexFrom_cons hlex
    rw [watch_append] at hread
    obtain ⟨r₁, hr₁, hread⟩ := bind_eq_some_iff.mp hread
    rw [List.foldl_cons, scanStep_lexStep hstep hr₁]
    exact ih hrest hread

/-- Inside a document the scan and the reader agree. -/
theorem scan_eq {t : Text} {y : LexState} {ts : List Token} {r : ReadState} (hlex : lexFrom .between t = some (y, ts))
    (hread : watch readStep (.value []) ts = some r) : scan t = ⟨y.inQuote, y.escaped, r.missing⟩ :=
  foldl_scanStep hlex hread

/-! ### A document at the front -/

theorem watch_of_readTokens {ts : List Token} {v : Json} (h : readTokens ts = some v) :
    watch readStep (.value []) ts = some (.done v) := by
  rw [tokens_of_readTokens h, ← List.append_nil (tokens v), watch_tokens]
  rfl

theorem feed_nil (r : ReadState) : feed r [] = some r := by
  cases r <;> rfl

theorem eq_done_of_watch {v : Json} {r : ReadState} {ts : List Token} (h : watch readStep (.done v) ts = some r) :
    r = .done v := by
  have hdone : ∀ m token m', m = .done v → readStep m token = some m' → m' = .done v := by
    rintro m token m' rfl hstep
    cases token <;> cases hstep
  exact doomed_watch hdone rfl h

theorem feed_of_watch {r r' : ReadState} {ts : List Token} (h : watch readStep r ts = some r') : feed r ts = some r' := by
  induction ts generalizing r with
  | nil =>
    cases h
    exact feed_nil _
  | cons token ts ih =>
    rw [watch_cons] at h
    obtain ⟨r₁, hstep, hrest⟩ := bind_eq_some_iff.mp h
    cases r with
    | done v => cases token <;> cases hstep
    | _ =>
      show (readStep _ token).bind (fun r' => feed r' ts) = _
      rw [hstep]
      exact ih hrest

theorem completed_eq_some {r : ReadState} {v : Json} : completed r = some v ↔ r = .done v := by
  cases r <;> simp [completed]

section

variable {x y : LexState} {r r' : ReadState} {c : Char} {t rest : Text} {ts : List Token} {v : Json}

theorem nextFrom_step (hstep : lexStep x c = some (y, ts)) (hfeed : feed r ts = some r') :
    nextFrom x r (c :: t) = (completed r').or (nextFrom y r' t) := by
  rw [nextFrom, hstep, Option.bind_some, hfeed, Option.bind_some]
  cases r' <;> rfl

theorem exists_nextFrom_step (h : nextFrom x r (c :: t) = some v) :
    ∃ y us r', lexStep x c = some (y, us) ∧ feed r us = some r' ∧
      (r' = .done v ∨ completed r' = none ∧ nextFrom y r' t = some v) := by
  rw [nextFrom] at h
  obtain ⟨⟨y, us⟩, hstep, h⟩ := bind_eq_some_iff.mp h
  obtain ⟨r', hfeed, h⟩ := bind_eq_some_iff.mp h
  refine ⟨y, us, r', hstep, hfeed, ?_⟩
  cases r' with
  | done w =>
    cases h
    exact Or.inl rfl
  | _ => exact Or.inr ⟨rfl, h⟩

/-- While the document is not complete, the reader goes on. -/
theorem nextFrom_of_watch (hlex : lexFrom x t = some (y, ts)) (hread : watch readStep r ts = some r')
    (hr : completed r' = none) : nextFrom x r (t ++ rest) = nextFrom y r' rest := by
  induction t generalizing x r ts with
  | nil =>
    cases hlex
    cases hread
    rfl
  | cons c t ih =>
    obtain ⟨x₁, us, vs, hstep, hrest, rfl⟩ := exists_lexFrom_cons hlex
    rw [watch_append] at hread
    obtain ⟨r₁, hr₁, hread⟩ := bind_eq_some_iff.mp hread
    have hnone : completed r₁ = none := by
      rw [Option.eq_none_iff_forall_ne_some]
      intro v hv
      rw [completed_eq_some.mp hv] at hread
      rw [eq_done_of_watch hread] at hr
      cases hr
    rw [List.cons_append, nextFrom_step hstep (feed_of_watch hr₁), hnone, Option.none_or]
    exact ih hrest hread

/-- A document that is complete is the result, whatever comes behind it. -/
theorem nextFrom_of_done (hlex : lexFrom x t = some (y, ts)) (hread : watch readStep r ts = some (.done v))
    (hr : completed r = none) : nextFrom x r (t ++ rest) = some v := by
  induction t generalizing x r ts with
  | nil =>
    cases hlex
    cases hread
    cases hr
  | cons c t ih =>
    obtain ⟨x₁, us, vs, hstep, hrest, rfl⟩ := exists_lexFrom_cons hlex
    rw [watch_append] at hread
    obtain ⟨r₁, hr₁, hread⟩ := bind_eq_some_iff.mp hread
    rw [List.cons_append, nextFrom_step hstep (feed_of_watch hr₁)]
    cases hdone : completed r₁ with
    | none =>
      rw [Option.none_or]
      exact ih hrest hread hdone
    | some v' =>
      rw [completed_eq_some.mp hdone] at hread
      cases eq_done_of_watch hread
      rfl

end

theorem nextValue_of_fromStr {t : Text} {v : Json} (h : fromStr t = some v) : nextValue t = some v := by
  obtain ⟨u, hread, hdepth, rfl⟩ := fromStr_eq_some.mp h
  obtain ⟨ts, hlex, hread⟩ := bind_eq_some_iff.mp hread
  obtain ⟨y, us, vs, hy, hend, rfl⟩ := lex_eq_some.mp hlex
  have hwatch := watch_of_readTokens hread
  rw [watch_append] at hwatch
  obtain ⟨r, hr, hwatch⟩ := bind_eq_some_iff.mp hwatch
  have hnext : nextFrom .between (.value []) t = some u := by
    rw [← List.append_nil t]
    cases hdone : completed r with
    | none =>
      rw [nextFrom_of_watch hy hr hdone, nextFrom, hend, Option.bind_some, feed_of_watch hwatch]
      rfl
    | some u' =>
      rw [completed_eq_some.mp hdone] at hr hwatch
      cases eq_done_of_watch hwatch
      exact nextFrom_of_done hy hr rfl
  rw [nextValue, hnext, Option.bind_some, if_pos hdepth]

theorem nextFrom_lead {lead t : Text} {v : Json} (hlead : ∀ c ∈ lead, isWhitespace c = true)
    (h : nextFrom .between (.value []) (lead ++ t) = some v) : nextFrom .between (.value []) t = some v := by
  induction lead with
  | nil => exact h
  | cons c lead ih =>
    obtain ⟨y, us, r, hstep, hfeed, hnext⟩ := exists_nextFrom_step h
    rcases lexBetween_of_isWhitespace (hlead c List.mem_cons_self) with hc | hc
    · rw [lexStep, hc] at hstep
      cases hstep
    · rw [lexStep, hc] at hstep
      cases hstep
      cases hfeed
      exact ih (fun d hd => hlead d (List.mem_cons_of_mem _ hd)) (hnext.resolve_left (by simp)).2

theorem nextFrom_space {trail : Text} (htrail : ∀ c ∈ trail, isWhitespace c = true) {x : LexState} {r : ReadState} {v : Json}
    (hr : completed r = none) (h : nextFrom x r trail = some v) : nextFrom x r [] = some v := by
  induction trail generalizing x r with
  | nil => exact h
  | cons c trail ih =>
    have hrest := fun d hd => htrail d (List.mem_cons_of_mem c hd)
    obtain ⟨y, us, r₁, hstep, hfeed, hnext⟩ := exists_nextFrom_step h
    rcases lexStep_of_isWhitespace (htrail c List.mem_cons_self) hstep with ⟨w, w', rfl, rfl, rfl⟩ | ⟨-, rfl, hend⟩
    · -- the text ends inside a string
      rw [feed_nil] at hfeed
      cases hfeed
      rcases hnext with rfl | ⟨-, hnext⟩
      · cases hr
      · exact absurd (ih hrest hr hnext) (by simp [nextFrom, lexEnd])
    · rw [nextFrom, hend, Option.bind_some, hfeed, Option.bind_some]
      rcases hnext with rfl | ⟨hopen, hnext⟩
      · rfl
      · have hend' := ih hrest hopen hnext
        rw [nextFrom, lexEnd, Option.bind_some, feed_nil, Option.bind_some, hopen] at hend'
        cases hend'

theorem nextFrom_trail {trail : Text} (htrail : ∀ c ∈ trail, isWhitespace c = true) {t : Text} {x : LexState} {r : ReadState}
    {v : Json} (hr : completed r = none) (h : nextFrom x r (t ++ trail) = some v) : nextFrom x r t = some v := by
  induction t generalizing x r with
  | nil => exact nextFrom_space htrail hr h
  | cons c t ih =>
    obtain ⟨y, us, r₁, hstep, hfeed, hnext⟩ := exists_nextFrom_step h
    rw [nextFrom_step hstep hfeed]
    rcases hnext with rfl | ⟨hopen, hnext⟩
    · rfl
    · rw [hopen, Option.none_or]
      exact ih hopen hnext

/-- The document at the front does not depend on white space around the text. -/
theorem nextValue_trim {t : Text} {v : Json} (h : nextValue t = some v) : nextValue (trim t) = some v := by
  obtain ⟨lead, trail, ht, hlead, htrail⟩ := exists_eq_trim t
  obtain ⟨u, hu, hv⟩ := bind_eq_some_iff.mp h
  rw [ht] at hu
  have hnext := nextFrom_trail htrail rfl (nextFrom_lead hlead hu)
  rw [nextValue, hnext]
  exact hv

/-! ### The result -/

theorem fromStr_write_normal {u : Json} (h : u.depth ≤ 127) : fromStr (write u.normal) = some u.normal := by
  rw [fromStr_write ((depth_normal_le u).trans h), normal_normal]

theorem exists_of_nextValue {t : Text} {v : Json} (h : nextValue t = some v) : ∃ u : Json, u.depth ≤ 127 ∧ v = u.normal := by
  obtain ⟨u, -, hv⟩ := bind_eq_some_iff.mp h
  split at hv
  · rename_i hdepth
    exact ⟨u, hdepth, (Option.some.inj hv).symm⟩
  · cases hv

/-- Where a document is at the front, the arguments are this document. -/
theorem fromStr_sanitize_of_nextValue {args : Text} {v : Json} (htrim : nextValue (trim args) = some v) :
    fromStr (sanitizeToolCallArguments args) = some v := by
  have hne : ¬ (trim args).isEmpty = true := by
    intro hempty
    rw [List.isEmpty_iff.mp hempty] at htrim
    cases htrim
  unfold sanitizeToolCallArguments
  dsimp only
  rw [if_neg hne]
  by_cases hok : (fromStr (trim args)).isSome = true
  · obtain ⟨w, hw⟩ := Option.isSome_iff_exists.mp hok
    rw [if_pos hok, hw, ← htrim, nextValue_of_fromStr hw]
  · obtain ⟨u, hdepth, rfl⟩ := exists_of_nextValue htrim
    rw [if_neg hok, htrim]
    exact fromStr_write_normal hdepth

/-- Otherwise they are what the repair makes of the text. -/
theorem sanitize_of_nextValue_none {args : Text} (h : nextValue (trim args) = none) :
    sanitizeToolCallArguments args = ((fromStr (repaired (trim args))).map write).getD emptyObject := by
  have hnot : fromStr (trim args) = none := by
    rw [Option.eq_none_iff_forall_ne_some]
    intro v hv
    rw [nextValue_of_fromStr hv] at h
    cases h
  unfold sanitizeToolCallArguments
  dsimp only
  by_cases hempty : (trim args).isEmpty = true
  · rw [if_pos hempty, List.isEmpty_iff.mp hempty]
    rfl
  · rw [if_neg hempty, hnot, if_neg (by simp), h]
    cases fromStr (repaired (trim args)) <;> rfl

theorem exists_fromStr_sanitize (args : Text) : ∃ v, fromStr (sanitizeToolCallArguments args) = some v := by
  cases hnext : nextValue (trim args) with
  | none =>
    rw [sanitize_of_nextValue_none hnext]
    cases hrepaired : fromStr (repaired (trim args)) with
    | none => exact ⟨.object [], rfl⟩
    | some v =>
      obtain ⟨u, -, hdepth, rfl⟩ := fromStr_eq_some.mp hrepaired
      exact ⟨u.normal, fromStr_write_normal hdepth⟩
  | some v => exact ⟨v, fromStr_sanitize_of_nextValue hnext⟩

theorem fromStr_sanitize_of_fromStr {args : Text} {v : Json} (h : fromStr args = some v) :
    fromStr (sanitizeToolCallArguments args) = some v :=
  fromStr_sanitize_of_nextValue (nextValue_trim (nextValue_of_fromStr h))

theorem lexEnd_eq_some {x : LexState} {ts : List Token} (h : lexEnd x = some ts) :
    x = .between ∧ ts = [] ∨ ∃ w token, x = .word w ∧ ts = [token] ∧ token.isWord = true := by
  cases x with
  | between =>
    cases h
    exact Or.inl ⟨rfl, rfl⟩
  | word w =>
    obtain ⟨token, htoken, rfl⟩ := map_eq_some_iff.mp h
    exact Or.inr ⟨w, token, rfl, rfl, wordToken_isWord htoken⟩
  | _ => cases h

/-- A complete object is the result, whatever comes behind it. -/
theorem fromStr_sanitize_append {t : Text} {fields : List (Text × Json)} (h : fromStr t = some (.object fields))
    (rest : Text) : fromStr (sanitizeToolCallArguments (t ++ rest)) = some (.object fields) := by
  refine fromStr_sanitize_of_nextValue (nextValue_trim ?_)
  obtain ⟨u, hread, hdepth, hu⟩ := fromStr_eq_some.mp h
  obtain ⟨ts, hlex, hread⟩ := bind_eq_some_iff.mp hread
  obtain ⟨y, us, vs, hy, hend, rfl⟩ := lex_eq_some.mp hlex
  obtain ⟨fs, rfl⟩ : ∃ fs, u = .object fs := by
    cases u with
    | object fs => exact ⟨fs, rfl⟩
    | _ => cases hu
  -- the last token is the brace, so that the end of the text completes no word
  have hvs : vs = [] := by
    rcases lexEnd_eq_some hend with ⟨-, hvs⟩ | ⟨w, token, -, rfl, hword⟩
    · exact hvs
    · have htokens : us ++ [token] = (.openBrace :: fieldTokens fs) ++ [.closeBrace] := tokens_of_readTokens hread
      obtain ⟨-, hlast⟩ := List.append_inj' htokens rfl
      cases hlast
      cases hword
  have hwatch := watch_of_readTokens hread
  rw [hvs, List.append_nil] at hwatch
  rw [nextValue, nextFrom_of_done hy hwatch rfl, Option.bind_some, if_pos hdepth, hu]

/-! ### Arguments that are cut off keep what was complete -/

theorem inQuote_lexStep {x y : LexState} {c : Char} {ts : List Token} (hx : x.inQuote = true)
    (h : lexStep x c = some (y, ts)) : (ts = [] ∧ y.inQuote = true) ∨ ∃ w, ts = [.string w] := by
  cases x with
  | between | word w => cases hx
  | string w =>
    rw [lexStep] at h
    split at h
    · cases h
      exact Or.inr ⟨w, rfl⟩
    · split at h
      · cases h
        exact Or.inl ⟨rfl, rfl⟩
      · split at h
        · cases h
        · cases h
          exact Or.inl ⟨rfl, rfl⟩
  | escape w =>
    obtain ⟨z, hnext, heq⟩ := map_eq_some_iff.mp h
    cases heq
    exact Or.inl ⟨rfl, (inQuote_afterEscape hnext).1⟩
  | unicode w hex =>
    obtain ⟨z, hnext, heq⟩ := map_eq_some_iff.mp h
    cases heq
    exact Or.inl ⟨rfl, (inQuote_withDigit hnext (fun _ => ⟨rfl, rfl⟩) fun _ _ hz => inQuote_afterUnicode hz).1⟩
  | low w high hex =>
    obtain ⟨z, hnext, heq⟩ := map_eq_some_iff.mp h
    cases heq
    exact Or.inl ⟨rfl, (inQuote_withDigit hnext (fun _ => ⟨rfl, rfl⟩) fun _ _ hz => inQuote_afterLow hz).1⟩
  | surrogate w high | surrogateEscape w high =>
    rw [lexStep] at h
    split at h
    · cases h
      exact Or.inl ⟨rfl, rfl⟩
    · cases h

/-- The first token behind a place between quotes is a string. -/
theorem inQuote_lexFrom {x y : LexState} {t : Text} {ts : List Token} (hx : x.inQuote = true)
    (h : lexFrom x t = some (y, ts)) : (ts = [] ∧ y.inQuote = true) ∨ ∃ w us, ts = .string w :: us := by
  induction t generalizing x ts with
  | nil =>
    cases h
    exact Or.inl ⟨rfl, hx⟩
  | cons c t ih =>
    obtain ⟨x₁, us, vs, hstep, hrest, rfl⟩ := exists_lexFrom_cons h
    rcases inQuote_lexStep hx hstep with ⟨rfl, hx₁⟩ | ⟨w, rfl⟩
    · exact ih hx₁ hrest
    · exact Or.inr ⟨w, vs, rfl⟩

theorem lexEnd_of_inQuote {x : LexState} (hx : x.inQuote = true) : lexEnd x = none := by
  cases x <;> first | rfl | cases hx

/-- A string where a value is expected: no name comes, and nothing becomes deeper. -/
theorem exists_readStep_string {r : ReadState} (hr : r.expectsValue = true) (w : Text) :
    ∃ r', readStep r (.string w) = some r' ∧ r'.afterValue = true ∧ r'.names = r.names ∧ r'.depth = r.depth := by
  cases r with
  | value stack =>
    refine ⟨deliver (.string w) stack, rfl, afterValue_deliver _ _, ?_, depth_deliver _ _⟩
    cases stack with
    | nil => rfl
    | cons frame stack => exact names_deliver _ _ _
  | firstItem stack =>
    refine ⟨.items [.string w] stack, rfl, rfl, rfl, ?_⟩
    simp [ReadState.depth, itemsDepth, Json.depth]
  | _ => cases hr

/-- A part of the tokens of an object, and what has been read of it. -/
structure PartOf (all : List (Text × Json)) (ts : List Token) (r : ReadState) : Prop where
  read : watch readStep (.value []) ts = some r
  first : ts.head? = some .openBrace
  members : r.members <+: all
  names : r.names <+: all.map Prod.fst
  depth : r.depth ≤ (Json.object all).depth

theorem partOf_of_watch {all : List (Text × Json)} {ts us : List Token} {r : ReadState}
    (hread : watch readStep (.value []) ts = some r) (hne : ts ≠ [])
    (hall : readTokens (ts ++ us) = some (.object all)) : PartOf all ts r := by
  have hwatch := watch_of_readTokens hall
  rw [watch_append, hread, Option.bind_some] at hwatch
  refine ⟨hread, ?_, (grows_watch hwatch).members, (grows_watch hwatch).names, depth_watch hwatch⟩
  have htokens : ts ++ us = .openBrace :: (fieldTokens all ++ [.closeBrace]) := tokens_of_readTokens hall
  cases ts with
  | nil => exact absurd rfl hne
  | cons token ts => exact congrArg some (List.cons.inj htokens).1

theorem getField_of_nodup {fields : List (Text × Json)} (h : (fields.map Prod.fst).Nodup) {m : Text × Json}
    (hm : m ∈ fields) : getField fields m.1 = some m.2 := by
  induction fields with
  | nil => cases hm
  | cons field fields ih =>
    obtain ⟨hnot, hrest⟩ := List.nodup_cons.mp h
    obtain ⟨key, value⟩ := field
    rw [getField_cons]
    rcases List.mem_cons.mp hm with rfl | hm
    · have hnone : getField fields key = none := by
        rw [Option.eq_none_iff_forall_ne_some]
        intro v hv
        exact hnot (List.mem_map.mpr ⟨(key, v), mem_of_getField hv, rfl⟩)
      rw [hnone, Option.none_or, if_pos rfl]
    · rw [ih hrest hm, Option.some_or]

/-- The repair completes a part of an object behind which a value is complete: the object holds the members of the part. -/
theorem keepsMembers_of_repaired {s t : Text} {all : List (Text × Json)} {ts us : List Token} {r r' : ReadState}
    (hpart : PartOf all ts r) (hdepth : (Json.object all).depth ≤ 127) (hnodup : (all.map Prod.fst).Nodup)
    (hread : watch readStep r us = some r') (hafter : r'.afterValue = true) (hnames : r'.names = r.names)
    (hdeep : r'.depth = r.depth) (hlex : lex t = some (ts ++ us)) (hnext : nextValue (trim s) = none)
    (hrepaired : repaired (trim s) = t ++ r'.missing) (hmembers : completeMembers s = r.members) : KeepsMembers s all := by
  obtain ⟨vs, doc, hclosed, hwatch, hdocDepth, hdocNames⟩ := exists_closed hlex hafter
  have hdoc : readTokens (ts ++ us ++ vs) = some doc := by
    rw [readTokens, watch_append, watch_append, hpart.read, Option.bind_some, hread, Option.bind_some, hwatch]
  obtain ⟨fs, rfl⟩ : ∃ fs, doc = .object fs := by
    have htokens := tokens_of_readTokens hdoc
    have hfirst := hpart.first
    cases ts with
    | nil => cases hfirst
    | cons token ts =>
      cases hfirst
      cases doc with
      | object fs => exact ⟨fs, rfl⟩
      | _ => cases (List.cons.inj htokens).1
  have hfsDepth : (Json.object fs).depth ≤ 127 := by
    rw [hdocDepth, hdeep]
    exact hpart.depth.trans hdepth
  have hfs : (fs.map Prod.fst).Nodup := by
    have hprefix := hpart.names
    rw [← hnames, ← hdocNames] at hprefix
    exact hnodup.sublist hprefix.sublist
  have hfrom : fromStr (t ++ r'.missing) = some (Json.object fs).normal := by
    refine fromStr_eq_some.mpr ⟨.object fs, ?_, hfsDepth, rfl⟩
    rw [OpenProxy.read, hclosed]
    exact hdoc
  refine ⟨normalFields fs, ?_, fun m hm => ?_⟩
  · rw [sanitize_of_nextValue_none hnext, hrepaired, hfrom]
    exact fromStr_write_normal hfsDepth
  · rw [hmembers] at hm
    have hmem : m ∈ fs := (grows_watch hwatch).members.subset ((grows_watch hread).members.subset hm)
    rw [getField_normalFields, getField_normalFields, getField_of_nodup hfs hmem,
      getField_of_nodup hnodup (hpart.members.subset hm)]

/-- A document that is not complete is not at the front. -/
theorem nextValue_eq_none {t : Text} {y : LexState} {ts : List Token} {r : ReadState}
    (hlex : lexFrom .between t = some (y, ts)) (hread : watch readStep (.value []) ts = some r) (hr : completed r = none)
    (hend : ∀ us, lexEnd y = some us → (feed r us).bind completed = none) : nextValue t = none := by
  have hnext : nextFrom .between (.value []) t = none := by
    rw [← List.append_nil t, nextFrom_of_watch hlex hread hr, nextFrom]
    cases h : lexEnd y with
    | none => rfl
    | some us => exact hend us h
  rw [nextValue, hnext, Option.bind_none]

theorem completed_of_expectsValue {r : ReadState} (h : r.expectsValue = true) : completed r = none := by
  cases r <;> first | rfl | cases h

theorem completeMembers_eq {s : Text} {x : LexState} {ts : List Token} {r : ReadState}
    (hlex : lexFrom .between s = some (x, ts))
    (hread : watch readStep (.value []) (ts ++ (lexEnd x).getD []) = some r) : completeMembers s = r.members := by
  rw [completeMembers, hlex]
  dsimp only
  rw [hread]

theorem completeMembers_of_inQuote {s : Text} {x : LexState} {ts : List Token} {r : ReadState}
    (hlex : lexFrom .between s = some (x, ts)) (hread : watch readStep (.value []) ts = some r) (hx : x.inQuote = true) :
    completeMembers s = r.members := by
  refine completeMembers_eq hlex ?_
  rw [lexEnd_of_inQuote hx, Option.getD_none, List.append_nil, hread]

section

variable {s u : Text} {all : List (Text × Json)} {x : LexState} {ts : List Token} {r : ReadState}

theorem partOf_endsInString (hdoc : read (s ++ u) = some (.object all)) (hlex : lexFrom .between s = some (x, ts))
    (hread : watch readStep (.value []) ts = some r) (hquote : x.inQuote = true) : PartOf all ts r := by
  obtain ⟨allTokens, hall, htokens⟩ := bind_eq_some_iff.mp hdoc
  obtain ⟨y, us, vs, hy, hend, rfl⟩ := lex_eq_some.mp hall
  obtain ⟨x', us₁, us₂, hx', hrest, rfl⟩ := exists_lexFrom hy
  rw [hlex] at hx'
  cases hx'
  rw [List.append_assoc] at htokens
  refine partOf_of_watch hread ?_ htokens
  rintro rfl
  rcases inQuote_lexFrom hquote hrest with ⟨-, hy'⟩ | ⟨w, us, rfl⟩
  · rw [lexEnd_of_inQuote hy'] at hend
    cases hend
  · cases (List.cons.inj (tokens_of_readTokens htokens)).1

/-- A word that does not go on is complete. -/
theorem exists_rest_of_lexEnd {y : LexState} {us vs ws : List Token} (hend : lexEnd x = some vs)
    (hword : x ≠ .between → ∀ c ∈ u.head?, isWordChar c = false) (hrest : lexFrom x u = some (y, us))
    (hy : lexEnd y = some ws) : ∃ rest, us ++ ws = vs ++ rest := by
  rcases lexEnd_eq_some hend with ⟨rfl, rfl⟩ | ⟨w, token, rfl, rfl, -⟩
  · exact ⟨us ++ ws, rfl⟩
  · cases u with
    | nil =>
      cases hrest
      rw [hend] at hy
      cases hy
      exact ⟨[], rfl⟩
    | cons c u =>
      have hc : isWordChar c = false := hword (by simp) c rfl
      rw [lexFrom, lexStep, hc, if_neg Bool.false_ne_true] at hrest
      obtain ⟨⟨x₁, us₁⟩, hstep, hlast⟩ := bind_eq_some_iff.mp hrest
      obtain ⟨token', htoken, hstep⟩ := bind_eq_some_iff.mp hstep
      obtain ⟨next, -, heq⟩ := map_eq_some_iff.mp hstep
      cases heq
      obtain ⟨⟨z, us₂⟩, -, heq⟩ := map_eq_some_iff.mp hlast
      cases heq
      rw [lexEnd, htoken] at hend
      cases hend
      exact ⟨next.2 ++ us₂ ++ ws, rfl⟩

theorem partOf_endsAfterMember (hdoc : read (s ++ u) = some (.object all)) (hlex : lexFrom .between s = some (x, ts))
    {vs : List Token} {fs : List (Text × Json)} {stack : List Frame} (hend : lexEnd x = some vs)
    (hread : watch readStep (.value []) (ts ++ vs) = some (.fields fs stack))
    (hword : x ≠ .between → ∀ c ∈ u.head?, isWordChar c = false) : PartOf all (ts ++ vs) (.fields fs stack) := by
  obtain ⟨allTokens, hall, htokens⟩ := bind_eq_some_iff.mp hdoc
  obtain ⟨y, us, ws, hy, hy', rfl⟩ := lex_eq_some.mp hall
  obtain ⟨x', us₁, us₂, hx', hrest, rfl⟩ := exists_lexFrom hy
  rw [hlex] at hx'
  cases hx'
  obtain ⟨rest, hus⟩ := exists_rest_of_lexEnd hend hword hrest hy'
  rw [List.append_assoc, hus, ← List.append_assoc] at htokens
  refine partOf_of_watch hread ?_ htokens
  intro hnil
  rw [hnil] at hread
  cases hread

/-- The cut is between the quotes of a string, outside of an escape sequence. -/
theorem keepsMembers_of_string {w : Text} (hdoc : read (s ++ u) = some (.object all))
    (hdepth : (Json.object all).depth ≤ 127) (hnodup : (all.map Prod.fst).Nodup)
    (hlex : lexFrom .between s = some (.string w, ts)) (hread : watch readStep (.value []) ts = some r)
    (hr : r.expectsValue = true) : KeepsMembers s all := by
  have hpart := partOf_endsInString hdoc hlex hread rfl
  have hmembers := completeMembers_of_inQuote hlex hread rfl
  obtain ⟨w', htrim⟩ := lexFrom_trim_string hlex
  obtain ⟨r', hstep, hafter, hnames, hdeep⟩ := exists_readStep_string hr w'
  have hwatch : watch readStep r [.string w'] = some r' := by
    rw [watch_cons, hstep]
    rfl
  have hquoted : lexFrom (.string w') ['"'] = some (.between, [.string w']) := rfl
  have hrepaired : repaired (trim s) = (trim s ++ ['"']) ++ r'.missing := by
    rw [repaired, scan_eq htrim hread, (missing_readStep hstep).1, List.append_assoc]
    rfl
  have hnext : nextValue (trim s) = none :=
    nextValue_eq_none htrim hread (completed_of_expectsValue hr) fun us h => by cases h
  exact keepsMembers_of_repaired hpart hdepth hnodup hwatch hafter hnames hdeep (lex_of_between (lexFrom_trans htrim hquoted))
    hnext hrepaired hmembers

/-- The cut is after a member. -/
theorem keepsMembers_of_member (hdoc : read (s ++ u) = some (.object all)) (hdepth : (Json.object all).depth ≤ 127)
    (hnodup : (all.map Prod.fst).Nodup) (hlex : lexFrom .between s = some (x, ts)) {vs : List Token}
    {fs : List (Text × Json)} {stack : List Frame} (hend : lexEnd x = some vs)
    (hread : watch readStep (.value []) (ts ++ vs) = some (.fields fs stack))
    (hword : x ≠ .between → ∀ c ∈ u.head?, isWordChar c = false) : KeepsMembers s all := by
  have hpart := partOf_endsAfterMember hdoc hlex hend hread hword
  have hmembers : completeMembers s = (ReadState.fields fs stack).members := completeMembers_eq hlex (by
    rw [hend, Option.getD_some, hread])
  obtain ⟨x', us, ws, hx', hend', hus⟩ := lex_eq_some.mp (lex_trim hlex hend)
  have hread' := hread
  rw [hus, watch_append] at hread'
  obtain ⟨r', hr', hlast⟩ := bind_eq_some_iff.mp hread'
  have hopen : completed r' = none := by
    rw [Option.eq_none_iff_forall_ne_some]
    intro v hv
    rw [completed_eq_some.mp hv] at hlast
    cases eq_done_of_watch hlast
  have hscan := scan_eq hx' hr'
  -- at most a word is completed by the end, and a word closes nothing
  have hends : x'.inQuote = false ∧ r'.missing = (ReadState.fields fs stack).missing := by
    rcases lexEnd_eq_some hend' with ⟨rfl, rfl⟩ | ⟨w, token, rfl, rfl, hword'⟩
    · cases hlast
      exact ⟨rfl, rfl⟩
    · rw [watch_cons] at hlast
      obtain ⟨r₁, hstep, hlast⟩ := bind_eq_some_iff.mp hlast
      cases hlast
      exact ⟨rfl, (missing_of_isWord hword' hstep).symm⟩
  have hrepaired : repaired (trim s) = trim s ++ (ReadState.fields fs stack).missing := by
    rw [repaired, hscan, hends.1, hends.2]
    rfl
  have hnext : nextValue (trim s) = none := by
    refine nextValue_eq_none hx' hr' hopen fun bs hbs => ?_
    rw [hend'] at hbs
    cases hbs
    rw [feed_of_watch hlast]
    rfl
  refine keepsMembers_of_repaired hpart hdepth hnodup (watch_nil _) rfl rfl rfl ?_ hnext hrepaired hmembers
  rw [List.append_nil]
  exact lex_trim hlex hend

/-- The quote that the repair adds belongs to the escape sequence. -/
theorem sanitize_of_escape (hlex : lexFrom .between s = some (x, ts)) (hread : watch readStep (.value []) ts = some r)
    (hr : r.expectsValue = true) (hx : x.inEscape = true) : sanitizeToolCallArguments s = emptyObject := by
  have hquote : x.inQuote = true := by
    cases x <;> first | rfl | cases hx
  have htrim := lexFrom_trim_escape hlex hx
  have hnext : nextValue (trim s) = none := by
    refine nextValue_eq_none htrim hread (completed_of_expectsValue hr) fun us h => ?_
    rw [lexEnd_of_inQuote hquote] at h
    cases h
  have hfails : (lexFrom x ('"' :: r.missing)).bind (fun last => lexEnd last.1) = none := by
    cases x with
    | escape w =>
      have hstep : lexStep (.escape w) '"' = some (.string (w ++ ['"']), []) := rfl
      rw [lexFrom_cons hstep (lexFrom_string_missing _ r)]
      rfl
    | unicode w hex | surrogate w high | surrogateEscape w high | low w high hex => rfl
    | _ => cases hx
  have hlexNone : lex (repaired (trim s)) = none := by
    rw [repaired, scan_eq htrim hread, hquote, lex, lexFrom_append, htrim]
    rw [Option.bind_some]
    cases hlast : lexFrom x ('"' :: r.missing) with
    | none =>
      show ((lexFrom x ('"' :: r.missing)).map _).bind _ = none
      rw [hlast]
      rfl
    | some last =>
      rw [hlast, Option.bind_some] at hfails
      show ((lexFrom x ('"' :: r.missing)).map _).bind _ = none
      rw [hlast, Option.map_some, Option.bind_some, hfails]
      rfl
  have hnone : fromStr (repaired (trim s)) = none := by
    rw [fromStr, OpenProxy.read, hlexNone]
    rfl
  rw [sanitize_of_nextValue_none hnext, hnone]
  rfl

end

/-- Arguments that are cut off in a string or after a member keep the members that are complete, unless the cut is inside an
escape sequence. -/
theorem keepsMembers_iff {s u : Text} {all : List (Text × Json)} (hdoc : read (s ++ u) = some (.object all))
    (hdepth : (Json.object all).depth ≤ 127) (hnodup : (all.map Prod.fst).Nodup)
    (hcut : EndsInString s ∨ EndsAfterMember s u) :
    completeMembers s <+: all ∧ (KeepsMembers s all ↔ ¬ (endsInEscape s = true ∧ completeMembers s ≠ [])) := by
  rcases hcut with ⟨x, ts, r, hlex, hread, hquote, hr⟩ | ⟨x, ts, vs, fs, stack, hlex, hend, hread, hword⟩
  · have hpart := partOf_endsInString hdoc hlex hread hquote
    have hmembers := completeMembers_of_inQuote hlex hread hquote
    have hescape : endsInEscape s = x.inEscape := by
      rw [endsInEscape, hlex]
      rfl
    refine ⟨hmembers ▸ hpart.members, ?_⟩
    rw [hescape]
    cases hx : x.inEscape with
    | false =>
      obtain ⟨w, rfl⟩ : ∃ w, x = .string w := by
        cases x with
        | string w => exact ⟨w, rfl⟩
        | between | word w => cases hquote
        | _ => cases hx
      have hkeeps := keepsMembers_of_string hdoc hdepth hnodup hlex hread hr
      simp [hkeeps]
    | true =>
      have hempty := sanitize_of_escape hlex hread hr hx
      constructor
      · rintro ⟨out, hout, hkeeps⟩ ⟨-, hne⟩
        rw [hempty] at hout
        cases hout
        obtain ⟨m, hm⟩ := List.exists_mem_of_ne_nil _ hne
        have hlost := hkeeps m hm
        rw [hmembers] at hm
        rw [getField_normalFields all, getField_of_nodup hnodup (hpart.members.subset hm)] at hlost
        cases hlost
      · intro hnot
        have hnil : completeMembers s = [] := by
          by_contra hne
          exact hnot ⟨rfl, hne⟩
        refine ⟨[], by rw [hempty]; rfl, fun m hm => ?_⟩
        rw [hnil] at hm
        cases hm
  · have hpart := partOf_endsAfterMember hdoc hlex hend hread hword
    have hmembers : completeMembers s = (ReadState.fields fs stack).members :=
      completeMembers_eq hlex (by rw [hend, Option.getD_some, hread])
    have hescape : endsInEscape s = false := by
      rw [endsInEscape, hlex]
      rcases lexEnd_eq_some hend with ⟨rfl, -⟩ | ⟨w, token, rfl, -, -⟩ <;> rfl
    have hkeeps := keepsMembers_of_member hdoc hdepth hnodup hlex hend hread hword
    refine ⟨hmembers ▸ hpart.members, ?_⟩
    simp [hescape, hkeeps]

/-- The arguments are JSON, and the value of arguments that are JSON; of arguments that are cut off they keep what is complete
unless the cut is inside an escape sequence; and text behind an object is left out. -/
theorem sanitizeToolCallArguments_spec (s : Text) :
    (∃ v, fromStr (sanitizeToolCallArguments s) = some v ∧ ∀ w, fromStr s = some w → v = w) ∧
      (∀ u all, read (s ++ u) = some (.object all) → (Json.object all).depth ≤ 127 → (all.map Prod.fst).Nodup →
        EndsInString s ∨ EndsAfterMember s u →
          completeMembers s <+: all ∧ (KeepsMembers s all ↔ ¬ (endsInEscape s = true ∧ completeMembers s ≠ []))) ∧
      ∀ rest fields, fromStr s = some (.object fields) →
        fromStr (sanitizeToolCallArguments (s ++ rest)) = some (.object fields) := by
  refine ⟨?_, fun u all hdoc hdepth hnodup hcut => keepsMembers_iff hdoc hdepth hnodup hcut,
    fun rest fields h => fromStr_sanitize_append h rest⟩
  obtain ⟨v, hv⟩ := exists_fromStr_sanitize s
  refine ⟨v, hv, fun w hw => ?_⟩
  rw [fromStr_sanitize_of_fromStr hw] at hv
  exact (Option.some.inj hv).symm

/-- A cut behind a backslash: the member in front of it is lost. -/
theorem not_keepsMembers_backslash :
    ¬ ∀ (s u : Text) (all : List (Text × Json)), read (s ++ u) = some (.object all) → (Json.object all).depth ≤ 127 →
      (all.map Prod.fst).Nodup → EndsInString s ∨ EndsAfterMember s u → KeepsMembers s all := by
  intro h
  have hdoc : read ("\x7b\"a\":true,\"b\":\"x\\".toList ++ "n\"\x7d".toList) =
      some (.object [(['a'], .bool true), (['b'], .string ['x', '\n'])]) := by decide +kernel
  have hcut : EndsInString "\x7b\"a\":true,\"b\":\"x\\".toList :=
    ⟨.escape ['x'], _, .value [.object [(['a'], .bool true)] ['b']], rfl, rfl, rfl, rfl⟩
  have hkeeps := h _ _ _ hdoc (by decide) (by decide) (Or.inl hcut)
  have hiff := (keepsMembers_iff hdoc (by decide) (by decide) (Or.inl hcut)).2
  exact hiff.mp hkeeps (by decide)

end OpenProxy.Formatting
