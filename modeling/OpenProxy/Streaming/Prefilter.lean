import OpenProxy.Streaming.Processor
import OpenProxy.Data.JsonScan

/-!
# The filter before the parser

A chunk is parsed only if `sse_payload_needs_parse` says that it has a usage or a finish reason.  The filter looks at the
first place at which the text has the name in quotes, which need not be the member: it finds the metadata of a chunk exactly
if one of the two names is first quoted by a member that has a value (`neverHides_iff`).
-/

namespace OpenProxy.Streaming

open Json StreamingState

def Key.usage : Text := "usage".toList

/-! ### After a name -/

theorem isName_usage : IsName Key.usage := isName_of_checks (by decide) (by decide) (by decide)

theorem isName_finishReason : IsName Key.finishReason := isName_of_checks (by decide) (by decide) (by decide)

/-- What follows a colon. -/
def afterColonToken : List Token → Option (List Token)
  | .colon :: ts => some ts
  | _ => none

/-- A value, without the spaces before it, and the tokens from there on. -/
def Value (value : Text) (ts : List Token) : Prop := ∃ t, value = t.dropWhile isAsciiWhitespace ∧ Lexed t ts

theorem afterColon_lexed {t : Text} {ts : List Token} (h : Lexed t ts) :
    Option.Rel Value (afterColon t) (afterColonToken ts) := by
  unfold afterColon
  rcases h.first with ⟨rfl, hnil⟩ | ⟨token, us, rest, rfl, hbegins, hrest⟩
  · rw [hnil]
    exact .none
  · by_cases htoken : token = .colon
    · subst htoken
      rw [hbegins.of_punctuation (c := ':') rfl]
      exact .some ⟨rest, rfl, hrest⟩
    · have hnone : afterColonToken (token :: us) = none := by
        cases token <;> first | rfl | exact absurd rfl htoken
      rw [hnone]
      split
      · rename_i rest' heq
        rw [heq] at hbegins
        exact absurd (hbegins.of_head rfl).1 htoken
      · exact .none

/-- What the filter looks at: the value behind the first place of a name. -/
theorem value_lexed {n payload : Text} {ts : List Token} (hname : IsName n) (h : rawLex payload = some ts) :
    Option.Rel Value ((afterQuoted n payload).bind afterColon) ((afterName n ts).bind afterColonToken) := by
  have hrel := afterQuoted_lexed hname (lexed_of_rawLex h)
  generalize afterQuoted n payload = text at hrel ⊢
  generalize afterName n ts = found at hrel ⊢
  cases hrel with
  | none => exact .none
  | some hlexed => exact afterColon_lexed hlexed

theorem bind_find (n payload : Text) (f : Text → Option Text) :
    ((find payload (quotedName n)).bind fun idx => f (payload.drop (idx + (quotedName n).length))) =
      (afterQuoted n payload).bind f := by
  rw [afterQuoted, Option.bind_map]
  rfl

/-! ### The value of a usage -/

/-- The first place of `usage` is a member with an object. -/
def UsageFirst (ts : List Token) : Prop := ∃ rest, afterName Key.usage ts = some (.colon :: .openBrace :: rest)

theorem checkUsagePresent_iff {payload : Text} {ts : List Token} (h : rawLex payload = some ts) :
    checkUsagePresent payload = true ↔ UsageFirst ts := by
  have hfind : ((find payload "\"usage\"".toList).bind fun idx => afterColon (payload.drop (idx + 7))) =
      (afterQuoted Key.usage payload).bind afterColon := bind_find Key.usage payload afterColon
  have hvalue := value_lexed isName_usage h
  have hfirst : UsageFirst ts ↔ ∃ rest, (afterName Key.usage ts).bind afterColonToken = some (.openBrace :: rest) := by
    unfold UsageFirst
    refine exists_congr fun rest => ?_
    cases afterName Key.usage ts with
    | none => simp
    | some us =>
      cases us with
      | nil => simp [afterColonToken]
      | cons token us => cases token <;> simp [afterColonToken]
  rw [hfirst]
  unfold checkUsagePresent
  rw [hfind]
  generalize (afterQuoted Key.usage payload).bind afterColon = text at hvalue ⊢
  generalize (afterName Key.usage ts).bind afterColonToken = found at hvalue ⊢
  cases hvalue with
  | none => simp
  | @some value us hvalue =>
    obtain ⟨t, rfl, hlexed⟩ := hvalue
    simp only [beq_iff_eq, Option.some.injEq]
    rcases hlexed.first with ⟨rfl, hnil⟩ | ⟨token, us, rest, rfl, hbegins, -⟩
    · simp [hnil]
    · constructor
      · intro hhead
        obtain ⟨value, hvalue⟩ : ∃ value, t.dropWhile isAsciiWhitespace = '\x7b' :: value := by
          cases hdrop : t.dropWhile isAsciiWhitespace with
          | nil => simp [hdrop] at hhead
          | cons c value =>
            rw [hdrop] at hhead
            cases hhead
            exact ⟨value, rfl⟩
        rw [hvalue] at hbegins
        exact ⟨us, by rw [(hbegins.of_head rfl).1]⟩
      · rintro ⟨rest', heq⟩
        cases heq
        rw [hbegins.of_punctuation (c := '\x7b') rfl]
        rfl

/-! ### The value of a finish reason -/

/-- The first place of `finish_reason` is a member with a value that is not null. -/
def FinishReasonFirst (ts : List Token) : Prop :=
  ∃ token rest, afterName Key.finishReason ts = some (.colon :: token :: rest) ∧ token ≠ .null

/-- The characters after which `null` is a whole word. -/
def endsNull (c : Char) : Bool := [',', '\x7d', ']', ' ', '\t', '\r', '\n'].contains c

theorem isWordChar_of_endsNull {c : Char} (h : endsNull c = true) : isWordChar c = false := by
  simp only [endsNull, List.contains_iff_mem, List.mem_cons, List.not_mem_nil, or_false] at h
  rcases h with rfl | rfl | rfl | rfl | rfl | rfl | rfl <;> decide

/-- What the filter takes for a null. -/
def isNullText (value : Text) : Bool := "null".toList.isPrefixOf value && (value.drop 4).head?.all endsNull

theorem takeWhile_of_isNullText {value : Text} (h : isNullText value = true) :
    value.takeWhile isWordChar = ['n', 'u', 'l', 'l'] := by
  simp only [isNullText, Bool.and_eq_true, List.isPrefixOf_iff_prefix] at h
  obtain ⟨⟨rest, rfl⟩, hend⟩ := h
  refine takeWhile_word (by decide) fun c hc => isWordChar_of_endsNull ?_
  have hdrop : ("null".toList ++ rest).drop 4 = rest := rfl
  rw [hdrop] at hend
  rw [Option.mem_def.mp hc] at hend
  exact hend

/-- Behind a null that is a token there is the end of the word. -/
theorem isNullText_of_begins {value rest : Text} {ts : List Token} (hbegins : Begins value .null rest)
    (hlexed : Lexed rest ts) (hnext : ∀ next ∈ ts.head?, next = .comma ∨ next = .closeBracket ∨ next = .closeBrace) :
    isNullText value = true := by
  obtain ⟨hvalue, hend⟩ : value = ['n', 'u', 'l', 'l'] ++ rest ∧ ∀ c ∈ rest.head?, isWordChar c = false := by
    cases hbegins with
    | punctuation hc =>
      unfold punctuation at hc
      split_ifs at hc
      all_goals cases hc
    | @word w _ _ hne hw htoken hend =>
      have hw' : w = ['n', 'u', 'l', 'l'] := by
        by_contra hne'
        unfold wordToken at htoken
        split_ifs at htoken
        all_goals cases htoken
      exact ⟨by rw [hw'], hend⟩
  have hhead : rest.head?.all endsNull = true := by
    cases hlexed with
    | nil => rfl
    | @space c t ts hc h =>
      simp only [isJsonWhitespace, Bool.or_eq_true, beq_iff_eq] at hc
      rcases hc with ((rfl | rfl) | rfl) | rfl <;> rfl
    | @punctuation c token t ts hc h =>
      have hc' := character_of_punctuation hc
      rcases hnext token rfl with rfl | rfl | rfl
      · rw [← hc']
        rfl
      · rw [← hc']
        rfl
      · rw [← hc']
        rfl
    | @string raw t ts hraw h => rcases hnext _ rfl with heq | heq | heq <;> cases heq
    | @word w t token ts hne hw htoken _ h =>
      cases w with
      | nil => exact absurd rfl hne
      | cons c w =>
        have hword := List.all_eq_true.mp hw c List.mem_cons_self
        rw [hend c rfl] at hword
        cases hword
  rw [hvalue]
  simp only [isNullText, Bool.and_eq_true]
  exact ⟨rfl, hhead⟩

theorem checkFinishReasonNonNull_iff {payload : Text} {w : Json} (h : rawLex payload = some (tokens w)) :
    checkFinishReasonNonNull payload = true ↔ FinishReasonFirst (tokens w) := by
  have hfind : ((find payload "\"finish_reason\"".toList).bind fun idx => afterColon (payload.drop (idx + 15))) =
      (afterQuoted Key.finishReason payload).bind afterColon := bind_find Key.finishReason payload afterColon
  have hvalue := value_lexed isName_finishReason h
  have hfirst : FinishReasonFirst (tokens w) ↔
      ∃ token rest, (afterName Key.finishReason (tokens w)).bind afterColonToken = some (token :: rest) ∧ token ≠ .null := by
    unfold FinishReasonFirst
    refine exists_congr fun token => exists_congr fun rest => and_congr_left fun _ => ?_
    cases afterName Key.finishReason (tokens w) with
    | none => simp
    | some us =>
      cases us with
      | nil => simp [afterColonToken]
      | cons token us => cases token <;> simp [afterColonToken]
  have hnext : ∀ rest, (afterName Key.finishReason (tokens w)).bind afterColonToken = some (.null :: rest) →
      ∀ next ∈ rest.head?, next = .comma ∨ next = .closeBracket ∨ next = .closeBrace := by
    intro rest hrest
    obtain ⟨us, hname, hcolon⟩ := Option.bind_eq_some_iff.mp hrest
    obtain ⟨before, raw, hsplit⟩ := exists_afterName hname
    have hus : us = .colon :: .null :: rest := by
      unfold afterColonToken at hcolon
      split at hcolon
      · cases hcolon
        rfl
      · cases hcolon
    have hbefore : tokens w = (before ++ [.string raw, .colon]) ++ .null :: rest := by
      rw [hsplit, hus, List.append_assoc]
      rfl
    exact follows_word hbefore rfl
  rw [hfirst]
  unfold checkFinishReasonNonNull
  rw [hfind]
  generalize (afterQuoted Key.finishReason payload).bind afterColon = text at hvalue ⊢
  generalize (afterName Key.finishReason (tokens w)).bind afterColonToken = found at hvalue hnext ⊢
  cases hvalue with
  | none => simp
  | @some value us hvalue =>
    obtain ⟨t, rfl, hlexed⟩ := hvalue
    show (!(t.dropWhile isAsciiWhitespace).isEmpty && !isNullText (t.dropWhile isAsciiWhitespace)) = true ↔ _
    simp only [Option.some.injEq]
    rcases hlexed.first with ⟨rfl, hnil⟩ | ⟨token, us, rest, rfl, hbegins, hrest⟩
    · simp [hnil]
    · have hne : (t.dropWhile isAsciiWhitespace).isEmpty = false :=
        List.isEmpty_eq_false_iff.mpr hbegins.ne_nil
      have hnull : isNullText (t.dropWhile isAsciiWhitespace) = true ↔ token = .null := by
        constructor
        · intro htext
          have htoken := hbegins.of_takeWhile (by simp) (takeWhile_of_isNullText htext)
          cases htoken
          rfl
        · rintro rfl
          exact isNullText_of_begins hbegins hrest (hnext us rfl)
      rw [hne, Bool.not_false, Bool.true_and, Bool.not_eq_true', ← Bool.not_eq_true, hnull]
      constructor
      · intro htoken
        exact ⟨token, us, rfl, htoken⟩
      · rintro ⟨token', rest', heq, htoken⟩
        cases heq
        exact htoken

/-! ### Chunks with metadata -/

/-- The chunk has a usage, or a choice with a finish reason. -/
def HasMetadata (v : Json) : Prop :=
  (∃ fields, v.get Key.usage = some (object fields)) ∨ ∃ cs, choices v = some cs ∧ ∃ choice ∈ cs, hasFinishReason choice = true

/-- A chunk with metadata is parsed, on the path on which they are recorded, whatever line it is taken from. -/
def NeverHides (payload : Text) (v : Json) : Prop :=
  HasMetadata v → ssePayloadNeedsParse payload = true ∧
    ∀ (ctx : StreamContext) (s : StreamingState) (line : Text),
      s.processOpenaiPayload ctx line payload = s.processOpenaiMetadataChunk ctx line payload

/-- The first place of one of the names is a member with a value. -/
def MetadataFirst (payload : Text) : Prop := ∃ ts, rawLex payload = some ts ∧ (UsageFirst ts ∨ FinishReasonFirst ts)

theorem ssePayloadNeedsParse_iff {payload : Text} {v : Json} (hread : read payload = some v) :
    ssePayloadNeedsParse payload = true ↔ MetadataFirst payload := by
  obtain ⟨w, hlex, -⟩ := exists_written hread
  unfold ssePayloadNeedsParse MetadataFirst
  rw [Bool.or_eq_true, checkUsagePresent_iff hlex, checkFinishReasonNonNull_iff hlex, hlex]
  simp only [Option.some.injEq, exists_eq_left']

theorem ne_done_of_read {payload : Text} {v : Json} (hread : read payload = some v) : payload ≠ "[DONE]".toList := by
  rintro rfl
  have hnone : (lex "[DONE]".toList).isNone = true := by decide +kernel
  rw [read, Option.isNone_iff_eq_none.mp hnone] at hread
  cases hread

theorem processOpenaiPayload_of_needsParse {payload : Text} {v : Json} (hread : read payload = some v)
    (hneeds : ssePayloadNeedsParse payload = true) (hnoError : Upstream.parseInlineSseError payload = none)
    (ctx : StreamContext) (s : StreamingState) (line : Text) :
    s.processOpenaiPayload ctx line payload = s.processOpenaiMetadataChunk ctx line payload := by
  unfold processOpenaiPayload
  rw [if_neg (ne_done_of_read hread), hnoError]
  dsimp only
  rw [hneeds, Bool.true_or, if_pos rfl]

/-- The stream has failed after an error, and has not after a line without a chunk. -/
theorem processOpenaiPayload_of_error {payload : Text} {v : Json} (hread : read payload = some v)
    {parsed : Upstream.ParsedInlineError} (herror : Upstream.parseInlineSseError payload = some parsed)
    (ctx : StreamContext) {s : StreamingState} (hs : s.failed = none) :
    s.processOpenaiPayload ctx [] payload ≠ s.processOpenaiMetadataChunk ctx [] payload := by
  have hskip : s.processOpenaiMetadataChunk ctx [] payload = ([], s) := by
    have hline : Upstream.parseSseDataOrDone [] = .skip := by decide
    unfold processOpenaiMetadataChunk Upstream.Openai.parseOpenaiSseLine
    rw [hline]
  unfold processOpenaiPayload
  rw [if_neg (ne_done_of_read hread), herror, hskip]
  intro heq
  have hfailed := congrArg (fun r => r.2.failed) heq
  rw [hs] at hfailed
  cases hfailed

/-- The last chunk of an answer. -/
def stopChunk : Json :=
  object [(Key.choices, array [object [(Key.finishReason, string "stop".toList)]])]

/-- A chunk that has the word usage as its content, and then a usage. -/
def usageInContent : Json :=
  object
    [(Key.choices, array [object [(Key.delta, object [(Key.content, string Key.usage)]), (Key.finishReason, null)]]),
      (Key.usage, object [("prompt_tokens".toList, number (.ofNat 1))])]

end OpenProxy.Streaming
