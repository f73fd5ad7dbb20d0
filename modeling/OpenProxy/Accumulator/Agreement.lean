import OpenProxy.Accumulator.Scan
import OpenProxy.Accumulator.Escapes

/-!
# The scan and the parser

Where the only member `delta` that is an object is that of the first choice, the scan finds the strings that the parser
reads there (`extractDeltaFields_agrees`).
-/

namespace OpenProxy.Accumulator

open Streaming (Key.choices Key.content Key.delta Key.reasoningContent Value afterColonToken afterColon_lexed)
open Streaming.StreamingState (afterColon)

/-! ### The first delta -/

theorem isName_delta : IsName Key.delta := isName_of_checks (by decide) (by decide) (by decide)

/-- What follows a colon and an opening brace. -/
def afterOpenBrace (t : Text) : Option Text :=
  match afterColon t with
  | some ('\x7b' :: rest) => some rest
  | _ => none

theorem afterOpenBrace_of_brace {t rest : Text} (h : afterColon t = some ('\x7b' :: rest)) :
    afterOpenBrace t = some rest := by
  rw [afterOpenBrace, h]
  rfl

theorem afterOpenBrace_of_other {t : Text} (h : ∀ rest, afterColon t ≠ some ('\x7b' :: rest)) :
    afterOpenBrace t = none := by
  unfold afterOpenBrace
  split
  · rename_i rest hbrace
    exact absurd hbrace (h rest)
  · rfl

def openBraceToken : List Token → Option (List Token)
  | .openBrace :: ts => some ts
  | _ => none

def afterOpenBraceToken (ts : List Token) : Option (List Token) := (afterColonToken ts).bind openBraceToken

/-- What follows the opening brace of the first member `delta` that is an object. -/
def findDelta : List Token → Option (List Token)
  | [] => none
  | token :: ts => if token.quotes Key.delta then (afterOpenBraceToken ts).or (findDelta ts) else findDelta ts

theorem findDelta_eq (ts : List Token) :
    findDelta ts = (afterName Key.delta ts).bind fun us => (afterOpenBraceToken us).or (findDelta us) := by
  induction ts with
  | nil => rfl
  | cons token ts ih =>
    rw [findDelta, afterName]
    split
    · rfl
    · exact ih

theorem findDeltaObject_eq (t : Text) :
    findDeltaObject t = (afterQuoted Key.delta t).bind fun rest =>
      (afterOpenBrace rest).or (findDeltaObject rest) := by
  have hquoted : afterQuoted Key.delta t = (find t "\"delta\"".toList).map fun idx => t.drop (idx + 7) := rfl
  rw [findDeltaObject.eq_def, hquoted]
  split
  · rename_i hnone
    rw [hnone]
    rfl
  · rename_i idx hsome
    rw [hsome, Option.map_some, Option.bind_some]
    split
    · rename_i rest hbrace
      rw [afterOpenBrace_of_brace hbrace, Option.some_or]
    · rename_i hother
      rw [afterOpenBrace_of_other hother, Option.none_or]

theorem afterOpenBrace_lexed {t : Text} {ts : List Token} (h : Lexed t ts) :
    Option.Rel Lexed (afterOpenBrace t) (afterOpenBraceToken ts) := by
  have hrel := afterColon_lexed h
  unfold afterOpenBrace afterOpenBraceToken
  generalize afterColon t = text at hrel ⊢
  generalize afterColonToken ts = found at hrel ⊢
  cases hrel with
  | none => exact .none
  | @some value us hvalue =>
    obtain ⟨t', rfl, hlexed⟩ := hvalue
    rcases hlexed.first with ⟨rfl, hnil⟩ | ⟨token, vs, rest, rfl, hbegins, hrest⟩
    · rw [hnil]
      exact .none
    · by_cases htoken : token = .openBrace
      · subst htoken
        rw [hbegins.of_punctuation (c := '\x7b') rfl]
        exact .some hrest
      · have hnone : (some (token :: vs)).bind openBraceToken = none := by
          cases token <;> first | rfl | exact absurd rfl htoken
        rw [hnone]
        split
        · rename_i rest' heq
          rw [Option.some_inj.mp heq] at hbegins
          exact absurd (hbegins.of_head rfl).1 htoken
        · exact .none

/-- The scan starts where the first delta does. -/
theorem findDelta_lexed {t : Text} {ts : List Token} (h : Lexed t ts) :
    Option.Rel Lexed (findDeltaObject t) (findDelta ts) := by
  induction hlen : t.length using Nat.strong_induction_on generalizing t ts with
  | _ len ih =>
    subst hlen
    have hrel := afterQuoted_lexed isName_delta h
    have hshort : ∀ rest, afterQuoted Key.delta t = some rest → rest.length < t.length := by
      intro rest hrest
      obtain ⟨idx, hfind, rfl⟩ := Option.map_eq_some_iff.mp hrest
      have hbegins := (firstAt_eq_some.mp hfind).2.1
      have hlt : idx < t.length := by
        by_contra hge
        rw [List.drop_eq_nil_of_le (Nat.le_of_not_lt hge)] at hbegins
        cases hbegins
      have hname : (quotedName Key.delta).length = 7 := rfl
      rw [List.length_drop, hname]
      omega
    rw [findDeltaObject_eq, findDelta_eq]
    generalize afterQuoted Key.delta t = text at hrel hshort ⊢
    generalize afterName Key.delta ts = found at hrel ⊢
    cases hrel with
    | none => exact .none
    | @some rest us hlexed =>
      have hbrace := afterOpenBrace_lexed hlexed
      have hlater := ih _ (hshort rest rfl) hlexed rfl
      rw [Option.bind_some, Option.bind_some]
      generalize afterOpenBrace rest = here at hbrace ⊢
      generalize afterOpenBraceToken us = here' at hbrace ⊢
      cases hbrace with
      | none => exact hlater
      | some hhere => exact .some hhere

/-! ### The first delta of a document -/

/-- The search finds the object, or goes on behind these tokens. -/
def Finds (object : Option (List (Text × Json))) (ts us : List Token) : Prop :=
  match object with
  | some fields => ∃ rest, findDelta ts = some (fieldTokens fields ++ .closeBrace :: rest)
  | none => findDelta ts = findDelta us

theorem Finds.or {a b : Option (List (Text × Json))} {ts us vs : List Token} (h : Finds a ts us) (h' : Finds b us vs) :
    Finds (a.or b) ts vs := by
  cases a with
  | some fields => exact h
  | none =>
    rw [Option.none_or]
    cases b with
    | some fields =>
      obtain ⟨rest, hrest⟩ := h'
      exact ⟨rest, h.trans hrest⟩
    | none => exact h.trans h'

theorem findDelta_skip {token : Token} {ts : List Token}
    (h : token.quotes Key.delta = true → afterOpenBraceToken ts = none) :
    findDelta (token :: ts) = findDelta ts := by
  rw [findDelta]
  split
  · rename_i hquotes
    rw [h hquotes, Option.none_or]
  · rfl

theorem afterOpenBraceToken_of_head {ts : List Token} (h : ts.head? ≠ some .colon) : afterOpenBraceToken ts = none := by
  rw [afterOpenBraceToken, afterColonToken_of_head h, Option.bind_none]

/-- A key is the name or does not quote it. -/
theorem quotes_key {key : Text} (h : '"' ∉ key) :
    (Token.string key).quotes Key.delta = true ↔ key = Key.delta := by
  rw [Token.quotes, decide_eq_true_eq]
  refine or_iff_left fun hsuffix => h ?_
  exact hsuffix.subset List.mem_cons_self

theorem finds_key {key : Text} (h : '"' ∉ key) (value : Json) (us : List Token) :
    Finds (if key = Key.delta then value.asObject else none) (.string key :: .colon :: (tokens value ++ us))
      (tokens value ++ us) := by
  have hcolon : findDelta (.colon :: (tokens value ++ us)) = findDelta (tokens value ++ us) :=
    findDelta_skip fun hquotes => by cases hquotes
  split
  · rename_i hname
    have hquotes := (quotes_key h).mpr hname
    cases value with
    | object fields =>
      refine ⟨us, ?_⟩
      rw [findDelta, if_pos hquotes, tokens, List.cons_append, List.append_assoc]
      rfl
    | null | bool b | number n | string s | array items =>
      refine (findDelta_skip fun _ => ?_).trans hcolon
      rfl
  · rename_i hname
    exact (findDelta_skip fun hquotes => absurd ((quotes_key h).mp hquotes) hname).trans hcolon

mutual

theorem finds_json : (v : Json) → {us : List Token} → (∀ fields ∈ v.objects, ∀ field ∈ fields, '"' ∉ field.1) →
    us.head? ≠ some .colon → Finds (v.firstObject Key.delta) (tokens v ++ us) us
  | .null, _, _, _ | .bool _, _, _, _ | .number _, _, _, _ => findDelta_skip fun hquotes => by cases hquotes
  | .string _, _, _, hus => findDelta_skip fun _ => afterOpenBraceToken_of_head hus
  | .array items, us, hkeys, _ => by
    rw [tokens, List.cons_append, List.append_assoc]
    have hclose : findDelta ([.closeBracket] ++ us) = findDelta us := findDelta_skip fun hquotes => by cases hquotes
    have hitems := @finds_items items ([.closeBracket] ++ us) hkeys (by simp)
    have hopen : Finds none (.openBracket :: (itemTokens items ++ ([.closeBracket] ++ us))) _ :=
      findDelta_skip fun hquotes => by cases hquotes
    have hall := hopen.or (hitems.or (b := none) hclose)
    rwa [Option.none_or, Option.or_none] at hall
  | .object fields, us, hkeys, _ => by
    rw [tokens, List.cons_append, List.append_assoc]
    have hclose : findDelta ([.closeBrace] ++ us) = findDelta us := findDelta_skip fun hquotes => by cases hquotes
    have hfields := @finds_fields fields ([.closeBrace] ++ us) (hkeys _ List.mem_cons_self)
      (fun fs hfs => hkeys fs (List.mem_cons_of_mem _ hfs)) (by simp)
    have hopen : Finds none (.openBrace :: (fieldTokens fields ++ ([.closeBrace] ++ us))) _ :=
      findDelta_skip fun hquotes => by cases hquotes
    have hall := hopen.or (hfields.or (b := none) hclose)
    rwa [Option.none_or, Option.or_none] at hall

theorem finds_items : (items : List Json) → {us : List Token} →
    (∀ fields ∈ Json.itemObjects items, ∀ field ∈ fields, '"' ∉ field.1) → us.head? ≠ some .colon →
    Finds (Json.firstOfItems Key.delta items) (itemTokens items ++ us) us
  | [], _, _, _ => rfl
  | [item], us, hkeys, hus => by
    rw [Json.firstOfItems, Json.firstOfItems, Option.or_none]
    exact finds_json item (fun fs hfs => hkeys fs (List.mem_append_left _ hfs)) hus
  | item :: item' :: items, us, hkeys, hus => by
    rw [Json.firstOfItems, itemTokens_cons_cons, List.append_assoc, List.cons_append]
    have hitem := @finds_json item (.comma :: (itemTokens (item' :: items) ++ us))
      (fun fs hfs => hkeys fs (List.mem_append_left _ hfs)) (by simp)
    have hrest := finds_items (item' :: items) (fun fs hfs => hkeys fs (List.mem_append_right _ hfs)) hus
    have hcomma : Finds none (.comma :: (itemTokens (item' :: items) ++ us)) _ :=
      findDelta_skip fun hquotes => by cases hquotes
    have hall := hcomma.or hrest
    rw [Option.none_or] at hall
    exact hitem.or hall

theorem finds_fields : (fields : List (Text × Json)) → {us : List Token} → (∀ field ∈ fields, '"' ∉ field.1) →
    (∀ fs ∈ Json.fieldObjects fields, ∀ field ∈ fs, '"' ∉ field.1) → us.head? ≠ some .colon →
    Finds (Json.firstOfFields Key.delta fields) (fieldTokens fields ++ us) us
  | [], _, _, _, _ => rfl
  | [(key, value)], us, hfields, hkeys, hus => by
    rw [Json.firstOfFields, Json.firstOfFields, Option.or_none]
    have hvalue := finds_json value (fun fs hfs => hkeys fs (List.mem_append_left _ hfs)) hus
    exact (finds_key (hfields _ List.mem_cons_self) value us).or hvalue
  | (key, value) :: field :: fields, us, hfields, hkeys, hus => by
    rw [Json.firstOfFields, fieldTokens_cons_cons, List.cons_append, List.cons_append, List.append_assoc, List.cons_append]
    have hvalue := @finds_json value (.comma :: (fieldTokens (field :: fields) ++ us))
      (fun fs hfs => hkeys fs (List.mem_append_left _ hfs)) (by simp)
    have hrest := finds_fields (field :: fields) (fun f hf => hfields f (List.mem_cons_of_mem _ hf))
      (fun fs hfs => hkeys fs (List.mem_append_right _ hfs)) hus
    have hcomma : Finds none (.comma :: (fieldTokens (field :: fields) ++ us)) _ :=
      findDelta_skip fun hquotes => by cases hquotes
    have hall := hcomma.or hrest
    rw [Option.none_or] at hall
    exact ((finds_key (hfields _ List.mem_cons_self) value _).or hvalue).or hall

end

/-! ### The parser -/

open Json (Segment)

/-- `choices[0].delta`. -/
def deltaPlace : List Segment := [.member Key.choices, .item 0, .member Key.delta]

/-- The string that a member of the delta has. -/
def deltaText (v : Json) (name : Text) : Option Text := (v.valueAt (deltaPlace ++ [.member name])).bind Json.asStr

/-- No other member `delta` is an object. -/
def OnlyDelta (v : Json) : Prop :=
  ∀ place fields, v.valueAt (place ++ [.member Key.delta]) = some (.object fields) →
    place ++ [.member Key.delta] = deltaPlace

theorem deltaText_of_object {v : Json} {fields : List (Text × Json)} (h : v.valueAt deltaPlace = some (.object fields))
    (name : Text) : deltaText v name = textOf fields name := by
  rw [deltaText, Json.valueAt_snoc, h, Option.bind_some]
  rfl

theorem deltaText_of_not_object {v : Json} (h : ∀ fields, v.valueAt deltaPlace ≠ some (.object fields)) (name : Text) :
    deltaText v name = none := by
  rw [deltaText, Json.valueAt_snoc]
  cases hdelta : v.valueAt deltaPlace with
  | none => rfl
  | some delta =>
    cases delta with
    | object fields => exact absurd hdelta (h fields)
    | _ => rfl

/-- The scan finds the strings of the document as it is written. -/
theorem extractDeltaFields_written {t : Text} {w : Json} (h : rawLex t = some (tokens w))
    (hquote : ∀ fields ∈ w.objects, ∀ field ∈ fields, '"' ∉ field.1) (hkeys : w.DistinctKeys) (honly : OnlyDelta w) :
    extractDeltaFields t = ⟨deltaText w Key.content, deltaText w Key.reasoningContent⟩ := by
  have hfinds := @finds_json w [] hquote (by simp)
  rw [List.append_nil] at hfinds
  have hrel := findDelta_lexed (lexed_of_rawLex h)
  unfold extractDeltaFields
  cases hfirst : w.firstObject Key.delta with
  | none =>
    have hnot : ∀ fields, w.valueAt deltaPlace ≠ some (.object fields) :=
      Json.valueAt_of_firstObject_eq_none hfirst [.member Key.choices, .item 0]
    rw [hfirst] at hfinds
    rw [show findDelta (tokens w) = none from hfinds] at hrel
    rw [deltaText_of_not_object hnot, deltaText_of_not_object hnot]
    generalize findDeltaObject t = start at hrel ⊢
    cases hrel
    rfl
  | some fields =>
    obtain ⟨place, hplace⟩ := Json.exists_valueAt_of_firstObject hkeys hfirst
    rw [honly place fields hplace] at hplace
    have hnodup := hkeys fields (Json.objects_valueAt hplace List.mem_cons_self)
    rw [hfirst] at hfinds
    obtain ⟨rest, hrest⟩ := hfinds
    rw [hrest] at hrel
    rw [deltaText_of_object hplace, deltaText_of_object hplace]
    generalize findDeltaObject t = start at hrel ⊢
    cases hrel with
    | some hlexed => exact scans_members rest rfl ⟨fun _ => rfl, fun _ => rfl⟩ hnodup _ hlexed

/-- Decoding what is written gives what is read. -/
theorem deltaText_decoded {w v : Json} (h : decodeJson w = some v) (hplain : w.PlainKeys) (name : Text) :
    (deltaText w name).map decodeJsonEscape = deltaText v name := by
  have hrel := Json.valueAt_decoded h hplain (deltaPlace ++ [.member name])
  unfold deltaText
  generalize w.valueAt _ = written at hrel ⊢
  generalize v.valueAt _ = value at hrel ⊢
  cases hrel with
  | none => rfl
  | @some written value hdecode =>
    cases written with
    | string raw =>
      obtain ⟨s, hs, rfl⟩ := Option.map_eq_some_iff.mp hdecode
      exact congrArg some (decodeJsonEscape_eq hs)
    | null | bool b | number n =>
      cases hdecode
      rfl
    | array items | object fields =>
      obtain ⟨_, -, rfl⟩ := Option.map_eq_some_iff.mp hdecode
      rfl

theorem onlyDelta_of_decoded {w v : Json} (h : decodeJson w = some v) (hplain : w.PlainKeys) (honly : OnlyDelta v) :
    OnlyDelta w := by
  intro place fields hplace
  have hrel := Json.valueAt_decoded h hplain (place ++ [.member Key.delta])
  have hvalue := honly place
  rw [hplace] at hrel
  generalize v.valueAt _ = value at hrel hvalue
  cases hrel with
  | some hdecode =>
    obtain ⟨fields', -, rfl⟩ := Option.map_eq_some_iff.mp hdecode
    exact hvalue fields' rfl

theorem child_normal (v : Json) (segment : Segment) : v.normal.child segment = (v.child segment).map Json.normal := by
  cases segment with
  | item i =>
    rw [Json.child, Json.child, Streaming.asArray_normal]
    cases v.asArray with
    | none => rfl
    | some items => exact List.getElem?_map
  | member key => exact Streaming.get_normal v key

theorem valueAt_normal (v : Json) (place : List Segment) : v.normal.valueAt place = (v.valueAt place).map Json.normal := by
  induction place generalizing v with
  | nil => rfl
  | cons segment place ih =>
    rw [Json.valueAt, Json.valueAt, child_normal]
    cases v.child segment with
    | none => rfl
    | some u => exact ih u

theorem deltaText_normal (v : Json) (name : Text) : deltaText v.normal name = deltaText v name := by
  rw [deltaText, deltaText, valueAt_normal]
  cases v.valueAt (deltaPlace ++ [.member name]) with
  | none => rfl
  | some u => exact Streaming.asStr_normal u

/-- The decoded fields are the strings of the delta. -/
def Agrees (t : Text) (v : Json) : Prop :=
  (extractDeltaFields t).content.map decodeJsonEscape = deltaText v Key.content ∧
    (extractDeltaFields t).reasoningContent.map decodeJsonEscape = deltaText v Key.reasoningContent

/-- The scan finds what the parser reads, where no key has an escape or is there twice and no other member `delta` is an
object. -/
theorem extractDeltaFields_agrees {t : Text} {w v : Json} (hraw : readRaw t = some w) (hread : read t = some v)
    (hplain : w.PlainKeys) (hkeys : v.DistinctKeys) (honly : OnlyDelta v) :
    Agrees t v.normal ∧ ∀ u, fromStr t = some u → Agrees t u := by
  have hagrees : Agrees t v.normal := by
    obtain ⟨hlex, hdecode⟩ := decodeJson_of_readRaw hraw hread
    have hwritten := extractDeltaFields_written hlex (Json.quote_not_mem_of_decoded hdecode hplain)
      (Json.distinctKeys_of_decoded hdecode hplain hkeys) (onlyDelta_of_decoded hdecode hplain honly)
    unfold Agrees
    rw [hwritten, deltaText_normal, deltaText_normal]
    exact ⟨deltaText_decoded hdecode hplain _, deltaText_decoded hdecode hplain _⟩
  refine ⟨hagrees, fun u hu => ?_⟩
  obtain ⟨v', hv', -, rfl⟩ := Json.fromStr_eq_some.mp hu
  rw [hread] at hv'
  cases hv'
  exact hagrees

/-! ### A chunk -/

/-- A chunk with one choice and nothing but its delta. -/
def deltaChunk (delta : Json) : Json :=
  .object [(Key.choices, .array [.object [(Key.delta, delta)]])]

theorem onlyDelta_deltaChunk {delta : Json} (h : delta.firstObject Key.delta = none) :
    OnlyDelta (deltaChunk delta) := by
  have hne : Key.choices ≠ Key.delta := by decide
  intro place fields hplace
  rcases place with _ | ⟨segment, place⟩
  · rw [List.nil_append, Json.valueAt, Json.child, deltaChunk, Json.get_object, Json.getField_singleton, if_neg hne] at hplace
    cases hplace
  obtain ⟨choices, hchoices, hplace⟩ := Option.bind_eq_some_iff.mp hplace
  cases segment with
  | item i => cases hchoices
  | member key =>
    rw [Json.child, deltaChunk, Json.get_object, Json.getField_singleton] at hchoices
    split_ifs at hchoices with hkey
    cases hchoices
    rcases place with _ | ⟨segment, place⟩
    · cases hplace
    obtain ⟨choice, hchoice, hplace⟩ := Option.bind_eq_some_iff.mp hplace
    cases segment with
    | member key => cases hchoice
    | item i =>
      rcases i with _ | i
      · cases hchoice
        rcases place with _ | ⟨segment, place⟩
        · rw [← hkey]
          rfl
        obtain ⟨value, hvalue, hplace⟩ := Option.bind_eq_some_iff.mp hplace
        cases segment with
        | item i => cases hvalue
        | member key' =>
          rw [Json.child, Json.get_object, Json.getField_singleton] at hvalue
          split_ifs at hvalue with hkey'
          cases hvalue
          exact absurd hplace (Json.valueAt_of_firstObject_eq_none h place fields)
      · cases hchoice

/-- An answer that quotes the name of its delta, as it is written. -/
def quotingText : Text := "\x7b \"choices\" : [\x7b\"delta\" : \x7b\"content\":\"\\\"delta\\\": \x7b\" \x7d\x7d] \x7d".toList

theorem quotingText_agrees :
    Agrees quotingText (deltaChunk (.object [(Key.content, .string "\"delta\": \x7b".toList)])).normal := by
  have hlex : rawLex quotingText =
      some (tokens (deltaChunk (.object [(Key.content, .string "\\\"delta\\\": \x7b".toList)]))) := by
    decide +kernel
  have hraw : readRaw quotingText =
      some (deltaChunk (.object [(Key.content, .string "\\\"delta\\\": \x7b".toList)])) := by
    rw [readRaw, hlex, Option.bind_some, readTokens_tokens]
  have hlexed : lex quotingText =
      some (tokens (deltaChunk (.object [(Key.content, .string "\"delta\": \x7b".toList)]))) := by
    decide +kernel
  have hread : read quotingText = some (deltaChunk (.object [(Key.content, .string "\"delta\": \x7b".toList)])) := by
    rw [read, hlexed, Option.bind_some, readTokens_tokens]
  exact (extractDeltaFields_agrees hraw hread (by decide +kernel) (by decide +kernel)
    (onlyDelta_deltaChunk (by rfl))).1

end OpenProxy.Accumulator
