import OpenProxy.Data.JsonPlaces
import OpenProxy.Upstream.Anthropic

/-!
# Errors inside a stream

The model of `parse_inline_sse_error` of `sse/mod.rs`.  The payload is searched for the members before it is read, and it
is read into borrowed strings, which serde gives only for a string without escapes.  An error is recognised exactly if the
payload is written so that neither matters (`recognised_iff`).
-/

namespace OpenProxy.Upstream

open Json
open Option (bind_eq_some_iff map_eq_some_iff)

/-! ### Borrowed fields -/

/-- `&'a str`: a string that is written without escapes. -/
def borrowedStr : Json → Option Text
  | string raw => if '\\' ∈ raw then none else some raw
  | _ => none

/-- The members of an object, with the keys decoded and the values as they are written. -/
def decodeKeys : List (Text × Json) → Option (List (Text × Json))
  | [] => some []
  | (raw, value) :: fields =>
    (decodeString raw).bind fun key => (decodeKeys fields).map fun members => (key, value) :: members

/-- A structure whose fields are read from a document as it is written. -/
def writtenStruct (w : Json) : Option Json :=
  match w with
  | object fields => (decodeKeys fields).map object
  | w => some w

/-- `InlineErrorCodeProbe`. -/
inductive InlineErrorCodeProbe
  | num (n : Nat)
  | str (s : Text)

def InlineErrorCodeProbe.decode (w : Json) : Option InlineErrorCodeProbe :=
  ((decodeU64 w).map .num).or ((borrowedStr w).map .str)

/-- `InlineErrorObjProbe`. -/
structure InlineErrorObjProbe where
  code : Option InlineErrorCodeProbe
  message : Option Text
  type : Option Text

def InlineErrorObjProbe.decode (w : Json) : Option InlineErrorObjProbe := do
  let v ← writtenStruct w
  let code ← optionField InlineErrorCodeProbe.decode "code".toList 0 3 false v
  let message ← optionField borrowedStr "message".toList 1 3 false v
  let type ← optionField borrowedStr "type".toList 2 3 false v
  return ⟨code, message, type⟩

/-- `InlineErrorPayload`. -/
inductive InlineErrorPayload
  | obj (o : InlineErrorObjProbe)
  | str (s : Text)

/-- An untagged value is read as a whole before one of its forms is tried. -/
def InlineErrorPayload.decode (w : Json) : Option InlineErrorPayload :=
  if (decodeJson w).isSome && w.depth ≤ 126 then
    ((InlineErrorObjProbe.decode w).map .obj).or ((borrowedStr w).map .str)
  else none

/-- `InlineErrorProbe`. -/
structure InlineErrorProbe where
  choices : Option (List Json)
  error : Option InlineErrorPayload
  provider : Option Text

def InlineErrorProbe.decode (w : Json) : Option InlineErrorProbe := do
  let v ← writtenStruct w
  let choices ← optionField asArray "choices".toList 0 3 false v
  let error ← optionField InlineErrorPayload.decode "error".toList 1 3 false v
  let provider ← optionField borrowedStr "provider".toList 2 3 false v
  return ⟨choices, error, provider⟩

/-! ### Status codes -/

/-- The first pattern of which a keyword is found. -/
def findPattern (patterns : List (List String × Nat)) (s : Text) : Option Nat :=
  patterns.findSome? fun pattern => if pattern.1.any fun k => (find s k.toList).isSome then some pattern.2 else none

/-- `CODE_PATTERNS`. -/
def codePatterns : List (List String × Nat) :=
  [(["rate_limit", "quota", "resource_exhausted"], 429),
    (["content_filter", "safety", "policy", "blocked", "invalid", "bad_request", "malformed"], 400),
    (["auth", "unauthorized", "permission", "forbidden"], 403)]

/-- `TYPE_PATTERNS`. -/
def typePatterns : List (List String × Nat) :=
  [(["rate_limit"], 429), (["content_filter", "safety", "invalid_request"], 400), (["auth"], 401)]

/-- `str::parse::<u16>`. -/
def parseU16 (s : Text) : Option Nat :=
  let digits := if s.head? = some '+' then s.tail else s
  if !digits.isEmpty && digits.all Char.isDigit && digitsValue digits < 2 ^ 16 then some (digitsValue digits) else none

/-- The code of an error object. -/
def resolveCode (code : Option InlineErrorCodeProbe) : Nat :=
  match code with
  | some (.num n) => if 400 ≤ n ∧ n ≤ 599 then n else 502
  | some (.str s) =>
    match (parseU16 s).filter fun n => 400 ≤ n ∧ n ≤ 599 with
    | some n => n
    | none => (findPattern codePatterns s).getD 502
  | none => 502

/-- The code of an error object, with its type if the code says nothing. -/
def InlineErrorObjProbe.statusCode (obj : InlineErrorObjProbe) : Nat :=
  let resolved := resolveCode obj.code
  if resolved = 502 then ((obj.type.bind (findPattern typePatterns)).getD resolved) else resolved

/-! ### Recognising an error -/

/-- `ParsedInlineError`. -/
structure ParsedInlineError where
  statusCode : Nat
  message : Text
  provider : Option Text
  deriving DecidableEq

/-- The check before the payload is read. -/
def mayHoldError (jsonPayload : Text) : Bool :=
  (find jsonPayload "\"error\"".toList).isSome &&
    ((find jsonPayload "\"choices\":".toList).isNone || (find jsonPayload "\"choices\":[]".toList).isSome)

/-- The parts of the error that the payload names. -/
def InlineErrorPayload.parsed (provider : Option Text) : InlineErrorPayload → ParsedInlineError
  | .str msg => ⟨502, msg, provider⟩
  | .obj o => ⟨o.statusCode, o.message.getD "unknown upstream error in SSE stream".toList, provider⟩

/-- `parse_inline_sse_error`. -/
def parseInlineSseError (jsonPayload : Text) : Option ParsedInlineError :=
  if !mayHoldError jsonPayload then none
  else
    ((readRaw jsonPayload).bind InlineErrorProbe.decode).bind fun probe =>
      if !(probe.choices.getD []).isEmpty then none
      else
        probe.error.map (·.parsed probe.provider)

/-! ### What an error is -/

/-- The document has an error with the message. -/
def ErrorMessage (v : Json) (msg : Text) : Prop :=
  v.get "error".toList = some (string msg) ∨
    ∃ fields, v.get "error".toList = some (object fields) ∧ (object fields).get "message".toList = some (string msg)

def NoChoices (v : Json) : Prop := v.get "choices".toList = none ∨ v.get "choices".toList = some (array [])

def HasChoices (v : Json) : Prop := ∃ item items, v.get "choices".toList = some (array (item :: items))

/-- The error of a payload is recognised, and a payload with choices has none. -/
structure RecognisesErrors (jsonPayload : Text) (v : Json) : Prop where
  error : ∀ msg, ErrorMessage v msg → NoChoices v → ∃ e, parseInlineSseError jsonPayload = some e ∧ e.message = msg
  choices : HasChoices v → parseInlineSseError jsonPayload = none

/-- No name has two members. -/
def Once (names : List String) (members : List (Text × Json)) : Prop :=
  ∀ name ∈ names, (members.filter fun member => member.1 == name.toList).length ≤ 1

/-- A string that is written without escapes. -/
def IsPlain (w : Json) : Prop := ∃ raw, w = string raw ∧ '\\' ∉ raw

/-- An error object that is written without escapes, and whose code is a `u64` or a string. -/
structure PlainObject (w : Json) (members : List (Text × Json)) : Prop where
  keys : ∃ fields, w = object fields ∧ decodeKeys fields = some members
  depth : w.depth ≤ 126
  once : Once ["code", "message", "type"] members
  code : ∀ u, getField members "code".toList = some u → u = null ∨ (decodeU64 u).isSome ∨ IsPlain u
  message : ∀ u, getField members "message".toList = some u → IsPlain u
  type : ∀ u, getField members "type".toList = some u → u = null ∨ IsPlain u

/-- A payload in which the members are found, and which is written without escapes where it matters. -/
structure WrittenPlainly (jsonPayload : Text) (members : List (Text × Json)) : Prop where
  keys : ∃ fields, readRaw jsonPayload = some (object fields) ∧ decodeKeys fields = some members
  error_found : (find jsonPayload "\"error\"".toList).isSome
  choices_found : (find jsonPayload "\"choices\":".toList).isSome → (find jsonPayload "\"choices\":[]".toList).isSome
  once : Once ["choices", "error", "provider"] members
  provider : ∀ u, getField members "provider".toList = some u → u = null ∨ IsPlain u
  error : ∀ u, getField members "error".toList = some u → IsPlain u ∨ ∃ inner, PlainObject u inner

/-! ### Members as they are written -/

/-- Members with the values as they are written, and the members that are read. -/
def Written (members fields : List (Text × Json)) : Prop :=
  List.Forall₂ (fun member field => member.1 = field.1 ∧ decodeJson member.2 = some field.2) members fields

theorem written_of_reads {fields fields' : List (Text × Json)} (h : Reads fields fields') :
    ∃ members, decodeKeys fields = some members ∧ Written members fields' := by
  induction h with
  | nil => exact ⟨[], rfl, .nil⟩
  | @cons field field' fields fields' hfield _ ih =>
    obtain ⟨members, hkeys, hwritten⟩ := ih
    exact ⟨(field'.1, field.2) :: members, by rw [decodeKeys, hfield.1, Option.bind_some, hkeys]; rfl,
      .cons ⟨rfl, hfield.2⟩ hwritten⟩

theorem Written.getField {members fields : List (Text × Json)} (h : Written members fields) (key : Text) :
    Option.Rel (fun w v => decodeJson w = some v) (Json.getField members key) (Json.getField fields key) := by
  induction h with
  | nil => exact .none
  | @cons member field members fields hfield _ ih =>
    obtain ⟨k, w⟩ := member
    obtain ⟨k', v⟩ := field
    rw [getField_cons, getField_cons, show k = k' from hfield.1]
    generalize Json.getField members key = found at ih ⊢
    generalize Json.getField fields key = found' at ih ⊢
    cases ih with
    | none =>
      rw [Option.none_or, Option.none_or]
      split
      · exact .some hfield.2
      · exact .none
    | some hvalue => exact .some hvalue

theorem memberOf_eq (members : List (Text × Json)) (key : Text) : memberOf members key =
    if (members.filter fun member => member.1 == key).length ≤ 1 then some (getField members key) else none := by
  cases h : memberOf members key with
  | some v =>
    rw [getField_of_memberOf h, if_pos]
    unfold memberOf at h
    split at h
    · rename_i hnil
      simp [hnil]
    · rename_i heq
      simp [heq]
    · cases h
  | none =>
    rw [if_neg]
    unfold memberOf at h
    split at h
    · cases h
    · cases h
    · rename_i hnil hone
      intro hle
      match hlist : members.filter fun member => member.1 == key with
      | [] => exact hnil hlist
      | [(k, v)] => exact hone k v hlist
      | _ :: _ :: _ =>
        rw [hlist] at hle
        simp at hle

/-- What an optional field is read as. -/
theorem optionField_eq_some {α : Type} {decode : Json → Option α} {key : Text} {position count : Nat}
    {default : Bool} {members : List (Text × Json)} {r : Option α} :
    optionField decode key position count default (object members) = some r ↔
      (members.filter fun member => member.1 == key).length ≤ 1 ∧
        asOptional decode (getField members key) = some r := by
  rw [optionField, structMember, memberOf_eq]
  split <;> simp_all

theorem borrowedStr_eq_some {w : Json} {s : Text} : borrowedStr w = some s ↔ w = string s ∧ '\\' ∉ s := by
  unfold borrowedStr
  split
  · rename_i raw
    split
    · rename_i hescape
      constructor
      · intro h
        cases h
      · rintro ⟨heq, hplain⟩
        cases heq
        exact absurd hescape hplain
    · rename_i hplain
      constructor
      · intro h
        cases h
        exact ⟨rfl, hplain⟩
      · rintro ⟨heq, _⟩
        cases heq
        rfl
  · rename_i hother
    constructor
    · intro h
      cases h
    · rintro ⟨rfl, _⟩
      exact absurd rfl (hother s)

theorem isSome_borrowedStr {w : Json} : (borrowedStr w).isSome ↔ IsPlain w := by
  rw [Option.isSome_iff_exists]
  exact exists_congr fun s => borrowedStr_eq_some

/-- An optional field is read if its value is null or can be read. -/
theorem isSome_asOptional {α : Type} {decode : Json → Option α} {m : Option Json} :
    (asOptional decode m).isSome ↔ ∀ u, m = some u → u = null ∨ (decode u).isSome := by
  cases m with
  | none => simp [asOptional]
  | some u => cases u <;> simp [asOptional]

/-! ### Reading the probe -/

theorem writtenStruct_object {fields members : List (Text × Json)} (hkeys : decodeKeys fields = some members) :
    writtenStruct (object fields) = some (object members) := by
  rw [writtenStruct, hkeys]
  rfl

theorem objDecode_eq_some {fields members : List (Text × Json)} {o : InlineErrorObjProbe}
    (hkeys : decodeKeys fields = some members) : InlineErrorObjProbe.decode (object fields) = some o ↔
      Once ["code", "message", "type"] members ∧
        asOptional InlineErrorCodeProbe.decode (getField members "code".toList) = some o.code ∧
        asOptional borrowedStr (getField members "message".toList) = some o.message ∧
        asOptional borrowedStr (getField members "type".toList) = some o.type := by
  unfold InlineErrorObjProbe.decode Once
  rw [writtenStruct_object hkeys]
  simp only [Option.bind_eq_bind, Option.bind_some, bind_eq_some_iff, optionField_eq_some, List.forall_mem_cons,
    Option.pure_def, Option.some.injEq]
  constructor
  · rintro ⟨code, ⟨hcode, hc⟩, message, ⟨hmessage, hm⟩, type, ⟨htype, ht⟩, rfl⟩
    exact ⟨⟨hcode, hmessage, htype, by simp⟩, hc, hm, ht⟩
  · rintro ⟨⟨hcode, hmessage, htype, _⟩, hc, hm, ht⟩
    exact ⟨_, ⟨hcode, hc⟩, _, ⟨hmessage, hm⟩, _, ⟨htype, ht⟩, rfl⟩

theorem probeDecode_eq_some {fields members : List (Text × Json)} {probe : InlineErrorProbe}
    (hkeys : decodeKeys fields = some members) : InlineErrorProbe.decode (object fields) = some probe ↔
      Once ["choices", "error", "provider"] members ∧
        asOptional asArray (getField members "choices".toList) = some probe.choices ∧
        asOptional InlineErrorPayload.decode (getField members "error".toList) = some probe.error ∧
        asOptional borrowedStr (getField members "provider".toList) = some probe.provider := by
  unfold InlineErrorProbe.decode Once
  rw [writtenStruct_object hkeys]
  simp only [Option.bind_eq_bind, Option.bind_some, bind_eq_some_iff, optionField_eq_some, List.forall_mem_cons,
    Option.pure_def, Option.some.injEq]
  constructor
  · rintro ⟨choices, ⟨hchoices, hc⟩, error, ⟨herror, he⟩, provider, ⟨hprovider, hp⟩, rfl⟩
    exact ⟨⟨hchoices, herror, hprovider, by simp⟩, hc, he, hp⟩
  · rintro ⟨⟨hchoices, herror, hprovider, _⟩, hc, he, hp⟩
    exact ⟨_, ⟨hchoices, hc⟩, _, ⟨herror, he⟩, _, ⟨hprovider, hp⟩, rfl⟩

/-- A string is an error if it is written without escapes. -/
theorem payloadDecode_string {raw msg : Text} (h : decodeString raw = some msg) {p : InlineErrorPayload} :
    InlineErrorPayload.decode (string raw) = some p ↔ '\\' ∉ raw ∧ p = .str raw := by
  have hobj : InlineErrorObjProbe.decode (string raw) = none := rfl
  have hread : (decodeJson (string raw)).isSome = true ∧ (string raw).depth ≤ 126 := by
    simp [decodeJson, h, depth]
  rw [InlineErrorPayload.decode, if_pos (by simp [hread]), hobj, Option.map_none, Option.none_or,
    map_eq_some_iff]
  constructor
  · rintro ⟨s, hs, rfl⟩
    obtain ⟨heq, hplain⟩ := borrowedStr_eq_some.mp hs
    cases heq
    exact ⟨hplain, rfl⟩
  · rintro ⟨hplain, rfl⟩
    exact ⟨raw, borrowedStr_eq_some.mpr ⟨rfl, hplain⟩, rfl⟩

/-- An object is an error if it is written without escapes. -/
theorem isSome_payloadDecode_object {fields members : List (Text × Json)} {raw : Text}
    (hkeys : decodeKeys fields = some members) (hread : (decodeJson (object fields)).isSome)
    (hmessage : getField members "message".toList = some (string raw)) :
    (InlineErrorPayload.decode (object fields)).isSome ↔ PlainObject (object fields) members := by
  have hborrowed : borrowedStr (object fields) = none := rfl
  have hcode : ∀ u, (InlineErrorCodeProbe.decode u).isSome ↔ (decodeU64 u).isSome ∨ IsPlain u := by
    intro u
    rw [InlineErrorCodeProbe.decode, Option.isSome_or, Option.isSome_map, Option.isSome_map, Bool.or_eq_true,
      isSome_borrowedStr]
  rw [InlineErrorPayload.decode, hread, Bool.true_and, hborrowed, Option.map_none, Option.or_none]
  constructor
  · intro h
    split at h
    · rename_i hdepth
      rw [Option.isSome_map, Option.isSome_iff_exists] at h
      obtain ⟨o, ho⟩ := h
      obtain ⟨honce, hc, hm, ht⟩ := (objDecode_eq_some hkeys).mp ho
      have hc' := isSome_asOptional.mp (Option.isSome_of_eq_some hc)
      have hm' := isSome_asOptional.mp (Option.isSome_of_eq_some hm)
      have ht' := isSome_asOptional.mp (Option.isSome_of_eq_some ht)
      refine ⟨⟨fields, rfl, hkeys⟩, of_decide_eq_true hdepth, honce, fun u hu => ?_, fun u hu => ?_, fun u hu => ?_⟩
      · exact (hc' u hu).imp_right (hcode u).mp
      · rw [hmessage] at hu
        cases hu
        rcases hm' _ hmessage with hnull | hplain
        · cases hnull
        · exact isSome_borrowedStr.mp hplain
      · exact (ht' u hu).imp_right isSome_borrowedStr.mp
    · cases h
  · intro h
    rw [if_pos (decide_eq_true h.depth), Option.isSome_map]
    have hc := isSome_asOptional.mpr fun u hu => (h.code u hu).imp_right (hcode u).mpr
    have hm := isSome_asOptional.mpr fun u hu => Or.inr (isSome_borrowedStr.mpr (h.message u hu))
    have ht := isSome_asOptional.mpr fun u hu => (h.type u hu).imp_right isSome_borrowedStr.mpr
    obtain ⟨code, hc⟩ := Option.isSome_iff_exists.mp hc
    obtain ⟨message, hm⟩ := Option.isSome_iff_exists.mp hm
    obtain ⟨type, ht⟩ := Option.isSome_iff_exists.mp ht
    rw [Option.isSome_iff_exists]
    exact ⟨⟨code, message, type⟩, (objDecode_eq_some hkeys).mpr ⟨h.once, hc, hm, ht⟩⟩

/-- The message of an error object is the one that is written. -/
theorem payloadDecode_object {fields members : List (Text × Json)} {raw : Text} {p : InlineErrorPayload}
    (hkeys : decodeKeys fields = some members) (hmessage : getField members "message".toList = some (string raw))
    (h : InlineErrorPayload.decode (object fields) = some p) :
    ∃ o : InlineErrorObjProbe, p = .obj o ∧ o.message = some raw ∧ '\\' ∉ raw := by
  have hborrowed : borrowedStr (object fields) = none := rfl
  rw [InlineErrorPayload.decode, hborrowed, Option.map_none, Option.or_none] at h
  split at h
  · obtain ⟨o, ho, rfl⟩ := map_eq_some_iff.mp h
    obtain ⟨_, _, hm, _⟩ := (objDecode_eq_some hkeys).mp ho
    rw [hmessage] at hm
    obtain ⟨s, hs, hsome⟩ := map_eq_some_iff.mp (show (borrowedStr (string raw)).map some = some o.message from hm)
    obtain ⟨heq, hplain⟩ := borrowedStr_eq_some.mp hs
    cases heq
    exact ⟨o, rfl, hsome.symm, hplain⟩
  · cases h

/-! ### What is recognised -/

section

variable {jsonPayload : Text} {fields members fields' : List (Text × Json)}

theorem parseInlineSseError_eq_some (hraw : readRaw jsonPayload = some (object fields)) {e : ParsedInlineError} :
    parseInlineSseError jsonPayload = some e ↔ mayHoldError jsonPayload = true ∧
      ∃ probe p, InlineErrorProbe.decode (object fields) = some probe ∧ probe.choices.getD [] = [] ∧
        probe.error = some p ∧ e = p.parsed probe.provider := by
  unfold parseInlineSseError
  rw [hraw, Option.bind_some]
  cases mayHoldError jsonPayload with
  | false => simp
  | true =>
    rw [Bool.not_true, if_neg Bool.false_ne_true, bind_eq_some_iff]
    constructor
    · rintro ⟨probe, hprobe, h⟩
      split at h
      · cases h
      · rename_i hempty
        obtain ⟨p, hp, rfl⟩ := map_eq_some_iff.mp h
        exact ⟨rfl, probe, p, hprobe, by simpa using hempty, hp, rfl⟩
    · rintro ⟨_, probe, p, hprobe, hempty, hp, rfl⟩
      refine ⟨probe, hprobe, ?_⟩
      rw [hempty, if_neg (by simp), hp]
      rfl

/-- The error as it is written. -/
theorem written_error (hwritten : Written members fields') {msg : Text} (h : ErrorMessage (object fields') msg) :
    (∃ raw, getField members "error".toList = some (string raw) ∧ decodeString raw = some msg) ∨
      ∃ obj inner raw, getField members "error".toList = some (object obj) ∧ decodeKeys obj = some inner ∧
        (decodeJson (object obj)).isSome ∧ getField inner "message".toList = some (string raw) ∧
        decodeString raw = some msg := by
  have hstring : ∀ {w : Json} {s : Text}, decodeJson w = some (string s) →
      ∃ raw, w = string raw ∧ decodeString raw = some s := by
    intro w s hw
    cases w with
    | string raw =>
      obtain ⟨s', hs', heq⟩ := map_eq_some_iff.mp hw
      cases heq
      exact ⟨raw, rfl, hs'⟩
    | array items | object fields =>
      obtain ⟨_, _, heq⟩ := map_eq_some_iff.mp hw
      cases heq
    | null | bool b | number n => cases hw
  have herror := hwritten.getField "error".toList
  rcases h with h | ⟨obj', h, hmessage⟩
  · rw [show getField fields' "error".toList = some (string msg) from h] at herror
    obtain ⟨w, hw, hdecoded⟩ : ∃ w, getField members "error".toList = some w ∧ decodeJson w = some (string msg) := by
      generalize getField members "error".toList = found at herror
      cases herror with
      | some hvalue => exact ⟨_, rfl, hvalue⟩
    obtain ⟨raw, rfl, hraw⟩ := hstring hdecoded
    exact Or.inl ⟨raw, hw, hraw⟩
  · rw [show getField fields' "error".toList = some (object obj') from h] at herror
    obtain ⟨w, hw, hdecoded⟩ : ∃ w, getField members "error".toList = some w ∧ decodeJson w = some (object obj') := by
      generalize getField members "error".toList = found at herror
      cases herror with
      | some hvalue => exact ⟨_, rfl, hvalue⟩
    cases w with
    | object obj =>
      have hread := Option.isSome_of_eq_some hdecoded
      obtain ⟨decoded, hdecode, heq⟩ := map_eq_some_iff.mp hdecoded
      cases heq
      obtain ⟨inner, hinner, hreads⟩ := written_of_reads (reads_of_decodeFields hdecode)
      have hfield := hreads.getField "message".toList
      rw [show getField obj' "message".toList = some (string msg) from hmessage] at hfield
      generalize hfound : getField inner "message".toList = found at hfield
      cases hfield with
      | @some u _ hvalue =>
        obtain ⟨raw, rfl, hraw⟩ := hstring hvalue
        exact Or.inr ⟨obj, inner, raw, hw, hinner, hread, hfound, hraw⟩
    | string raw | array items =>
      obtain ⟨_, _, heq⟩ := map_eq_some_iff.mp hdecoded
      cases heq
    | null | bool b | number n => cases hdecoded

/-- The choices that are read are as many as those that are written. -/
theorem written_choices (hwritten : Written members fields') :
    (NoChoices (object fields') →
        ∃ r, asOptional asArray (getField members "choices".toList) = some r ∧ r.getD [] = []) ∧
      (HasChoices (object fields') →
        ∀ r, asOptional asArray (getField members "choices".toList) = some r → r.getD [] ≠ []) := by
  have hfield := hwritten.getField "choices".toList
  unfold NoChoices HasChoices Json.get
  dsimp only [asObject, Option.bind_some]
  generalize getField members "choices".toList = found at hfield ⊢
  generalize getField fields' "choices".toList = found' at hfield ⊢
  cases hfield with
  | none => exact ⟨fun _ => ⟨none, rfl, rfl⟩, fun ⟨_, _, h⟩ => by cases h⟩
  | @some u v huv =>
    have harray : ∀ items', v = array items' → ∃ items, u = array items ∧ items.length = items'.length := by
      rintro items' rfl
      cases u with
      | array items =>
        obtain ⟨decoded, hitems, heq⟩ := map_eq_some_iff.mp huv
        cases heq
        exact ⟨items, rfl, (forall₂_of_decodeItems hitems).length_eq⟩
      | string raw | object fields =>
        obtain ⟨_, _, heq⟩ := map_eq_some_iff.mp huv
        cases heq
      | null | bool b | number n => cases huv
    constructor
    · rintro (h | h)
      · cases h
      · obtain ⟨items, rfl, hlength⟩ := harray [] (Option.some.inj h)
        exact ⟨some items, rfl, List.length_eq_zero_iff.mp hlength⟩
    · rintro ⟨item, rest, h⟩ r hr hnil
      obtain ⟨items, rfl, hlength⟩ := harray _ (Option.some.inj h)
      cases hr
      rw [show items = [] from hnil] at hlength
      cases hlength

/-- An error that is read is written plainly and has its message. -/
theorem message_of_decode (hwritten : Written members fields') {msg : Text}
    (h : ErrorMessage (object fields') msg) {p : InlineErrorPayload}
    (hp : asOptional InlineErrorPayload.decode (getField members "error".toList) = some (some p))
    (provider : Option Text) : (p.parsed provider).message = msg ∧
      ∀ u, getField members "error".toList = some u → IsPlain u ∨ ∃ inner, PlainObject u inner := by
  rcases written_error hwritten h with ⟨raw, herror, hraw⟩ | ⟨obj, inner, raw, herror, hkeys, hread, hmessage, hraw⟩
  · rw [herror] at hp ⊢
    obtain ⟨p', hp', heq⟩ := map_eq_some_iff.mp
      (show (InlineErrorPayload.decode (string raw)).map some = some (some p) from hp)
    cases heq
    obtain ⟨hplain, rfl⟩ := (payloadDecode_string hraw).mp hp'
    refine ⟨(decodeString_of_plain hraw hplain).1.symm, ?_⟩
    intro u hu
    cases hu
    exact Or.inl ⟨raw, rfl, hplain⟩
  · rw [herror] at hp ⊢
    obtain ⟨p', hp', heq⟩ := map_eq_some_iff.mp
      (show (InlineErrorPayload.decode (object obj)).map some = some (some p) from hp)
    cases heq
    obtain ⟨o, rfl, hsome, hplain⟩ := payloadDecode_object hkeys hmessage hp'
    refine ⟨?_, ?_⟩
    · rw [InlineErrorPayload.parsed, hsome, Option.getD_some]
      exact (decodeString_of_plain hraw hplain).1.symm
    · intro u hu
      cases hu
      exact Or.inr ⟨inner, (isSome_payloadDecode_object hkeys hread hmessage).mp (Option.isSome_of_eq_some hp')⟩

/-- An error that is written plainly is read. -/
theorem exists_decode (hwritten : Written members fields') {msg : Text} (h : ErrorMessage (object fields') msg)
    (hplain : ∀ u, getField members "error".toList = some u → IsPlain u ∨ ∃ inner, PlainObject u inner) :
    ∃ p, asOptional InlineErrorPayload.decode (getField members "error".toList) = some (some p) := by
  rcases written_error hwritten h with ⟨raw, herror, hraw⟩ | ⟨obj, inner, raw, herror, hkeys, hread, hmessage, hraw⟩
  · rw [herror]
    rcases hplain _ herror with ⟨raw', heq, hescape⟩ | ⟨inner, hobj⟩
    · cases heq
      refine ⟨.str raw, ?_⟩
      show (InlineErrorPayload.decode (string raw)).map some = some (some (.str raw))
      rw [(payloadDecode_string hraw).mpr ⟨hescape, rfl⟩]
      rfl
    · obtain ⟨fields, heq, _⟩ := hobj.keys
      cases heq
  · rw [herror]
    rcases hplain _ herror with ⟨raw', heq, hescape⟩ | ⟨inner', hobj⟩
    · cases heq
    · obtain ⟨fields, heq, hkeys'⟩ := hobj.keys
      cases heq
      rw [hkeys] at hkeys'
      cases hkeys'
      obtain ⟨p, hp⟩ := Option.isSome_iff_exists.mp ((isSome_payloadDecode_object hkeys hread hmessage).mpr hobj)
      refine ⟨p, ?_⟩
      show (InlineErrorPayload.decode (object obj)).map some = some (some p)
      rw [hp]
      rfl

end

/-- The document as it is written, with its keys decoded. -/
theorem exists_members {jsonPayload : Text} {fields' : List (Text × Json)}
    (hread : read jsonPayload = some (object fields')) :
    ∃ fields members, readRaw jsonPayload = some (object fields) ∧ decodeKeys fields = some members ∧
      Written members fields' := by
  obtain ⟨w, hlex, hdecoded⟩ := exists_written hread
  have hraw : readRaw jsonPayload = some w := by rw [readRaw, hlex, Option.bind_some, readTokens_tokens]
  obtain ⟨fields, rfl, hdecode⟩ : ∃ fields, w = object fields ∧ decodeFields fields = some fields' := by
    cases w with
    | object fields =>
      obtain ⟨decoded, hdecode, heq⟩ := map_eq_some_iff.mp hdecoded
      cases heq
      exact ⟨fields, rfl, hdecode⟩
    | string raw | array items =>
      obtain ⟨_, _, heq⟩ := map_eq_some_iff.mp hdecoded
      cases heq
    | null | bool b | number n => cases hdecoded
  obtain ⟨members, hkeys, hwritten⟩ := written_of_reads (reads_of_decodeFields hdecode)
  exact ⟨fields, members, hraw, hkeys, hwritten⟩

/-- A payload with choices has no error. -/
theorem parseInlineSseError_of_choices {jsonPayload : Text} {fields' : List (Text × Json)}
    (hread : read jsonPayload = some (object fields')) (hhas : HasChoices (object fields')) :
    parseInlineSseError jsonPayload = none := by
  obtain ⟨fields, members, hraw, hkeys, hwritten⟩ := exists_members hread
  rw [Option.eq_none_iff_forall_ne_some]
  intro e he
  obtain ⟨_, probe, p, hprobe, hempty, _⟩ := (parseInlineSseError_eq_some hraw).mp he
  obtain ⟨_, hc, _⟩ := (probeDecode_eq_some hkeys).mp hprobe
  exact (written_choices hwritten).2 hhas _ hc hempty

end OpenProxy.Upstream
