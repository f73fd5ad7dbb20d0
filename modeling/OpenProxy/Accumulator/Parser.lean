import OpenProxy.Streaming.Processor

/-!
# The text of a delta

The model of `sse_accumulator/parser.rs`.  The text fields of a delta are found by a scan of the payload that keeps the
depth of the brackets, and their escapes are decoded afterwards.  A position in the payload is the text that follows it.
-/

namespace OpenProxy.Accumulator

open Streaming.StreamingState (afterColon)

/-! ### Escapes -/

/-- `u16::from_str_radix` with four digits, the first of which may be a plus sign. -/
def fromStrRadix (s : Text) : Option Nat :=
  let digits := match s with
    | '+' :: rest => rest
    | _ => s
  if digits.isEmpty then none else (digits.mapM hexValue).map ofHex

/-- `char::from_u32`. -/
def charFromU32 (n : Nat) : Option Char := if n.isValidChar then some (Char.ofNat n) else none

/-- The number after `\u`, and what follows it. -/
def hexAfter : Text → Option (Nat × Text)
  | a :: b :: c :: d :: rest => (fromStrRadix [a, b, c, d]).map fun n => (n, rest)
  | _ => none

/-- The second half of a surrogate pair. -/
def lowAfter : Text → Option Nat
  | '\\' :: 'u' :: rest =>
    (hexAfter rest).bind fun (low, _) => if 0xDC00 ≤ low ∧ low ≤ 0xDFFF then some low else none
  | _ => none

/-- The character of a surrogate pair. -/
def pairChar (hex low : Nat) : Option Char :=
  charFromU32 (0x10000 + (((hex - 0xD800) <<< 10) ||| (low - 0xDC00)))

/-- The character that is written after `\u`, and how many characters it takes. -/
def unicodeAt (t : Text) : Option (Char × Nat) :=
  (hexAfter t).bind fun (hex, rest) =>
    let pair := if 0xD800 ≤ hex ∧ hex ≤ 0xDBFF then (lowAfter rest).bind (pairChar hex) else none
    (pair.map fun c => (c, 10)).or ((charFromU32 hex).map fun c => (c, 4))

/-- The character that is written after a backslash, and how many characters it takes. -/
def escapeAt : Text → Option (Char × Nat)
  | '"' :: _ => some ('"', 1)
  | '\\' :: _ => some ('\\', 1)
  | '/' :: _ => some ('/', 1)
  | 'b' :: _ => some ('\x08', 1)
  | 'f' :: _ => some ('\x0c', 1)
  | 'n' :: _ => some ('\n', 1)
  | 'r' :: _ => some ('\r', 1)
  | 't' :: _ => some ('\t', 1)
  | 'u' :: rest => (unicodeAt rest).map fun (c, n) => (c, n + 1)
  | _ => none

/-- The loop of `decode_json_escape_into`, where `skip` characters are passed over first. -/
def decodeFrom : Nat → Text → Text
  | _, [] => []
  | skip + 1, _ :: rest => decodeFrom skip rest
  | 0, c :: rest =>
    if c = '\\' then
      match escapeAt rest with
      | some (d, n) => d :: decodeFrom n rest
      | none => '\\' :: decodeFrom 0 rest
    else c :: decodeFrom 0 rest

/-- What `decode_json_escape_into` adds to the buffer. -/
def decodeJsonEscape (raw : Text) : Text := if '\\' ∈ raw then decodeFrom 0 raw else raw

/-! ### The scan -/

/-- `find_delta_object`: what follows the opening brace of the first delta. -/
def findDeltaObject (payload : Text) : Option Text :=
  match _hfind : find payload "\"delta\"".toList with
  | none => none
  | some idx =>
    match afterColon (payload.drop (idx + 7)) with
    | some ('\x7b' :: rest) => some rest
    | _ => findDeltaObject (payload.drop (idx + 7))
termination_by payload.length
decreasing_by
  all_goals
    have hlen := (firstAt_eq_some.mp _hfind).1
    have hpre := (firstAt_eq_some.mp _hfind).2.1
    have hne : payload.drop idx ≠ [] := by
      intro hnil
      rw [hnil] at hpre
      cases hpre
    have hpos := List.length_pos_of_ne_nil hne
    rw [List.length_drop] at hpos ⊢
    omega

/-- `string_end`: a string up to its closing quote, and what follows the quote. -/
def stringEnd : Text → Option (Text × Text)
  | [] => none
  | c :: rest =>
    if c = '"' then some ([], rest)
    else if c = '\\' then
      match rest with
      | [] => none
      | d :: rest => (stringEnd rest).map fun (s, after) => (c :: d :: s, after)
    else (stringEnd rest).map fun (s, after) => (c :: s, after)

structure DeltaFields where
  content : Option Text
  reasoningContent : Option Text
  deriving DecidableEq

/-- A text field of a delta. -/
inductive DeltaField
  | content
  | reasoningContent
  deriving DecidableEq

/-- What the loop of `extract_delta_fields` keeps. -/
structure FieldScan where
  depth : Nat
  seenContent : Bool
  seenReasoning : Bool
  fields : DeltaFields

namespace FieldScan

def start : FieldScan := ⟨1, false, false, ⟨none, none⟩⟩

/-- The field that a key names, if there has been no such key before. -/
def destination (s : FieldScan) (key : Text) : Option DeltaField :=
  if key = "content".toList ∧ s.seenContent = false then some .content
  else if key = "reasoning_content".toList ∧ s.seenReasoning = false then some .reasoningContent
  else none

/-- The field has been seen, with its value if it is a string. -/
def store (s : FieldScan) (field : DeltaField) (value : Option Text) : FieldScan :=
  match field with
  | .content => { s with seenContent := true, fields.content := value.or s.fields.content }
  | .reasoningContent => { s with seenReasoning := true, fields.reasoningContent := value.or s.fields.reasoningContent }

end FieldScan

/-- The value of a field, if it is a string, and where the scan goes on; nothing if the string does not end. -/
def stringValue (value : Text) : Option (Option Text × Text) :=
  match value with
  | '"' :: rest => (stringEnd rest).map fun (s, after) => (some s, after)
  | _ => some (none, value)

theorem length_stringEnd {t s after : Text} (h : stringEnd t = some (s, after)) : after.length < t.length := by
  fun_induction stringEnd t generalizing s with
  | case1 => cases h
  | case2 rest =>
    cases h
    exact Nat.lt_succ_self _
  | case3 => cases h
  | case4 hc d rest ih =>
    obtain ⟨⟨s', after'⟩, hrest, heq⟩ := Option.map_eq_some_iff.mp h
    cases heq
    have := ih hrest
    simp only [List.length_cons]
    omega
  | case5 c rest hc hescape ih =>
    obtain ⟨⟨s', after'⟩, hrest, heq⟩ := Option.map_eq_some_iff.mp h
    cases heq
    have := ih hrest
    simp only [List.length_cons]
    omega

theorem length_afterColon {t value : Text} (h : afterColon t = some value) : value.length < t.length := by
  unfold afterColon at h
  have hdrop := (List.dropWhile_sublist isAsciiWhitespace (l := t)).length_le
  split at h
  · rename_i rest hrest
    rw [hrest, List.length_cons] at hdrop
    have hvalue := (List.dropWhile_sublist isAsciiWhitespace (l := rest)).length_le
    cases h
    omega
  · cases h

theorem length_stringValue {value after : Text} {s : Option Text} (h : stringValue value = some (s, after)) :
    after.length ≤ value.length := by
  unfold stringValue at h
  split at h
  · obtain ⟨⟨s', after'⟩, hrest, heq⟩ := Option.map_eq_some_iff.mp h
    cases heq
    have := length_stringEnd hrest
    simp only [List.length_cons]
    omega
  · cases h
    exact Nat.le_refl _

/-- The loop of `extract_delta_fields`. -/
def scanFields (s : FieldScan) (t : Text) : DeltaFields :=
  if s.depth = 0 then s.fields
  else
    match t with
    | [] => s.fields
    | c :: rest =>
      if c = '\x7b' ∨ c = '[' then scanFields { s with depth := s.depth + 1 } rest
      else if c = '\x7d' ∨ c = ']' then scanFields { s with depth := s.depth - 1 } rest
      else if c = '"' then
        match _hend : stringEnd rest with
        | none => s.fields
        | some (key, after) =>
          match _hcolon : afterColon after with
          | none => scanFields s after
          | some value =>
            if s.depth ≠ 1 then scanFields s value
            else
              match s.destination key with
              | none => scanFields s value
              | some field =>
                match _hvalue : stringValue value with
                | none => s.fields
                | some (text, next) =>
                  if (s.store field text).seenContent && (s.store field text).seenReasoning then
                    (s.store field text).fields
                  else scanFields (s.store field text) next
      else scanFields s rest
termination_by t.length
decreasing_by
  all_goals simp only [List.length_cons]
  all_goals first
    | omega
    | have hkey := length_stringEnd _hend
      omega
    | have hkey := length_stringEnd _hend
      have hcolon := length_afterColon _hcolon
      omega
    | have hkey := length_stringEnd _hend
      have hcolon := length_afterColon _hcolon
      have hvalue := length_stringValue _hvalue
      omega

/-- `extract_delta_fields`. -/
def extractDeltaFields (payload : Text) : DeltaFields :=
  match findDeltaObject payload with
  | none => ⟨none, none⟩
  | some t => scanFields .start t

end OpenProxy.Accumulator
