import OpenProxy.Accumulator.Parser
import OpenProxy.Streaming.Prefilter

/-!
# The scan of a delta

What the scan does with each token of a JSON text, whatever the spaces between them (`Scans`), and the delta that it starts
from (`findDelta_lexed`).
-/

namespace OpenProxy.Accumulator

open Streaming (Value afterColonToken afterColon_lexed)
open Streaming.StreamingState (afterColon)

/-! ### Characters -/

theorem stringEnd_body {raw : Text} (hraw : IsBody raw) (t : Text) : stringEnd (raw ++ '"' :: t) = some (raw, t) := by
  induction hraw with
  | nil =>
    rw [List.nil_append, stringEnd.eq_def]
    dsimp only
    rw [if_pos rfl]
  | char hquote hescape hbody ih =>
    rw [List.cons_append, stringEnd.eq_def]
    dsimp only
    rw [if_neg hquote, if_neg hescape, ih, Option.map_some]
  | escape c hbody ih =>
    rw [List.cons_append, List.cons_append, stringEnd, if_neg (by decide), if_pos rfl]
    dsimp only
    rw [ih, Option.map_some]

/-- A character that the scan passes over. -/
def isPassed (c : Char) : Bool := !(['\x7b', '[', '\x7d', ']', '"'].contains c)

variable {s : FieldScan} {t : Text}

theorem scanFields_zero (hdepth : s.depth = 0) (t : Text) : scanFields s t = s.fields := by
  rw [scanFields.eq_def, if_pos hdepth]

theorem scanFields_passed {c : Char} (hc : isPassed c = true) (s : FieldScan) (t : Text) :
    scanFields s (c :: t) = scanFields s t := by
  by_cases hdepth : s.depth = 0
  · rw [scanFields_zero hdepth, scanFields_zero hdepth]
  · simp only [isPassed, Bool.not_eq_true', List.contains_eq_mem, List.mem_cons, List.not_mem_nil, or_false,
      decide_eq_false_iff_not, not_or] at hc
    obtain ⟨h₁, h₂, h₃, h₄, h₅⟩ := hc
    rw [scanFields, if_neg hdepth, if_neg (not_or.mpr ⟨h₁, h₂⟩), if_neg (not_or.mpr ⟨h₃, h₄⟩), if_neg h₅]

theorem scanFields_passed_all {w : Text} (hw : ∀ c ∈ w, isPassed c = true) (s : FieldScan) (t : Text) :
    scanFields s (w ++ t) = scanFields s t := by
  induction w with
  | nil => rfl
  | cons c w ih =>
    rw [List.cons_append, scanFields_passed (hw c List.mem_cons_self)]
    exact ih fun d hd => hw d (List.mem_cons_of_mem _ hd)

theorem isPassed_of_isAsciiWhitespace {c : Char} (h : isAsciiWhitespace c = true) : isPassed c = true := by
  by_contra hpassed
  simp only [isPassed, Bool.not_eq_true', Bool.not_eq_false, List.contains_eq_mem, List.mem_cons, List.not_mem_nil,
    or_false, decide_eq_true_eq] at hpassed
  rcases hpassed with rfl | rfl | rfl | rfl | rfl
  all_goals exact absurd h (by decide)

theorem isPassed_of_isWordChar {c : Char} (h : isWordChar c = true) : isPassed c = true := by
  by_contra hpassed
  simp only [isPassed, Bool.not_eq_true', Bool.not_eq_false, List.contains_eq_mem, List.mem_cons, List.not_mem_nil,
    or_false, decide_eq_true_eq] at hpassed
  rcases hpassed with rfl | rfl | rfl | rfl | rfl
  all_goals exact absurd h (by decide)

theorem scanFields_dropWhile (s : FieldScan) (t : Text) : scanFields s (t.dropWhile isAsciiWhitespace) = scanFields s t := by
  have happend := scanFields_passed_all (w := t.takeWhile isAsciiWhitespace)
    (fun c hc => isPassed_of_isAsciiWhitespace (List.mem_takeWhile_imp hc)) s (t.dropWhile isAsciiWhitespace)
  rw [List.takeWhile_append_dropWhile] at happend
  exact happend.symm

theorem scanFields_open (s : FieldScan) (hdepth : s.depth ≠ 0) {c : Char} (hc : c = '\x7b' ∨ c = '[') (t : Text) :
    scanFields s (c :: t) = scanFields { s with depth := s.depth + 1 } t := by
  rw [scanFields, if_neg hdepth, if_pos hc]

theorem scanFields_close (s : FieldScan) (hdepth : s.depth ≠ 0) {c : Char} (hc : c = '\x7d' ∨ c = ']') (t : Text) :
    scanFields s (c :: t) = scanFields { s with depth := s.depth - 1 } t := by
  have hopen : ¬ (c = '\x7b' ∨ c = '[') := by
    rcases hc with rfl | rfl
    all_goals decide
  rw [scanFields, if_neg hdepth, if_neg hopen, if_pos hc]

section

variable {raw : Text} (hraw : IsBody raw)
include hraw

/-- The scan of a string. -/
theorem scanFields_quote (hdepth : s.depth ≠ 0) :
    (afterColon t = none → scanFields s ('"' :: (raw ++ '"' :: t)) = scanFields s t) ∧
      ∀ value, afterColon t = some value →
        ((s.depth = 1 → s.destination raw = none) → scanFields s ('"' :: (raw ++ '"' :: t)) = scanFields s value) ∧
          ∀ field text next, s.depth = 1 → s.destination raw = some field → stringValue value = some (text, next) →
            scanFields s ('"' :: (raw ++ '"' :: t)) =
              if (s.store field text).seenContent && (s.store field text).seenReasoning then (s.store field text).fields
              else scanFields (s.store field text) next := by
  rw [scanFields, if_neg hdepth, if_neg (by decide), if_neg (by decide), if_pos rfl]
  split
  · rename_i hend
    rw [stringEnd_body hraw] at hend
    cases hend
  · rename_i key after hend
    rw [stringEnd_body hraw] at hend
    cases hend
    split
    · rename_i hnone
      refine ⟨fun _ => rfl, fun value hvalue => ?_⟩
      rw [hnone] at hvalue
      cases hvalue
    · rename_i value hcolon
      refine ⟨fun hnone => ?_, fun value' hvalue => ?_⟩
      · rw [hcolon] at hnone
        cases hnone
      · rw [hcolon] at hvalue
        cases hvalue
        split
        · rename_i hne
          exact ⟨fun _ => rfl, fun _ _ _ hone => absurd hone hne⟩
        · rename_i hone
          have hone : s.depth = 1 := not_not.mp hone
          split
          · rename_i hdest
            refine ⟨fun _ => rfl, fun field text next _ hfield => ?_⟩
            rw [hdest] at hfield
            cases hfield
          · rename_i field hdest
            refine ⟨fun hkey => ?_, fun field' text next _ hfield hnext => ?_⟩
            · rw [hkey hone] at hdest
              cases hdest
            · rw [hdest] at hfield
              cases hfield
              split
              · rename_i hnone
                rw [hnext] at hnone
                cases hnone
              · rename_i text' next' heq
                rw [hnext] at heq
                cases heq
                rfl

end

/-! ### Tokens -/

theorem afterColonToken_of_head {ts : List Token} (h : ts.head? ≠ some .colon) : afterColonToken ts = none := by
  unfold afterColonToken
  split
  · exact absurd rfl h
  · rfl

/-- The scan of a text with these tokens gives these fields. -/
def Scans (s : FieldScan) (ts : List Token) (d : DeltaFields) : Prop := ∀ t, Lexed t ts → scanFields s t = d

theorem begins_string {raw rest : Text} (h : Begins t (.string raw) rest) : IsBody raw ∧ t = '"' :: (raw ++ '"' :: rest) := by
  cases h with
  | punctuation hc =>
    unfold punctuation at hc
    split_ifs at hc
    all_goals cases hc
  | string hraw => exact ⟨hraw, rfl⟩
  | word hne hw htoken hend => cases wordToken_isWord htoken

theorem exists_string_of_begins {rest : Text} {token : Token} (h : Begins ('"' :: t) token rest) :
    ∃ raw, token = .string raw := by
  generalize ht : '"' :: t = text at h
  cases h with
  | punctuation hc =>
    rw [← (List.cons.inj ht).1] at hc
    exact absurd hc (by simp [punctuation])
  | string hraw => exact ⟨_, rfl⟩
  | @word w _ _ hne hw htoken hend =>
    cases w with
    | nil => exact absurd rfl hne
    | cons d w =>
      have hword := List.all_eq_true.mp hw d List.mem_cons_self
      rw [← (List.cons.inj ht).1, isWordChar_quote] at hword
      cases hword

namespace Scans

variable {d : DeltaFields} {us : List Token} {token : Token}

theorem of_begins (h : ∀ t rest, Begins t token rest → Lexed rest us → scanFields s t = d) : Scans s (token :: us) d := by
  intro t ht
  rw [← scanFields_dropWhile]
  rcases ht.first with ⟨hnil, -⟩ | ⟨token', us', rest, heq, hbegins, hrest⟩
  · cases hnil
  · cases heq
    exact h _ _ hbegins hrest

theorem openBrace (hdepth : s.depth ≠ 0) (h : Scans { s with depth := s.depth + 1 } us d) :
    Scans s (.openBrace :: us) d := by
  refine of_begins fun t rest hbegins hrest => ?_
  rw [hbegins.of_punctuation (c := '\x7b') rfl, scanFields_open s hdepth (.inl rfl)]
  exact h rest hrest

theorem openBracket (hdepth : s.depth ≠ 0) (h : Scans { s with depth := s.depth + 1 } us d) :
    Scans s (.openBracket :: us) d := by
  refine of_begins fun t rest hbegins hrest => ?_
  rw [hbegins.of_punctuation (c := '[') rfl, scanFields_open s hdepth (.inr rfl)]
  exact h rest hrest

theorem closeBrace (hdepth : s.depth ≠ 0) (h : Scans { s with depth := s.depth - 1 } us d) :
    Scans s (.closeBrace :: us) d := by
  refine of_begins fun t rest hbegins hrest => ?_
  rw [hbegins.of_punctuation (c := '\x7d') rfl, scanFields_close s hdepth (.inl rfl)]
  exact h rest hrest

theorem closeBracket (hdepth : s.depth ≠ 0) (h : Scans { s with depth := s.depth - 1 } us d) :
    Scans s (.closeBracket :: us) d := by
  refine of_begins fun t rest hbegins hrest => ?_
  rw [hbegins.of_punctuation (c := ']') rfl, scanFields_close s hdepth (.inr rfl)]
  exact h rest hrest

theorem comma (h : Scans s us d) : Scans s (.comma :: us) d := by
  refine of_begins fun t rest hbegins hrest => ?_
  rw [hbegins.of_punctuation (c := ',') rfl, scanFields_passed (by decide)]
  exact h rest hrest

theorem word (htoken : token.isWord = true) (h : Scans s us d) : Scans s (token :: us) d := by
  refine of_begins fun t rest hbegins hrest => ?_
  cases hbegins with
  | punctuation hc =>
    unfold punctuation at hc
    split_ifs at hc
    all_goals
      cases hc
      cases htoken
  | string hraw => cases htoken
  | word hne hw _ hend =>
    rw [scanFields_passed_all fun c hc => isPassed_of_isWordChar (List.all_eq_true.mp hw c hc)]
    exact h rest hrest

/-- A string that is not a key. -/
theorem string {raw : Text} (hdepth : s.depth ≠ 0) (hus : us.head? ≠ some .colon) (h : Scans s us d) :
    Scans s (.string raw :: us) d := by
  refine of_begins fun t rest hbegins hrest => ?_
  obtain ⟨hraw, rfl⟩ := begins_string hbegins
  have hcolon : afterColon rest = none := by
    have hrel := afterColon_lexed hrest
    rw [afterColonToken_of_head hus] at hrel
    generalize afterColon rest = found at hrel ⊢
    cases hrel
    rfl
  rw [(scanFields_quote hraw hdepth).1 hcolon]
  exact h rest hrest

theorem exists_value {rest : Text} (hrest : Lexed rest (.colon :: us)) :
    ∃ value t, afterColon rest = some value ∧ value = t.dropWhile isAsciiWhitespace ∧ Lexed t us := by
  have hrel := afterColon_lexed hrest
  generalize afterColon rest = found at hrel ⊢
  generalize hus : afterColonToken (.colon :: us) = tokens at hrel
  cases hrel with
  | none => cases hus
  | some hvalue =>
    cases hus
    obtain ⟨t, rfl, hlexed⟩ := hvalue
    exact ⟨_, t, rfl, rfl, hlexed⟩

/-- A key that is not looked at. -/
theorem key {raw : Text} (hdepth : s.depth ≠ 0) (hkey : s.depth = 1 → s.destination raw = none) (h : Scans s us d) :
    Scans s (.string raw :: .colon :: us) d := by
  refine of_begins fun t rest hbegins hrest => ?_
  obtain ⟨hraw, rfl⟩ := begins_string hbegins
  obtain ⟨value, t, hcolon, rfl, hlexed⟩ := exists_value hrest
  rw [((scanFields_quote hraw hdepth).2 _ hcolon).1 hkey, scanFields_dropWhile]
  exact h t hlexed

section

variable {raw : Text} {field : DeltaField} (hone : s.depth = 1) (hkey : s.destination raw = some field)
include hone hkey

/-- A field that is a string. -/
theorem fieldString {v : Text} (h : Scans (s.store field (some v)) us d)
    (hseen : (s.store field (some v)).seenContent = true → (s.store field (some v)).seenReasoning = true →
      (s.store field (some v)).fields = d) : Scans s (.string raw :: .colon :: .string v :: us) d := by
  refine of_begins fun t rest hbegins hrest => ?_
  have hdepth : s.depth ≠ 0 := by rw [hone]; decide
  obtain ⟨hraw, rfl⟩ := begins_string hbegins
  obtain ⟨value, t, hcolon, rfl, hlexed⟩ := exists_value hrest
  rcases hlexed.first with ⟨hnil, -⟩ | ⟨token', us', next, heq, hvalue, hnext⟩
  · cases hnil
  · cases heq
    obtain ⟨hv, hvalue⟩ := begins_string hvalue
    have hstring : stringValue (t.dropWhile isAsciiWhitespace) = some (some v, next) := by
      rw [hvalue, stringValue, stringEnd_body hv, Option.map_some]
    rw [((scanFields_quote hraw hdepth).2 _ hcolon).2 field _ _ hone hkey hstring]
    split
    · rename_i hboth
      rw [Bool.and_eq_true] at hboth
      exact hseen hboth.1 hboth.2
    · exact h next hnext

/-- A field that is something else. -/
theorem fieldOther (htoken : ∀ v, token ≠ .string v) (h : Scans (s.store field none) (token :: us) d)
    (hseen : (s.store field none).seenContent = true → (s.store field none).seenReasoning = true →
      (s.store field none).fields = d) : Scans s (.string raw :: .colon :: token :: us) d := by
  refine of_begins fun t rest hbegins hrest => ?_
  have hdepth : s.depth ≠ 0 := by rw [hone]; decide
  obtain ⟨hraw, rfl⟩ := begins_string hbegins
  obtain ⟨value, t, hcolon, rfl, hlexed⟩ := exists_value hrest
  rcases hlexed.first with ⟨hnil, -⟩ | ⟨token', us', next, heq, hvalue, hnext⟩
  · cases hnil
  · cases heq
    have hother : stringValue (t.dropWhile isAsciiWhitespace) = some (none, t.dropWhile isAsciiWhitespace) := by
      unfold stringValue
      split
      · rename_i rest' heq
        rw [heq] at hvalue
        obtain ⟨v, hv⟩ := exists_string_of_begins hvalue
        exact absurd hv (htoken v)
      · rfl
    rw [((scanFields_quote hraw hdepth).2 _ hcolon).2 field _ _ hone hkey hother]
    split
    · rename_i hboth
      rw [Bool.and_eq_true] at hboth
      exact hseen hboth.1 hboth.2
    · rw [scanFields_dropWhile]
      exact h t hlexed

end

/-! ### Values -/

mutual

/-- The scan passes over a value. -/
theorem tokens : (v : Json) → {s : FieldScan} → {us : List Token} → s.depth ≠ 0 → us.head? ≠ some .colon →
    Scans s us d → Scans s (OpenProxy.tokens v ++ us) d
  | .null, _, _, _, _, h => word rfl h
  | .bool _, _, _, _, _, h => word rfl h
  | .number _, _, _, _, _, h => word rfl h
  | .string _, _, _, hdepth, hus, h => string hdepth hus h
  | .array items, s, us, hdepth, hus, h => by
    rw [OpenProxy.tokens, List.cons_append, List.append_assoc]
    exact openBracket hdepth (itemTokens items (Nat.succ_ne_zero _) (by simp) (closeBracket (Nat.succ_ne_zero _) h))
  | .object fields, s, us, hdepth, hus, h => by
    rw [OpenProxy.tokens, List.cons_append, List.append_assoc]
    have hinside : s.depth + 1 ≠ 1 := fun heq => hdepth (Nat.succ.inj heq)
    exact openBrace hdepth
      (fieldTokens fields (Nat.succ_ne_zero _) hinside (by simp) (closeBrace (Nat.succ_ne_zero _) h))

theorem itemTokens : (items : List Json) → {s : FieldScan} → {us : List Token} → s.depth ≠ 0 → us.head? ≠ some .colon →
    Scans s us d → Scans s (OpenProxy.itemTokens items ++ us) d
  | [], _, _, _, _, h => h
  | [item], _, _, hdepth, hus, h => tokens item hdepth hus h
  | item :: item' :: items, s, us, hdepth, hus, h => by
    rw [itemTokens_cons_cons, List.append_assoc]
    exact tokens item hdepth (by simp) (comma (itemTokens (item' :: items) hdepth hus h))

theorem fieldTokens : (fields : List (Text × Json)) → {s : FieldScan} → {us : List Token} → s.depth ≠ 0 →
    s.depth ≠ 1 → us.head? ≠ some .colon → Scans s us d → Scans s (OpenProxy.fieldTokens fields ++ us) d
  | [], _, _, _, _, _, h => h
  | [(_, value)], _, _, hdepth, hinside, hus, h =>
    key hdepth (fun hone => absurd hone hinside) (tokens value hdepth hus h)
  | (_, value) :: field :: fields, s, us, hdepth, hinside, hus, h => by
    rw [fieldTokens_cons_cons, List.cons_append, List.cons_append, List.append_assoc]
    exact key hdepth (fun hone => absurd hone hinside)
      (tokens value hdepth (by simp) (comma (fieldTokens (field :: fields) hdepth hinside hus h)))

end

end Scans

/-! ### The members of the delta -/

/-- The string that a member has. -/
def textOf (fields : List (Text × Json)) (name : Text) : Option Text := (Json.getField fields name).bind Json.asStr

theorem textOf_cons_of_ne {key name : Text} (h : key ≠ name) (value : Json) (fields : List (Text × Json)) :
    textOf ((key, value) :: fields) name = textOf fields name := by
  rw [textOf, Json.getField_cons, if_neg h, Option.or_none, textOf]

theorem textOf_cons_self {key : Text} {fields : List (Text × Json)} (h : key ∉ fields.map Prod.fst) (value : Json) :
    textOf ((key, value) :: fields) key = value.asStr := by
  have hnone : Json.getField fields key = none := by
    rw [Option.eq_none_iff_forall_ne_some]
    intro u hu
    exact h (List.mem_map.mpr ⟨(key, u), Json.mem_of_getField hu, rfl⟩)
  rw [textOf, Json.getField_cons, hnone, if_pos rfl, Option.none_or, Option.bind_some]

namespace FieldScan

/-- A field that has not been seen has no value. -/
structure Fresh (s : FieldScan) : Prop where
  content : s.seenContent = false → s.fields.content = none
  reasoning : s.seenReasoning = false → s.fields.reasoningContent = none

/-- What the scan finds if these members follow. -/
def found (s : FieldScan) (fields : List (Text × Json)) : DeltaFields where
  content := if s.seenContent then s.fields.content else textOf fields Streaming.Key.content
  reasoningContent := if s.seenReasoning then s.fields.reasoningContent else textOf fields Streaming.Key.reasoningContent

theorem found_nil (hfresh : s.Fresh) : s.found [] = s.fields := by
  have hcontent : (if s.seenContent then s.fields.content else none) = s.fields.content := by
    split
    · rfl
    · rename_i hseen
      exact (hfresh.content (Bool.eq_false_iff.mpr hseen)).symm
  have hreasoning : (if s.seenReasoning then s.fields.reasoningContent else none) = s.fields.reasoningContent := by
    split
    · rfl
    · rename_i hseen
      exact (hfresh.reasoning (Bool.eq_false_iff.mpr hseen)).symm
  exact congrArg₂ DeltaFields.mk hcontent hreasoning

theorem found_of_seen (hcontent : s.seenContent = true) (hreasoning : s.seenReasoning = true)
    (fields : List (Text × Json)) : s.fields = s.found fields := by
  rw [found, if_pos hcontent, if_pos hreasoning]

theorem depth_store (s : FieldScan) (field : DeltaField) (value : Option Text) : (s.store field value).depth = s.depth := by
  cases field <;> rfl

theorem fresh_store (hfresh : s.Fresh) (field : DeltaField) (value : Option Text) : (s.store field value).Fresh := by
  cases field with
  | content => exact ⟨nofun, hfresh.reasoning⟩
  | reasoningContent => exact ⟨hfresh.content, nofun⟩

theorem destination_eq_some {key : Text} {field : DeltaField} (h : s.destination key = some field) :
    (field = .content ∧ key = Streaming.Key.content ∧ s.seenContent = false) ∨
      (field = .reasoningContent ∧ key = Streaming.Key.reasoningContent ∧ s.seenReasoning = false) := by
  unfold destination at h
  split_ifs at h with hcontent hreasoning
  · cases h
    exact .inl ⟨rfl, hcontent⟩
  · cases h
    exact .inr ⟨rfl, hreasoning⟩

theorem content_ne_reasoningContent : Streaming.Key.content ≠ Streaming.Key.reasoningContent := by decide

/-- A member that is not looked at. -/
theorem found_cons_of_destination_eq_none {key : Text} (h : s.destination key = none) (value : Json)
    (fields : List (Text × Json)) : s.found ((key, value) :: fields) = s.found fields := by
  unfold destination at h
  split_ifs at h with hcontent hreasoning
  unfold found
  congr 1
  · split
    · rfl
    · rename_i hseen
      refine textOf_cons_of_ne (fun hkey => hcontent ⟨hkey, Bool.eq_false_iff.mpr hseen⟩) value fields
  · split
    · rfl
    · rename_i hseen
      refine textOf_cons_of_ne (fun hkey => hreasoning ⟨hkey, Bool.eq_false_iff.mpr hseen⟩) value fields

/-- A member that is a field. -/
theorem found_cons_of_destination_eq_some (hfresh : s.Fresh) {key : Text} {field : DeltaField}
    (h : s.destination key = some field) {fields : List (Text × Json)} (hkey : key ∉ fields.map Prod.fst) (value : Json) :
    s.found ((key, value) :: fields) = (s.store field value.asStr).found fields := by
  rcases destination_eq_some h with ⟨rfl, rfl, hseen⟩ | ⟨rfl, rfl, hseen⟩
  · simp only [found, store, hseen, hfresh.content hseen, Option.or_none, if_true, Bool.false_eq_true, if_false,
      textOf_cons_self hkey, textOf_cons_of_ne content_ne_reasoningContent]
  · simp only [found, store, hseen, hfresh.reasoning hseen, Option.or_none, if_true, Bool.false_eq_true, if_false,
      textOf_cons_self hkey, textOf_cons_of_ne content_ne_reasoningContent.symm]

end FieldScan

/-- What follows a member of an object. -/
theorem exists_tail (key : Text) (value : Json) (fields : List (Text × Json)) (us : List Token) :
    ∃ tail, fieldTokens ((key, value) :: fields) ++ .closeBrace :: us = .string key :: .colon :: (tokens value ++ tail) ∧
      tail.head? ≠ some .colon ∧
        ∀ {s : FieldScan} {d : DeltaFields}, Scans s (fieldTokens fields ++ .closeBrace :: us) d → Scans s tail d := by
  cases fields with
  | nil => exact ⟨.closeBrace :: us, rfl, by simp, fun h => h⟩
  | cons field fields =>
    refine ⟨.comma :: (fieldTokens (field :: fields) ++ .closeBrace :: us), ?_, by simp, fun h => .comma h⟩
    rw [fieldTokens_cons_cons, List.cons_append, List.cons_append, List.append_assoc, List.cons_append]

/-- The scan of the members of an object finds its fields. -/
theorem scans_members {fields : List (Text × Json)} (us : List Token) (hone : s.depth = 1) (hfresh : s.Fresh)
    (hkeys : (fields.map Prod.fst).Nodup) : Scans s (fieldTokens fields ++ .closeBrace :: us) (s.found fields) := by
  induction fields generalizing s with
  | nil =>
    have hdepth : s.depth ≠ 0 := by rw [hone]; decide
    rw [FieldScan.found_nil hfresh]
    refine .closeBrace hdepth fun t _ => ?_
    exact scanFields_zero (by rw [hone]) t
  | cons member fields ih =>
    obtain ⟨key, value⟩ := member
    rw [List.map_cons, List.nodup_cons] at hkeys
    have hdepth : s.depth ≠ 0 := by rw [hone]; decide
    obtain ⟨tail, htokens, hhead, htail⟩ := exists_tail key value fields us
    rw [htokens]
    cases hdest : s.destination key with
    | none =>
      rw [FieldScan.found_cons_of_destination_eq_none hdest]
      exact .key hdepth (fun _ => hdest) (.tokens value hdepth hhead (htail (ih hone hfresh hkeys.2)))
    | some field =>
      rw [FieldScan.found_cons_of_destination_eq_some hfresh hdest hkeys.1]
      have hstore := ih ((s.depth_store field value.asStr).trans hone) (FieldScan.fresh_store hfresh field value.asStr) hkeys.2
      have hseen := fun hcontent hreasoning => FieldScan.found_of_seen (s := s.store field value.asStr) hcontent hreasoning fields
      have hstoreDepth : (s.store field value.asStr).depth ≠ 0 := by rw [s.depth_store]; exact hdepth
      have hvalue := Scans.tokens value hstoreDepth hhead (htail hstore)
      cases value with
      | string raw => exact .fieldString hone hdest (htail hstore) hseen
      | null | bool b | number n | array items | object fields' => exact .fieldOther hone hdest (by simp) hvalue hseen

end OpenProxy.Accumulator
