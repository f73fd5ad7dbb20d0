import OpenProxy.Data.Json
import OpenProxy.Data.Machine

/-!
# JSON texts

The reader and the writer of `serde_json`.  The reader is two machines: one reads a text character by character and emits
tokens (`lexStep`), the other one reads the tokens and keeps the arrays and objects that are still open (`readStep`).
What the writer writes is read back (`read_write`), so that two values are equal when the same text is written for them,
and a text stays readable when one string value in it is replaced by another (`read_replaced`).
-/

namespace OpenProxy

/-- The tokens of a JSON text. -/
inductive Token
  | openBrace
  | closeBrace
  | openBracket
  | closeBracket
  | comma
  | colon
  | string (s : Text)
  | number (n : JsonNumber)
  | bool (b : Bool)
  | null
  deriving DecidableEq

/-! ### From characters to tokens -/

/-- Where the machine stands between two characters. -/
inductive LexState
  /-- Between tokens. -/
  | between
  /-- In a number or in the name of a constant. -/
  | word (w : Text)
  /-- In a string, of which `s` has been read. -/
  | string (s : Text)
  /-- After a backslash. -/
  | escape (s : Text)
  /-- After `\u` and less than four digits. -/
  | unicode (s : Text) (hex : List Nat)
  /-- After the first half of a surrogate pair; the second one has to follow. -/
  | surrogate (s : Text) (high : Nat)
  | surrogateEscape (s : Text) (high : Nat)
  | low (s : Text) (high : Nat) (hex : List Nat)
  deriving DecidableEq

/-- The characters of numbers and constants. -/
def isWordChar (c : Char) : Bool := c.isAlphanum || c == '+' || c == '-' || c == '.'

theorem not_isWhitespace_of_isWordChar {c : Char} (h : isWordChar c = true) : isWhitespace c = false := by
  rw [Bool.eq_false_iff]
  intro hspace
  delta isWordChar Char.isAlphanum Char.isAlpha Char.isUpper Char.isLower Char.isDigit at h
  simp only [Bool.or_eq_true, beq_iff_eq, Bool.and_eq_true, decide_eq_true_eq, ge_iff_le, UInt32.le_iff_toNat_le] at h
  simp only [isWhitespace, Bool.or_eq_true, Bool.and_eq_true, beq_iff_eq, decide_eq_true_eq] at hspace
  have hval : c.toNat = c.val.toNat := rfl
  have hA : 'A'.val.toNat = 65 := rfl
  have hZ : 'Z'.val.toNat = 90 := rfl
  have ha : 'a'.val.toNat = 97 := rfl
  have hz : 'z'.val.toNat = 122 := rfl
  have h0 : '0'.val.toNat = 48 := rfl
  have h9 : '9'.val.toNat = 57 := rfl
  rcases h with ((((h | h) | h) | rfl) | rfl) | rfl
  · omega
  · omega
  · omega
  · revert hspace; decide
  · revert hspace; decide
  · revert hspace; decide

theorem not_isWordChar_of_isWhitespace {c : Char} (h : isWhitespace c = true) : isWordChar c = false := by
  rw [Bool.eq_false_iff]
  intro hword
  rw [not_isWhitespace_of_isWordChar hword] at h
  cases h

/-- The token that a word is. -/
def wordToken (w : Text) : Option Token :=
  if w = ['t', 'r', 'u', 'e'] then some (.bool true)
  else if w = ['f', 'a', 'l', 's', 'e'] then some (.bool false)
  else if w = ['n', 'u', 'l', 'l'] then some .null
  else if h : isNumber w = true then some (.number ⟨w, h⟩)
  else none

/-- The token of a punctuation character. -/
def punctuation (c : Char) : Option Token :=
  if c = '\x7b' then some .openBrace
  else if c = '\x7d' then some .closeBrace
  else if c = '[' then some .openBracket
  else if c = ']' then some .closeBracket
  else if c = ',' then some .comma
  else if c = ':' then some .colon
  else none

def isJsonWhitespace (c : Char) : Bool := c == ' ' || c == '\n' || c == '\t' || c == '\r'

theorem isAsciiWhitespace_of_isJsonWhitespace {c : Char} (h : isJsonWhitespace c = true) : isAsciiWhitespace c = true := by
  simp only [isJsonWhitespace, Bool.or_eq_true, beq_iff_eq] at h
  rcases h with ((rfl | rfl) | rfl) | rfl <;> decide

/-- A character between two tokens. -/
def lexBetween (c : Char) : Option (LexState × List Token) :=
  match punctuation c with
  | some token => some (.between, [token])
  | none =>
    if isJsonWhitespace c then some (.between, [])
    else if c = '"' then some (.string [], [])
    else if isWordChar c then some (.word [c], [])
    else none

/-- The value of a hexadecimal digit. -/
def hexValue (c : Char) : Option Nat :=
  let n := c.toNat
  if 48 ≤ n ∧ n ≤ 57 then some (n - 48)
  else if 97 ≤ n ∧ n ≤ 102 then some (n - 87)
  else if 65 ≤ n ∧ n ≤ 70 then some (n - 55)
  else none

/-- The number with the given hexadecimal digits. -/
def ofHex (hex : List Nat) : Nat := hex.foldl (fun n d => n * 16 + d) 0

/-- The state after the four digits of `\u`. -/
def afterUnicode (s : Text) (n : Nat) : Option LexState :=
  if 0xD800 ≤ n ∧ n ≤ 0xDBFF then some (.surrogate s n)
  else if 0xDC00 ≤ n ∧ n ≤ 0xDFFF then none
  else some (.string (s ++ [Char.ofNat n]))

/-- The state after the four digits of the second half of a surrogate pair. -/
def afterLow (s : Text) (high n : Nat) : Option LexState :=
  if 0xDC00 ≤ n ∧ n ≤ 0xDFFF then
    some (.string (s ++ [Char.ofNat (0x10000 + (high - 0xD800) * 0x400 + (n - 0xDC00))]))
  else none

/-- A character after a backslash. -/
def afterEscape (s : Text) (c : Char) : Option LexState :=
  if c = '"' ∨ c = '\\' ∨ c = '/' then some (.string (s ++ [c]))
  else if c = 'b' then some (.string (s ++ ['\x08']))
  else if c = 'f' then some (.string (s ++ ['\x0c']))
  else if c = 'n' then some (.string (s ++ ['\n']))
  else if c = 'r' then some (.string (s ++ ['\r']))
  else if c = 't' then some (.string (s ++ ['\t']))
  else if c = 'u' then some (.unicode s [])
  else none

/-- One more digit; the fourth one is followed by `next`. -/
def withDigit (hex : List Nat) (c : Char) (more : List Nat → LexState) (next : Nat → Option LexState) :
    Option LexState :=
  (hexValue c).bind fun d =>
    if hex.length = 3 then next (ofHex (hex ++ [d])) else some (more (hex ++ [d]))

/-- One character. -/
def lexStep : LexState → Char → Option (LexState × List Token)
  | .between, c => lexBetween c
  | .word w, c =>
    if isWordChar c then some (.word (w ++ [c]), [])
    else (wordToken w).bind fun token => (lexBetween c).map fun next => (next.1, token :: next.2)
  | .string s, c =>
    if c = '"' then some (.between, [.string s])
    else if c = '\\' then some (.escape s, [])
    else if c.toNat < 0x20 then none
    else some (.string (s ++ [c]), [])
  | .escape s, c => (afterEscape s c).map fun next => (next, [])
  | .unicode s hex, c => (withDigit hex c (.unicode s) (afterUnicode s)).map fun next => (next, [])
  | .surrogate s high, c => if c = '\\' then some (.surrogateEscape s high, []) else none
  | .surrogateEscape s high, c => if c = 'u' then some (.low s high [], []) else none
  | .low s high hex, c => (withDigit hex c (.low s high) (afterLow s high)).map fun next => (next, [])

/-- The machine over a text. -/
@[grind =] def lexFrom : LexState → Text → Option (LexState × List Token)
  | x, [] => some (x, [])
  | x, c :: t =>
    (lexStep x c).bind fun next => (lexFrom next.1 t).map fun last => (last.1, next.2 ++ last.2)

/-- What the end of the text completes. -/
def lexEnd : LexState → Option (List Token)
  | .between => some []
  | .word w => (wordToken w).map fun token => [token]
  | _ => none

/-- The tokens of a text. -/
def lex (t : Text) : Option (List Token) :=
  (lexFrom .between t).bind fun last => (lexEnd last.1).map fun tokens => last.2 ++ tokens

/-! ### From tokens to values -/

/-- An array or an object that is still open. -/
inductive Frame
  | array (items : List Json)
  | object (fields : List (Text × Json)) (key : Text)

/-- Where the second machine stands between two tokens. -/
inductive ReadState
  /-- A value has to follow. -/
  | value (stack : List Frame)
  /-- At the beginning of an array or of an object. -/
  | firstItem (stack : List Frame)
  | firstKey (stack : List Frame)
  /-- After an item of an array or a member of an object. -/
  | items (items : List Json) (stack : List Frame)
  | fields (fields : List (Text × Json)) (stack : List Frame)
  /-- A name has to follow, and then a colon. -/
  | key (fields : List (Text × Json)) (stack : List Frame)
  | colon (fields : List (Text × Json)) (key : Text) (stack : List Frame)
  /-- The document is complete. -/
  | done (v : Json)

/-- A complete value goes into the array or object that is open. -/
def deliver (v : Json) : List Frame → ReadState
  | [] => .done v
  | .array items :: stack => .items (items ++ [v]) stack
  | .object fields key :: stack => .fields (fields ++ [(key, v)]) stack

/-- A token where a value has to stand. -/
def readValue (stack : List Frame) : Token → Option ReadState
  | .openBrace => some (.firstKey stack)
  | .openBracket => some (.firstItem stack)
  | .string s => some (deliver (.string s) stack)
  | .number n => some (deliver (.number n) stack)
  | .bool b => some (deliver (.bool b) stack)
  | .null => some (deliver .null stack)
  | _ => none

/-- One token. -/
def readStep : ReadState → Token → Option ReadState
  | .value stack, token => readValue stack token
  | .firstItem stack, .closeBracket => some (deliver (.array []) stack)
  | .firstItem stack, token => readValue (.array [] :: stack) token
  | .firstKey stack, .closeBrace => some (deliver (.object []) stack)
  | .firstKey stack, .string key => some (.colon [] key stack)
  | .items items stack, .comma => some (.value (.array items :: stack))
  | .items items stack, .closeBracket => some (deliver (.array items) stack)
  | .fields fields stack, .comma => some (.key fields stack)
  | .fields fields stack, .closeBrace => some (deliver (.object fields) stack)
  | .key fields stack, .string key => some (.colon fields key stack)
  | .colon fields key stack, .colon => some (.value (.object fields key :: stack))
  | _, _ => none

/-- The document with the given tokens. -/
def readTokens (tokens : List Token) : Option Json :=
  match watch readStep (.value []) tokens with
  | some (.done v) => some v
  | _ => none

/-- The document that a text holds. -/
def read (t : Text) : Option Json := (lex t).bind readTokens

/-- `serde_json::from_str::<Value>`, which does not read documents deeper than 127. -/
def fromStr (t : Text) : Option Json :=
  (read t).bind fun v => if v.depth ≤ 127 then some v.normal else none

/-! ### The writer -/

/-- A hexadecimal digit. -/
def hexDigit (d : Nat) : Char := if d < 10 then Char.ofNat (48 + d) else Char.ofNat (87 + d)

/-- A character of a string. -/
def escapeChar (c : Char) : Text :=
  if c = '"' then ['\\', '"']
  else if c = '\\' then ['\\', '\\']
  else if c = '\x08' then ['\\', 'b']
  else if c = '\x0c' then ['\\', 'f']
  else if c = '\n' then ['\\', 'n']
  else if c = '\r' then ['\\', 'r']
  else if c = '\t' then ['\\', 't']
  else if c.toNat < 0x20 then ['\\', 'u', '0', '0', hexDigit (c.toNat / 16), hexDigit (c.toNat % 16)]
  else [c]

/-- A string with its quotation marks. -/
def quote (s : Text) : Text := '"' :: (s.flatMap escapeChar ++ ['"'])

mutual

/-- `serde_json::to_string`. -/
def write : Json → Text
  | .null => ['n', 'u', 'l', 'l']
  | .bool true => ['t', 'r', 'u', 'e']
  | .bool false => ['f', 'a', 'l', 's', 'e']
  | .number n => n.digits
  | .string s => quote s
  | .array items => '[' :: (writeItems items ++ [']'])
  | .object fields => '\x7b' :: (writeFields fields ++ ['\x7d'])

def writeItems : List Json → Text
  | [] => []
  | [item] => write item
  | item :: items => write item ++ ',' :: writeItems items

def writeFields : List (Text × Json) → Text
  | [] => []
  | [(key, value)] => quote key ++ ':' :: write value
  | (key, value) :: fields => quote key ++ ':' :: (write value ++ ',' :: writeFields fields)

end

mutual

/-- The tokens of what is written. -/
def tokens : Json → List Token
  | .null => [.null]
  | .bool b => [.bool b]
  | .number n => [.number n]
  | .string s => [.string s]
  | .array items => .openBracket :: (itemTokens items ++ [.closeBracket])
  | .object fields => .openBrace :: (fieldTokens fields ++ [.closeBrace])

def itemTokens : List Json → List Token
  | [] => []
  | [item] => tokens item
  | item :: items => tokens item ++ .comma :: itemTokens items

def fieldTokens : List (Text × Json) → List Token
  | [] => []
  | [(key, value)] => .string key :: .colon :: tokens value
  | (key, value) :: fields => .string key :: .colon :: (tokens value ++ .comma :: fieldTokens fields)

end

/-! ### Texts character by character -/

theorem lexFrom_append (x : LexState) (s t : Text) :
    lexFrom x (s ++ t) =
      (lexFrom x s).bind fun a => (lexFrom a.1 t).map fun b => (b.1, a.2 ++ b.2) := by
  induction s generalizing x with
  | nil =>
    simp only [List.nil_append, lexFrom, Option.bind_some]
    cases lexFrom x t <;> rfl
  | cons c s ih =>
    simp only [List.cons_append, lexFrom]
    cases lexStep x c with
    | none => rfl
    | some next =>
      simp only [Option.bind_some, ih]
      cases lexFrom next.1 s with
      | none => rfl
      | some mid =>
        simp only [Option.bind_some, Option.map_some]
        cases lexFrom mid.1 t with
        | none => rfl
        | some last => simp

theorem lexFrom_trans {x y z : LexState} {s t : Text} {ts us : List Token} (hs : lexFrom x s = some (y, ts))
    (ht : lexFrom y t = some (z, us)) : lexFrom x (s ++ t) = some (z, ts ++ us) := by
  simp [lexFrom_append, hs, ht]

theorem exists_lexFrom {x z : LexState} {s t : Text} {ts : List Token} (h : lexFrom x (s ++ t) = some (z, ts)) :
    ∃ y us vs, lexFrom x s = some (y, us) ∧ lexFrom y t = some (z, vs) ∧ ts = us ++ vs := by
  rw [lexFrom_append, Option.bind_eq_some_iff] at h
  obtain ⟨⟨y, us⟩, hs, h⟩ := h
  rw [Option.map_eq_some_iff] at h
  obtain ⟨⟨z', vs⟩, ht, h⟩ := h
  cases h
  exact ⟨y, us, vs, hs, ht, rfl⟩

theorem lexFrom_cons {x y z : LexState} {c : Char} {t : Text} {ts us : List Token} (hc : lexStep x c = some (y, ts))
    (ht : lexFrom y t = some (z, us)) : lexFrom x (c :: t) = some (z, ts ++ us) := by
  simp [lexFrom, hc, ht]

theorem exists_lexFrom_cons {x z : LexState} {c : Char} {t : Text} {ts : List Token} (h : lexFrom x (c :: t) = some (z, ts)) :
    ∃ y us vs, lexStep x c = some (y, us) ∧ lexFrom y t = some (z, vs) ∧ ts = us ++ vs := by
  rw [lexFrom, Option.bind_eq_some_iff] at h
  obtain ⟨⟨y, us⟩, hc, h⟩ := h
  rw [Option.map_eq_some_iff] at h
  obtain ⟨⟨z', vs⟩, ht, h⟩ := h
  cases h
  exact ⟨y, us, vs, hc, ht, rfl⟩

theorem lex_eq_some {t : Text} {ts : List Token} :
    lex t = some ts ↔ ∃ y us vs, lexFrom .between t = some (y, us) ∧ lexEnd y = some vs ∧ ts = us ++ vs := by
  unfold lex
  constructor
  · intro h
    rw [Option.bind_eq_some_iff] at h
    obtain ⟨⟨y, us⟩, hy, h⟩ := h
    rw [Option.map_eq_some_iff] at h
    obtain ⟨vs, hvs, h⟩ := h
    exact ⟨y, us, vs, hy, hvs, h.symm⟩
  · rintro ⟨y, us, vs, hy, hvs, rfl⟩
    simp [hy, hvs]

/-- Tokens that are complete can be read on their own. -/
theorem lex_append {s t : Text} {ts us : List Token} (hs : lexFrom .between s = some (.between, ts))
    (ht : lex t = some us) : lex (s ++ t) = some (ts ++ us) := by
  obtain ⟨y, as, bs, hy, hbs, rfl⟩ := lex_eq_some.mp ht
  exact lex_eq_some.mpr ⟨y, ts ++ as, bs, lexFrom_trans hs hy, hbs, by simp⟩

theorem lex_of_between {t : Text} {ts : List Token} (h : lexFrom .between t = some (.between, ts)) :
    lex t = some ts := lex_eq_some.mpr ⟨_, ts, [], h, rfl, by simp⟩

theorem isWordChar_of_punctuation {c : Char} {token : Token} (h : punctuation c = some token) :
    isWordChar c = false := by
  unfold punctuation at h
  repeat' split at h
  all_goals first | (rename_i hc; subst hc; decide) | cases h

private theorem lexBetween_punctuation {c : Char} {token : Token} (h : punctuation c = some token) :
    lexBetween c = some (.between, [token]) := by
  simp [lexBetween, h]

/-- A punctuation character completes the token before it. -/
theorem lexFrom_punctuation {t : Text} {ts : List Token} {c : Char} {token : Token} (ht : lex t = some ts)
    (hc : punctuation c = some token) : lexFrom .between (t ++ [c]) = some (.between, ts ++ [token]) := by
  obtain ⟨y, as, bs, hy, hbs, rfl⟩ := lex_eq_some.mp ht
  rw [List.append_assoc]
  refine lexFrom_trans hy ?_
  cases y with
  | between =>
    simp only [lexEnd, Option.some.injEq] at hbs
    simp [lexFrom, lexStep, lexBetween_punctuation hc, ← hbs]
  | word w =>
    simp only [lexEnd, Option.map_eq_some_iff] at hbs
    obtain ⟨u, hu, rfl⟩ := hbs
    simp [lexFrom, lexStep, isWordChar_of_punctuation hc, hu, lexBetween_punctuation hc]
  | _ => simp [lexEnd] at hbs

/-! ### Strings -/

private theorem hexValue_hexDigit : ∀ d < 16, hexValue (hexDigit d) = some d := by decide

private theorem lexFrom_escapeChar (s : Text) (c : Char) :
    lexFrom (.string s) (escapeChar c) = some (.string (s ++ [c]), []) := by
  unfold escapeChar
  split_ifs with h1 h2 h3 h4 h5 h6 h7 h8
  · subst h1; rfl
  · subst h2; rfl
  · subst h3; rfl
  · subst h4; rfl
  · subst h5; rfl
  · subst h6; rfl
  · subst h7; rfl
  · -- a control character is written with its number
    have hhigh := hexValue_hexDigit (c.toNat / 16) (by omega)
    have hlow := hexValue_hexDigit (c.toNat % 16) (by omega)
    have hzero : hexValue '0' = some 0 := by decide
    have hof : ofHex [0, 0, c.toNat / 16, c.toNat % 16] = c.toNat := by
      simp only [ofHex, List.foldl_cons, List.foldl_nil]
      omega
    have hafter : afterUnicode s c.toNat = some (.string (s ++ [c])) := by
      unfold afterUnicode
      rw [if_neg (by omega), if_neg (by omega), Char.ofNat_toNat]
    simp [lexFrom, lexStep, afterEscape, withDigit, hhigh, hlow, hzero, hof, hafter]
  · simp [lexFrom, lexStep, h1, h2, h8]

private theorem lexFrom_escaped (s t : Text) :
    lexFrom (.string s) (t.flatMap escapeChar) = some (.string (s ++ t), []) := by
  induction t generalizing s with
  | nil => simp [lexFrom]
  | cons c t ih =>
    rw [List.flatMap_cons]
    have h := lexFrom_trans (lexFrom_escapeChar s c) (ih (s ++ [c]))
    simpa using h

/-- A string is read back. -/
theorem lexFrom_quote (s : Text) : lexFrom .between (quote s) = some (.between, [.string s]) := by
  have hopen : lexStep .between '"' = some (.string [], []) := by decide
  have hclose : lexFrom (.string s) ['"'] = some (.between, [.string s]) := by simp [lexFrom, lexStep]
  have h := lexFrom_cons hopen (lexFrom_trans (lexFrom_escaped [] s) hclose)
  simpa [quote] using h

/-! ### Numbers and constants -/

private theorem all_isWordChar_of_isDigit {s : Text} (h : s.all Char.isDigit = true) : s.all isWordChar = true := by
  rw [List.all_eq_true] at h ⊢
  intro c hc
  simp [isWordChar, Char.isAlphanum, h c hc]

/-- A text whose leading digits and whose rest consist of word characters. -/
private theorem all_isWordChar_of_dropWhile {s : Text} (h : (s.dropWhile Char.isDigit).all isWordChar = true) :
    s.all isWordChar = true := by
  have hsplit : s = s.takeWhile Char.isDigit ++ s.dropWhile Char.isDigit := List.takeWhile_append_dropWhile.symm
  rw [hsplit, List.all_append, Bool.and_eq_true]
  exact ⟨all_isWordChar_of_isDigit List.all_takeWhile, h⟩

private theorem all_isWordChar_of_isExponent {s : Text} (h : isExponent s = true) : s.all isWordChar = true := by
  cases s with
  | nil => rfl
  | cons c s =>
    simp only [isExponent, Bool.and_eq_true, Bool.or_eq_true, beq_iff_eq] at h
    obtain ⟨⟨hc, -⟩, hs⟩ := h
    have hc' : isWordChar c = true := by
      rcases hc with rfl | rfl <;> decide
    have hs' : s.all isWordChar = true := by
      split at hs
      · rename_i hsign
        cases s with
        | nil => rfl
        | cons d s =>
          simp only [List.head?_cons, Option.some.injEq] at hsign
          have hd : isWordChar d = true := by
            rcases hsign with rfl | rfl <;> decide
          simp only [List.all_cons, hd, Bool.true_and]
          exact all_isWordChar_of_isDigit hs
      · exact all_isWordChar_of_isDigit hs
    simp only [List.all_cons, hc', hs', Bool.and_self]

private theorem all_isWordChar_of_isFraction {s : Text} (h : isFraction s = true) : s.all isWordChar = true := by
  unfold isFraction at h
  split at h
  · rename_i s
    rw [Bool.and_eq_true] at h
    have hdot : isWordChar '.' = true := by decide
    simp only [List.all_cons, hdot, Bool.true_and]
    exact all_isWordChar_of_dropWhile (all_isWordChar_of_isExponent h.2)
  · exact all_isWordChar_of_isExponent h

theorem all_isWordChar_of_isNumber {s : Text} (h : isNumber s = true) : s.all isWordChar = true := by
  simp only [isNumber, Bool.and_eq_true] at h
  have hall := all_isWordChar_of_dropWhile (all_isWordChar_of_isFraction h.2)
  split at hall
  · rename_i hminus
    cases s with
    | nil => rfl
    | cons c s =>
      simp only [List.head?_cons, Option.some.injEq] at hminus
      subst hminus
      have hminus : isWordChar '-' = true := by decide
      simp only [List.all_cons, hminus, Bool.true_and]
      exact hall
  · exact hall

private theorem lexFrom_word {w s : Text} (h : s.all isWordChar = true) :
    lexFrom (.word w) s = some (.word (w ++ s), []) := by
  induction s generalizing w with
  | nil => simp [lexFrom]
  | cons c s ih =>
    simp only [List.all_cons, Bool.and_eq_true] at h
    have hc : lexStep (.word w) c = some (.word (w ++ [c]), []) := by simp [lexStep, h.1]
    have := lexFrom_cons hc (ih h.2)
    simpa using this

theorem punctuation_of_isWordChar {c : Char} (h : isWordChar c = true) : punctuation c = none := by
  cases hc : punctuation c with
  | none => rfl
  | some token =>
    rw [isWordChar_of_punctuation hc] at h
    cases h

private theorem lexBetween_of_isWordChar {c : Char} (h : isWordChar c = true) :
    lexBetween c = some (.word [c], []) := by
  have hspace : isJsonWhitespace c = false := by
    rw [Bool.eq_false_iff]
    intro hs
    simp only [isJsonWhitespace, Bool.or_eq_true, beq_iff_eq] at hs
    rcases hs with ((rfl | rfl) | rfl) | rfl <;> exact absurd h (by decide)
  have hquote : c ≠ '"' := by
    rintro rfl
    exact absurd h (by decide)
  simp [lexBetween, punctuation_of_isWordChar h, hspace, hquote, h]

/-- A word of word characters is one token. -/
theorem lex_word {w : Text} {token : Token} (hw : w.all isWordChar = true) (hne : w ≠ [])
    (htoken : wordToken w = some token) : lex w = some [token] := by
  cases w with
  | nil => exact absurd rfl hne
  | cons c w =>
    simp only [List.all_cons, Bool.and_eq_true] at hw
    have hc : lexStep .between c = some (.word [c], []) := lexBetween_of_isWordChar hw.1
    refine lex_eq_some.mpr ⟨.word (c :: w), [], [token], ?_, ?_, rfl⟩
    · exact lexFrom_cons hc (lexFrom_word hw.2)
    · simp [lexEnd, htoken]

theorem wordToken_number (n : JsonNumber) : wordToken n.digits = some (.number n) := by
  have hvalid := n.valid
  have hne : ∀ w, isNumber w = false → n.digits ≠ w := by
    rintro w hw rfl
    rw [hw] at hvalid
    cases hvalid
  unfold wordToken
  rw [if_neg (hne _ (by decide)), if_neg (hne _ (by decide)), if_neg (hne _ (by decide)), dif_pos hvalid]

theorem lex_number (n : JsonNumber) : lex n.digits = some [.number n] := by
  refine lex_word (all_isWordChar_of_isNumber n.valid) ?_ (wordToken_number n)
  intro h
  have hvalid := n.valid
  rw [h] at hvalid
  exact absurd hvalid (by decide)

/-! ### What is written is read back -/

mutual

/-- The tokens of a written value. -/
theorem lex_write : (v : Json) → lex (write v) = some (tokens v)
  | .null => by decide
  | .bool true => by decide
  | .bool false => by decide
  | .number n => lex_number n
  | .string s => lex_of_between (lexFrom_quote s)
  | .array items => by
    have hopen : lexFrom .between ['['] = some (.between, [.openBracket]) := by decide
    have hitems := lexFrom_punctuation (lex_writeItems items) (show punctuation ']' = some .closeBracket by decide)
    simpa [write, tokens] using lex_append hopen (lex_of_between hitems)
  | .object fields => by
    have hopen : lexFrom .between ['\x7b'] = some (.between, [.openBrace]) := by decide
    have hfields := lexFrom_punctuation (lex_writeFields fields) (show punctuation '\x7d' = some .closeBrace by decide)
    simpa [write, tokens] using lex_append hopen (lex_of_between hfields)

theorem lex_writeItems : (items : List Json) → lex (writeItems items) = some (itemTokens items)
  | [] => by decide
  | [item] => by simpa [writeItems, itemTokens] using lex_write item
  | item :: item' :: items => by
    have hitem := lexFrom_punctuation (lex_write item) (show punctuation ',' = some .comma by decide)
    simpa [writeItems, itemTokens] using lex_append hitem (lex_writeItems (item' :: items))

theorem lex_writeFields : (fields : List (Text × Json)) → lex (writeFields fields) = some (fieldTokens fields)
  | [] => by decide
  | [(key, value)] => by
    have hkey := lexFrom_punctuation (lex_of_between (lexFrom_quote key)) (show punctuation ':' = some .colon by decide)
    simpa [writeFields, fieldTokens] using lex_append hkey (lex_write value)
  | (key, value) :: field :: fields => by
    have hkey := lexFrom_punctuation (lex_of_between (lexFrom_quote key)) (show punctuation ':' = some .colon by decide)
    have hvalue := lexFrom_punctuation (lex_write value) (show punctuation ',' = some .comma by decide)
    simpa [writeFields, fieldTokens] using lex_append hkey (lex_append hvalue (lex_writeFields (field :: fields)))

end

/-- The first token of a value does not close an array. -/
private theorem exists_tokens_eq (v : Json) : ∃ token ts, tokens v = token :: ts ∧ token ≠ .closeBracket := by
  cases v with
  | null => exact ⟨.null, [], rfl, by decide⟩
  | bool b => exact ⟨.bool b, [], rfl, by simp⟩
  | number n => exact ⟨.number n, [], rfl, by simp⟩
  | string s => exact ⟨.string s, [], rfl, by simp⟩
  | array items => exact ⟨.openBracket, itemTokens items ++ [.closeBracket], by rw [tokens], by decide⟩
  | object fields => exact ⟨.openBrace, fieldTokens fields ++ [.closeBrace], by rw [tokens], by decide⟩

/-- The first item is read as the ones after a comma are. -/
private theorem watch_firstItem (stack : List Frame) (v : Json) (rest : List Token) :
    watch readStep (.firstItem stack) (tokens v ++ rest) =
      watch readStep (.value (.array [] :: stack)) (tokens v ++ rest) := by
  obtain ⟨token, ts, htokens, htoken⟩ := exists_tokens_eq v
  have hstep : readStep (.firstItem stack) token = readStep (.value (.array [] :: stack)) token := by
    cases token with
    | closeBracket => exact absurd rfl htoken
    | _ => rfl
  rw [htokens, List.cons_append, watch_cons, watch_cons, hstep]

mutual

/-- The tokens of a value deliver the value. -/
theorem watch_tokens : (v : Json) → (stack : List Frame) → (rest : List Token) →
    watch readStep (.value stack) (tokens v ++ rest) = watch readStep (deliver v stack) rest
  | .null, _, _ => rfl
  | .bool _, _, _ => rfl
  | .number _, _, _ => rfl
  | .string _, _, _ => rfl
  | .array [], _, _ => rfl
  | .array (item :: items), stack, rest => by
    have hfirst : watch readStep (.firstItem stack) (itemTokens (item :: items) ++ .closeBracket :: rest) =
        watch readStep (.value (.array [] :: stack)) (itemTokens (item :: items) ++ .closeBracket :: rest) := by
      cases items with
      | nil => exact watch_firstItem stack item _
      | cons item' items =>
        simp only [itemTokens, List.append_assoc]
        exact watch_firstItem stack item _
    have hitems := watch_itemTokens (item :: items) (by simp) [] stack (.closeBracket :: rest)
    simp only [tokens, List.cons_append, List.append_assoc, watch_cons, readStep, readValue, Option.bind_some,
      List.nil_append]
    rw [hfirst, hitems]
    rfl
  | .object [], _, _ => rfl
  | .object ((key, value) :: fields), stack, rest => by
    have hfields := watch_fieldTokens ((key, value) :: fields) (by simp) [] stack (.closeBrace :: rest)
    have hfirst : watch readStep (.firstKey stack) (fieldTokens ((key, value) :: fields) ++ .closeBrace :: rest) =
        watch readStep (.key [] stack) (fieldTokens ((key, value) :: fields) ++ .closeBrace :: rest) := by
      cases fields <;> rfl
    simp only [tokens, List.cons_append, List.append_assoc, watch_cons, readStep, readValue, Option.bind_some,
      List.nil_append]
    rw [hfirst, hfields]
    rfl

theorem watch_itemTokens : (items : List Json) → items ≠ [] → (before : List Json) → (stack : List Frame) →
    (rest : List Token) → watch readStep (.value (.array before :: stack)) (itemTokens items ++ rest) =
      watch readStep (.items (before ++ items) stack) rest
  | [], hne, _, _, _ => absurd rfl hne
  | [item], _, before, stack, rest => watch_tokens item (.array before :: stack) rest
  | item :: item' :: items, _, before, stack, rest => by
    have hitem := watch_tokens item (.array before :: stack) (.comma :: (itemTokens (item' :: items) ++ rest))
    have hitems := watch_itemTokens (item' :: items) (by simp) (before ++ [item]) stack rest
    simp only [itemTokens, List.append_assoc, List.cons_append]
    rw [hitem]
    simp only [deliver, watch_cons, readStep, Option.bind_some]
    rw [hitems, List.append_assoc, List.singleton_append]

theorem watch_fieldTokens : (fields : List (Text × Json)) → fields ≠ [] → (before : List (Text × Json)) →
    (stack : List Frame) → (rest : List Token) → watch readStep (.key before stack) (fieldTokens fields ++ rest) =
      watch readStep (.fields (before ++ fields) stack) rest
  | [], hne, _, _, _ => absurd rfl hne
  | [(key, value)], _, before, stack, rest => watch_tokens value (.object before key :: stack) rest
  | (key, value) :: field :: fields, _, before, stack, rest => by
    have hvalue := watch_tokens value (.object before key :: stack) (.comma :: (fieldTokens (field :: fields) ++ rest))
    have hfields := watch_fieldTokens (field :: fields) (by simp) (before ++ [(key, value)]) stack rest
    simp only [fieldTokens, List.append_assoc, List.cons_append, watch_cons, readStep, Option.bind_some]
    rw [hvalue]
    simp only [deliver, watch_cons, readStep, Option.bind_some]
    rw [hfields, List.append_assoc, List.singleton_append]

end

/-- What is written is read back. -/
theorem read_write (v : Json) : read (write v) = some v := by
  have h := watch_tokens v [] []
  simp only [List.append_nil, deliver, watch_nil] at h
  simp [read, lex_write, readTokens, h]

/-! ### Equality of values -/

theorem write_injective {v w : Json} (h : write v = write w) : v = w := by
  have hread := congrArg read h
  rw [read_write, read_write] at hread
  exact Option.some_inj.mp hread

theorem write_inj {v w : Json} : write v = write w ↔ v = w := ⟨write_injective, congrArg write⟩

instance instDecidableEqJson : DecidableEq Json := fun v w => decidable_of_iff (write v = write w) write_inj

end OpenProxy
