import OpenProxy.Compression.Compact

/-!
# The text techniques of lite compression

The passes of `apply_lite` that change the texts of messages: invisible characters and carriage returns, ANSI escape
sequences, trailing white space and runs of line breaks, and long separators.
-/

namespace OpenProxy.Compression

/-! ### Invisible characters -/

/-- `INVISIBLE`. -/
def invisible : List Char := ['\u200B', '\u200C', '\u200D', '\uFEFF', '\x00', '\r']

/-- `has_invisible_or_crlf`. -/
def hasInvisibleOrCrlf (text : Text) : Bool := text.any fun c => invisible.contains c

/-- The loop of `clean_text_unicode`. -/
def cleanLoop : Text → Text
  | [] => []
  | '\r' :: '\n' :: s => '\n' :: cleanLoop s
  | '\r' :: s => '\n' :: cleanLoop s
  | c :: s => if invisible.contains c then cleanLoop s else c :: cleanLoop s

/-- `clean_text_unicode`. -/
def cleanTextUnicode (text : Text) : Option Text :=
  if !hasInvisibleOrCrlf text then none
  else if cleanLoop text ≠ text then some (cleanLoop text) else none

/-- `clean_invisible_unicode`. -/
def cleanInvisibleUnicode (msgs : List OpenAIMessage) : List OpenAIMessage × List Text :=
  pass "lite::clean_unicode".toList cleanTextUnicode msgs

/-! ### Escape sequences -/

/-- The loops of `strip_ansi_string` and `skip_ansi_csi`; `csi` in a sequence, which ends with a character from `@` to
`~`. -/
def stripAnsiFrom : Bool → Text → Text
  | _, [] => []
  | true, c :: s => stripAnsiFrom (!(0x40 ≤ c.toNat && c.toNat ≤ 0x7E)) s
  | false, '\x1b' :: '[' :: s => stripAnsiFrom true s
  | false, '\x1b' :: s => stripAnsiFrom false s
  | false, c :: s => c :: stripAnsiFrom false s

/-- `strip_ansi_string`. -/
def stripAnsiString (text : Text) : Text := stripAnsiFrom false text

/-- `strip_ansi_escapes`. -/
def stripAnsiEscapes (msgs : List OpenAIMessage) : List OpenAIMessage × List Text :=
  pass "lite::strip_ansi".toList
    (fun text =>
      if text.contains '\x1b' ∧ stripAnsiString text ≠ text then some (stripAnsiString text) else none) msgs

/-! ### White space -/

def isBlank (c : Char) : Bool := c == ' ' || c == '\t'

/-- The loop of `needs_normalization`, with the number of line breaks before a character and whether there is white space
before it. -/
def needsNormalizationFrom : Nat → Bool → Text → Bool
  | _, trailing, [] => trailing
  | newlineRun, trailing, c :: s =>
    if c = '\n' then trailing || 2 ≤ newlineRun || needsNormalizationFrom (newlineRun + 1) trailing s
    else needsNormalizationFrom 0 (isBlank c) s

/-- `needs_normalization`. -/
def needsNormalization (s : Text) : Bool := needsNormalizationFrom 0 false s

/-- `trim_trailing_ws_in_place`. -/
def trimTrailingWs (out : Text) (start : Nat) : Text :=
  out.take start ++ ((out.drop start).reverse.dropWhile isBlank).reverse

/-- The loop of `normalize_message_whitespace`. -/
def normalizeLoop (out : Text) (newlineRun lineStart : Nat) : Text → Text
  | [] => trimTrailingWs out lineStart
  | c :: s =>
    if c = '\n' then
      if newlineRun + 1 ≤ 2 then
        let out := trimTrailingWs out lineStart ++ ['\n']
        normalizeLoop out (newlineRun + 1) out.length s
      else normalizeLoop out (newlineRun + 1) lineStart s
    else
      let lineStart := if 0 < newlineRun then out.length else lineStart
      normalizeLoop (out ++ [c]) 0 lineStart s

/-- `normalize_message_whitespace`; nothing where the text is normalized already. -/
def normalizeMessageWhitespace (s : Text) : Option Text :=
  if !needsNormalization s then none else some (normalizeLoop [] 0 0 s)

/-- `collapse_whitespace`. -/
def collapseWhitespace (msgs : List OpenAIMessage) : List OpenAIMessage × List Text :=
  pass "lite::collapse_whitespace".toList normalizeMessageWhitespace msgs

/-! ### Separators -/

/-- `SEPARATOR_CHARS`. -/
def separatorChars : List Char := ['-', '=', '*', '#', '_', '~']

/-- The inner loop of `has_long_separator_run`. -/
def hasRun (sep : Char) : Nat → Text → Bool
  | _, [] => false
  | count, c :: s => if c = sep then 12 ≤ count + 1 || hasRun sep (count + 1) s else hasRun sep 0 s

/-- `has_long_separator_run`. -/
def hasLongSeparatorRun (s : Text) : Bool := separatorChars.any fun sep => hasRun sep 0 s

/-- `flush_char_run`. -/
def flushCharRun (c : Char) (count : Nat) : Text :=
  List.replicate (if separatorChars.contains c && 12 ≤ count then 10 else count) c

/-- The loop of `collapse_separator_runs`, with the last character and how often it has come. -/
def collapseLoop : Option (Char × Nat) → Text → Text
  | run, [] => (run.map fun run => flushCharRun run.1 run.2).getD []
  | none, c :: s => collapseLoop (some (c, 1)) s
  | some (last, count), c :: s =>
    if last = c then collapseLoop (some (last, count + 1)) s
    else flushCharRun last count ++ collapseLoop (some (c, 1)) s

/-- `collapse_separator_runs`. -/
def collapseSeparatorRuns (s : Text) : Text := if !hasLongSeparatorRun s then s else collapseLoop none s

/-- `collapse_ascii_separators`. -/
def collapseAsciiSeparators (msgs : List OpenAIMessage) : List OpenAIMessage × List Text :=
  pass "lite::collapse_separators".toList
    (fun text => if collapseSeparatorRuns text = text then none else some (collapseSeparatorRuns text)) msgs

example : normalizeMessageWhitespace "a \n\n\n\nb".toList = some "a\n\nb".toList := by decide +kernel

example : stripAnsiString "\x1b[32mok\x1b[0m".toList = "ok".toList := by decide +kernel

end OpenProxy.Compression
