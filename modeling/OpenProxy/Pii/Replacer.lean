import OpenProxy.Pii.Session
import OpenProxy.Net.IpAddr
import OpenProxy.Text.Match
import OpenProxy.Text.Order

/-!
# The streaming replacer

`StreamingWindowReplacer` puts the originals back in place of the pseudonyms in a text that comes in chunks.  A match is
replaced unless it is a part of a longer token; what could still become a match is held back as pending text.
`PiiSession.restoreText` feeds a whole text to a fresh replacer.
-/

namespace OpenProxy.Pii

/-! ### Tokens and contacts -/

def isTokenChar (u : CharTables) (c : Char) : Bool := u.isAlphanumeric c || c == '_'

inductive ContactKind
  | email
  | ipv4
  | ipv6
  deriving DecidableEq, Repr

def contactKind (pattern : Text) : Option ContactKind :=
  if pattern.contains '@' then some .email
  else if (Net.parseIpv4Addr pattern).isSome then some .ipv4
  else if (Net.parseIpv6Addr pattern).isSome then some .ipv6
  else none

def extendsContactLeft (kind : ContactKind) (c : Char) : Bool :=
  match kind with
  | .email => ['.', '+', '%', '-', '\'', '@'].contains c
  | .ipv4 => ['.', '+', '%'].contains c
  | .ipv6 => c == ':'

/-- `some true`: a larger token; `some false`: a delimiter; `none`: the next chunk is needed. -/
def extendsContactRight (u : CharTables) (kind : ContactKind) (tail : Text) (isEof : Bool) : Option Bool :=
  match tail with
  | [] => some false
  | first :: rest =>
    if kind = .email ∧ ['-', '+', '%', '@'].contains first then some true
    else if kind = .ipv6 then some (first == ':' || first == '%')
    else if first = '.' then
      match rest with
      | next :: _ => some (isTokenChar u next || next == '-')
      | [] => if isEof then some false else none
    else some false

/-! ### The replacer -/

/-- The order of the patterns: the longest first, then by the pattern and by the replacement. -/
def byLength (a b : Text × Text) : Prop :=
  utf8Len b.1 < utf8Len a.1 ∨
    (utf8Len a.1 = utf8Len b.1 ∧ (textLt a.1 b.1 = true ∨ (a.1 = b.1 ∧ textLt b.2 a.2 = false)))

instance : DecidableRel byLength := fun _ _ => inferInstanceAs (Decidable (_ ∨ _))

theorem byLength_total (a b : Text × Text) : byLength a b ∨ byLength b a := by
  unfold byLength
  rcases lt_trichotomy (utf8Len a.1) (utf8Len b.1) with h | h | h
  · exact Or.inr (Or.inl h)
  · rcases textLt_trichotomy a.1 b.1 with h1 | h1 | h1
    · exact Or.inl (Or.inr ⟨h, Or.inl h1⟩)
    · cases h2 : textLt b.2 a.2 with
      | false => exact Or.inl (Or.inr ⟨h, Or.inr ⟨h1, rfl⟩⟩)
      | true =>
        refine Or.inr (Or.inr ⟨h.symm, Or.inr ⟨h1.symm, ?_⟩⟩)
        rw [Bool.eq_false_iff]
        intro h3
        have := textLt_trans h2 h3
        rw [textLt_irrefl] at this
        exact absurd this (by simp)
    · exact Or.inr (Or.inr ⟨h.symm, Or.inl h1⟩)
  · exact Or.inl (Or.inl h)

theorem byLength_trans (a b c : Text × Text) (hab : byLength a b) (hbc : byLength b c) : byLength a c := by
  unfold byLength at hab hbc ⊢
  rcases hab with h | ⟨h, hab⟩
  · rcases hbc with h' | ⟨h', -⟩
    · exact Or.inl (by omega)
    · exact Or.inl (by omega)
  · rcases hbc with h' | ⟨h', hbc⟩
    · exact Or.inl (by omega)
    · refine Or.inr ⟨h.trans h', ?_⟩
      rcases hab with hab | ⟨hab, hv⟩
      · rcases hbc with hbc | ⟨hbc, -⟩
        · exact Or.inl (textLt_trans hab hbc)
        · exact Or.inl (hbc ▸ hab)
      · rcases hbc with hbc | ⟨hbc, hv'⟩
        · exact Or.inl (hab ▸ hbc)
        · refine Or.inr ⟨hab.trans hbc, ?_⟩
          rw [Bool.eq_false_iff]
          intro hca
          rcases textLt_trichotomy b.2 c.2 with h3 | h3 | h3
          · rw [textLt_trans h3 hca] at hv
            exact absurd hv (by simp)
          · rw [h3, hca] at hv
            exact absurd hv (by simp)
          · rw [h3] at hv'
            exact absurd hv' (by simp)

/-- `StreamingWindowReplacer`.  Its patterns and replacements are kept in pairs, which do not change. -/
structure StreamingWindowReplacer where
  pairs : List (Text × Text)
  longestFirst : pairs.Pairwise fun a b => utf8Len b.1 ≤ utf8Len a.1
  pending : Text
  lastChar : Option Char

namespace StreamingWindowReplacer

theorem longestFirst_insertionSort (l : List (Text × Text)) :
    (l.insertionSort byLength).Pairwise fun a b => utf8Len b.1 ≤ utf8Len a.1 := by
  have : Std.Total byLength := ⟨byLength_total⟩
  have : IsTrans (Text × Text) byLength := ⟨byLength_trans⟩
  refine (List.pairwise_insertionSort byLength l).imp ?_
  intro a b h
  unfold byLength at h
  omega

/-- `StreamingWindowReplacer::new`, where `order` is the order in which the map lists its entries. -/
def new (mapping : Table Text Text) (order : HashOrder) : StreamingWindowReplacer where
  pairs := ((order.arrange mapping.entries).map fun e => (e.1, e.2)).insertionSort byLength
  longestFirst := longestFirst_insertionSort _
  pending := []
  lastChar := none

/-- The number of bytes of the longest pattern. -/
def maxLen (r : StreamingWindowReplacer) : Nat := (r.pairs.head?.map fun pair => utf8Len pair.1).getD 0

/-- The proper prefixes of the patterns, in small letters. -/
def prefixes (r : StreamingWindowReplacer) : List Text :=
  r.pairs.flatMap fun pair => (List.range' 1 (pair.1.length - 1)).map fun n => lower (pair.1.take n)

/-- The offset of the longest tail of at most `bytes` bytes. -/
def tailStart (bytes : Nat) : Text → Nat
  | [] => 0
  | c :: s => if utf8Len (c :: s) ≤ bytes then 0 else tailStart bytes s + 1

/-- The first tail of the input that more input could make a match. -/
def undecidableStart (r : StreamingWindowReplacer) (input : Text) : Option Nat :=
  let start := tailStart (r.maxLen - 1) input
  (firstAt (fun tail => r.prefixes.contains (lower tail)) (input.drop start)).map (start + ·)

/-- What stands to the right of a match: a continuation of its token, a delimiter, or something not known yet. -/
inductive Boundary
  | larger
  | delimiter
  | undecided
  deriving DecidableEq, Repr

/-- A match begins inside a longer token. -/
def rejectsLeft (u : CharTables) (pat : Text) (prevChar : Option Char) : Bool :=
  let patStartsToken := pat.head?.any (isTokenChar u) || pat.head? == some '+' || ['-', 'p'].isPrefixOf pat
  (patStartsToken && prevChar.any (isTokenChar u)) ||
    (contactKind pat).any fun kind => prevChar.any (extendsContactLeft kind)

def patEndsToken (u : CharTables) (pat : Text) : Bool := pat.getLast?.any (isTokenChar u)

def rightBoundary (u : CharTables) (r : StreamingWindowReplacer) (input : Text) (m : Match Text) (isEof : Bool) :
    Boundary :=
  if m.stop = input.length then
    if !isEof && (r.prefixes.contains (lower (input.drop m.start)) || patEndsToken u m.pattern) then .undecided
    else .delimiter
  else if patEndsToken u m.pattern && (input.drop m.stop).head?.any (isTokenChar u) then .larger
  else
    match contactKind m.pattern with
    | none => .delimiter
    | some kind =>
      match extendsContactRight u kind (input.drop m.stop) isEof with
      | some true => .larger
      | some false => .delimiter
      | none => .undecided

/-- Where the loop over the matches ends: what it has written, the end of the last match that it has replaced, the last
character, and where the pending text begins if a match is to be decided later. -/
structure Emitted where
  out : Text
  lastEnd : Nat
  lastChar : Option Char
  pendingAt : Option Nat

/-- The loop over the matches. -/
def emitMatches (u : CharTables) (r : StreamingWindowReplacer) (input : Text) (isEof : Bool)
    (undecidable : Option Nat) : List (Match Text) → Text → Nat → Option Char → Emitted
  | [], out, lastEnd, lastChar => ⟨out, lastEnd, lastChar, none⟩
  | m :: ms, out, lastEnd, lastChar =>
    -- a complete short alias can still be the beginning of a longer pattern
    if undecidable.any (· ≤ m.start) then ⟨out, lastEnd, lastChar, none⟩
    else if m.start < lastEnd then emitMatches u r input isEof undecidable ms out lastEnd lastChar
    else
      let prevChar := if m.start > 0 then (input.take m.start).getLast? else lastChar
      if rejectsLeft u m.pattern prevChar then emitMatches u r input isEof undecidable ms out lastEnd lastChar
      else
        match r.rightBoundary u input m isEof with
        | .larger => emitMatches u r input isEof undecidable ms out lastEnd lastChar
        | .undecided =>
          ⟨out ++ (input.take m.start).drop lastEnd, lastEnd, (input.take m.start).getLast?.or lastChar, some m.start⟩
        | .delimiter =>
          let out := out ++ (input.take m.start).drop lastEnd ++ m.value
          emitMatches u r input isEof undecidable ms out m.stop (out.getLast?.or lastChar)

/-- The first tail of the text after the last replacement that has to be held back. -/
def splitPoint (r : StreamingWindowReplacer) (trailing : Text) : Option Nat :=
  let scanStart := if r.maxLen ≤ utf8Len trailing then tailStart (r.maxLen - 1) trailing else 0
  (firstAt (fun suffix => decide (utf8Len suffix < r.maxLen) && r.prefixes.contains (lower suffix))
    (trailing.drop scanStart)).map (scanStart + ·)

/-- What follows the loop over the matches. -/
def emitTrailing (r : StreamingWindowReplacer) (input : Text) (isEof : Bool) (e : Emitted) :
    Text × StreamingWindowReplacer :=
  let trailing := input.drop e.lastEnd
  if trailing.isEmpty then (e.out, { r with lastChar := e.out.getLast?.or e.lastChar })
  else if isEof || r.maxLen == 0 then
    let out := e.out ++ trailing
    (out, { r with lastChar := out.getLast?.or e.lastChar })
  else
    let cut := (r.splitPoint trailing).getD trailing.length
    let emittedEnd := input.length - (trailing.drop cut).length
    (e.out ++ trailing.take cut,
      { r with pending := trailing.drop cut, lastChar := (input.take emittedEnd).getLast?.or e.lastChar })

/-- The body of `process_internal` for an input that is not empty, with the pending text taken out. -/
def processInput (u : CharTables) (r : StreamingWindowReplacer) (input : Text) (isEof : Bool) :
    Text × StreamingWindowReplacer :=
  let undecidable := if isEof then none else r.undecidableStart input
  let e := r.emitMatches u input isEof undecidable (findIter r.pairs input) [] 0 r.lastChar
  match e.pendingAt with
  | some start => (e.out, { r with pending := input.drop start, lastChar := e.lastChar })
  | none => r.emitTrailing input isEof e

/-- `process_internal`. -/
def processInternal (u : CharTables) (r : StreamingWindowReplacer) (chunk : Text) (isEof : Bool) :
    Text × StreamingWindowReplacer :=
  if r.pairs.isEmpty then (chunk, r)
  else
    let input := r.pending ++ chunk
    if input.isEmpty then ([], r) else { r with pending := [] }.processInput u input isEof

/-- `process`. -/
def process (u : CharTables) (r : StreamingWindowReplacer) (chunk : Text) : Text × StreamingWindowReplacer :=
  r.processInternal u chunk false

/-- `flush`. -/
def flush (u : CharTables) (r : StreamingWindowReplacer) : Text × StreamingWindowReplacer :=
  if r.pending.isEmpty then ([], r)
  else
    let (out, r) := { r with pending := [] }.processInternal u r.pending true
    (out, { r with lastChar := none })

/-- The outputs of the chunks one after the other, and the replacer after them. -/
def processAll (u : CharTables) (r : StreamingWindowReplacer) : List Text → Text × StreamingWindowReplacer
  | [] => ([], r)
  | chunk :: chunks =>
    let (out, r) := r.process u chunk
    let (outs, r) := r.processAll u chunks
    (out ++ outs, r)

/-- The chunks are processed, and the output of `flush` is appended. -/
def restoreChunks (u : CharTables) (r : StreamingWindowReplacer) (chunks : List Text) : Text :=
  let (out, r) := r.processAll u chunks
  out ++ (r.flush u).1

end StreamingWindowReplacer

/-! ### The mapping of a session -/

namespace PiiSession

/-- The spellings of a pseudonym that are restored too, each with what it is restored to. -/
def formattingAliases (placeholder original : Text) (entity : Option PiiEntity) : List (Text × Text) :=
  let spellings := match entity with
    | some .phone =>
      let digits := placeholder.filter Char.isDigit
      [(['+'] ++ digits, original), (digits, original),
        (placeholder.map fun c => if c = '-' then ' ' else c, original)]
    | some .secret => [(['-', 'p'] ++ placeholder, ['-', 'p'] ++ original)]
    | some .creditCard =>
      [(placeholder.filter fun c => c != ' ' && c != '-', original),
        (placeholder.map fun c => if c = ' ' then '-' else c, original)]
    | some .ip =>
      match Net.parseIpv6Addr placeholder with
      | none => []
      | some segments =>
        [(Net.ipv6ToString segments, original), (Net.joinColon (segments.map Net.hexPadded), original),
          (Net.joinColon (segments.map Net.hex), original)]
    | _ => []
  if placeholder.head? = some '<' ∧ placeholder.getLast? = some '>' then
    spellings ++ [(placeholder.flatMap fun c =>
      if c = '<' then "&lt;".toList else if c = '>' then "&gt;".toList else [c], original)]
  else spellings

/-- The closure `add`: a spelling that would stand for two originals is given up. -/
def addAlias (s : PiiSession) (state : Table Text Text × List Text) (entry : Text × Text) :
    Table Text Text × List Text :=
  let (aliases, ambiguous) := state
  if (s.reverse.lookup entry.1).isSome || ambiguous.contains entry.1 then state
  else if (aliases.lookup entry.1).any (· != entry.2) then (aliases.erase entry.1, entry.1 :: ambiguous)
  else (aliases.insert entry.1 entry.2, ambiguous)

/-- `restoration_mapping`, where `order` is the order in which the map lists its entries. -/
def restorationMapping (s : PiiSession) (order : HashOrder) : Table Text Text :=
  if s.reversible then
    let spellings := (order.arrange s.reverse.entries).flatMap fun e =>
      formattingAliases e.1 e.2 (s.placeholderEntities.lookup e.1)
    s.reverse ∪ (spellings.foldl s.addAlias (∅, [])).1
  else ∅

/-- `restore_text`. -/
def restoreText (u : CharTables) (s : PiiSession) (order order' : HashOrder) (text : Text) : Text :=
  if !s.reversible || s.reverse.entries.isEmpty || text.isEmpty then text
  else (StreamingWindowReplacer.new (s.restorationMapping order) order').restoreChunks u [text]

end PiiSession

/-- `StreamingWindowReplacer::from_session`. -/
def StreamingWindowReplacer.fromSession (s : PiiSession) (order order' : HashOrder) : StreamingWindowReplacer :=
  if s.reversible then new (s.restorationMapping order) order' else new ∅ order'

end OpenProxy.Pii
