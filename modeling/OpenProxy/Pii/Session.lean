import OpenProxy.Text.Basic
import OpenProxy.Data.Table

/-!
# The session

The kinds of personal data and the generators of the text that stands in for an original: sequential addresses, names
and numbers for most kinds, digits of a hash for secrets.

`PiiSession` remembers which pseudonym stands for which original and back.  `seedExistingPlaceholders` raises the
counters above the pseudonyms that a text already has, `getOrCreatePlaceholder` looks an original up or gives it a new
pseudonym, and a session is the result of a sequence of such calls.
-/

namespace OpenProxy.Pii

/-! ### Pseudonyms -/

/-- `PiiEntity`. -/
inductive PiiEntity
  | email
  | phone
  | ip
  | creditCard
  | secret
  | person
  deriving DecidableEq, Repr

namespace PiiEntity

/-- `PiiEntity::ALL`. -/
def all : List PiiEntity := [email, phone, ip, creditCard, secret, person]

def placeholderPrefix : PiiEntity → Text
  | email => "EMAIL".toList
  | phone => "PHONE".toList
  | ip => "IP".toList
  | creditCard => "CARD".toList
  | secret => "KEY".toList
  | person => "PERSON".toList

end PiiEntity

/-- `usize::MAX`. -/
def usizeMax : Nat := 2 ^ 64 - 1

/-! ### Numbers as text -/

/-- A number in decimal, without padding. -/
def decimal (n : Nat) : Text := Nat.toDigits 10 n

/-- A number in decimal, padded with zeros on the left to a width. -/
def decimalPadded (width n : Nat) : Text := (decimal n).leftpad width '0'

def digitValue (c : Char) : Nat := c.toNat - '0'.toNat

/-- The number that a sequence of digits denotes. -/
def ofDecimal (s : Text) : Nat := s.foldl (fun n c => 10 * n + digitValue c) 0

/-- `str::parse::<usize>`, and also `parse::<u64>`: decimal digits after an optional `+`, and no overflow. -/
def parseUsize (s : Text) : Option Nat :=
  let digits := match s with | '+' :: rest => rest | s => s
  if digits ≠ [] ∧ digits.all Char.isDigit ∧ ofDecimal digits ≤ usizeMax then some (ofDecimal digits) else none

/-! ### The generators -/

/-- `fnv1a_hash`: the 64-bit hash of the bytes of a text. -/
def fnv1aHash (s : Text) : Nat :=
  (s.flatMap String.utf8EncodeChar).foldl (fun hash byte => ((hash ^^^ byte.toNat) * 0x100000001b3) % 2 ^ 64)
    0xcbf29ce484222325

/-- The sum of `compute_luhn_check_digit` over the digits from the last to the first, every other one doubled. -/
def luhnSum : Bool → List Nat → Nat
  | _, [] => 0
  | double, d :: ds => (if double then (if 2 * d > 9 then 2 * d - 9 else 2 * d) else d) + luhnSum (!double) ds

def computeLuhnCheckDigit (digits : Text) : Nat := (10 - luhnSum true (digits.reverse.map digitValue) % 10) % 10

def generateFakeCreditCard (count : Nat) (spaced : Bool) : Text :=
  let base :=
    if count ≤ 900 then "453201511283".toList ++ decimalPadded 3 (count % 900 + 100)
    else "4532015".toList ++ decimalPadded 8 ((count - 900) % 90000000 + 1000)
  let full := base ++ decimal (computeLuhnCheckDigit base)
  if spaced then
    full.take 4 ++ [' '] ++ (full.drop 4).take 4 ++ [' '] ++ (full.drop 8).take 4 ++ [' '] ++ (full.drop 12).take 4
  else full

def ipPlaceholder (c : Nat) (original : Text) : Text :=
  if original.contains ':' then "fd00:10:240::".toList ++ decimal c
  else
    "10.240.".toList ++ decimal ((c - 1) / 254 % 254) ++ ['.'] ++ decimal ((c - 1) % 254 + 1)

def emailFirstNames : List Text :=
  ["alex.turner".toList, "jordan.lee".toList, "morgan.reed".toList, "sam.taylor".toList, "chris.evans".toList,
    "pat.parker".toList, "casey.miller".toList, "riley.cooper".toList]

def emailPlaceholder (c : Nat) : Text :=
  emailFirstNames.getD ((c - 1) % emailFirstNames.length) [] ++ decimal c ++ ['@'] ++
    (if c % 2 = 0 then "outlook.com".toList else "fastmail.com".toList)

/-- The prefix of the digits that replace a numeric secret, and how many digits follow it.  A 20-digit number that fits
64 bits keeps doing so. -/
def numericSecretDomain (original : Text) : Text × Nat :=
  let len := original.length
  let pre := if len = 20 ∧ (parseUsize original).isSome then "10".toList else "89410294".toList
  if len > pre.length then (pre, len - pre.length) else ("9".toList, len - 1)

def secretPrefixMap : List (Text × Text) :=
  [("sk-proj-".toList, "sk-proj-".toList), ("sk-".toList, "sk-".toList), ("op_live_".toList, "op_live_".toList),
    ("op_test_".toList, "op_test_".toList), ("mcp_live_".toList, "mcp_live_".toList),
    ("mcp_test_".toList, "mcp_test_".toList), ("ghp_".toList, "ghp_".toList), ("gho_".toList, "gho_".toList),
    ("xoxb-".toList, "xoxb_".toList), ("Bearer ".toList, "Bearer sec_".toList)]

def secretPlaceholder (original : Text) : Text :=
  let h := fnv1aHash original
  if original.all Char.isDigit ∧ original.length ≥ 6 then
    let (pre, width) := numericSecretDomain original
    let suffix := (decimal h).drop ((decimal h).length - width)
    pre ++ suffix.leftpad width '0'
  else
    let pre := ((secretPrefixMap.find? fun entry => entry.1.isPrefixOf original).map (·.2)).getD "sec_".toList
    pre ++ (Nat.toDigits 16 (h % 2 ^ 32)).leftpad 8 '0'

/-- The largest width that `format!` pads to; it panics at a greater one. -/
def formatWidthMax : Nat := 2 ^ 16 - 1

/-- The generator of the secrets pads the digits of this original to a width that `format!` refuses. -/
def secretPanics (original : Text) : Bool :=
  original.all Char.isDigit && decide (original.length ≥ 6) && decide ((numericSecretDomain original).2 > formatWidthMax)

def areaCodes : List Nat := [212, 312, 415, 617, 206, 512, 305, 404, 702, 214]

def phonePlaceholder (c : Nat) : Text :=
  if c ≤ 89 then "+1-202-555-01".toList ++ decimalPadded 2 (c % 90 + 10)
  else
    "+1-".toList ++ decimal (areaCodes.getD ((c - 90) / 9000 % areaCodes.length) 0) ++ "-555-".toList ++
      decimalPadded 4 ((c - 90) % 9000 + 1000)

def personFirstNames : List Text :=
  ["Alex".toList, "David".toList, "Sarah".toList, "Michael".toList, "Elena".toList, "James".toList, "Marcus".toList,
    "Laura".toList, "Carlos".toList, "Emily".toList, "Robert".toList, "Anna".toList, "Daniel".toList, "Rachel".toList,
    "Thomas".toList, "Sofia".toList, "Lucas".toList, "Maria".toList, "Brian".toList, "Jessica".toList]

def personLastNames : List Text :=
  ["Vance".toList, "Chen".toList, "Jenkins".toList, "Sterling".toList, "Mercer".toList, "Wilson".toList,
    "Reed".toList, "Bennett".toList, "Lindqvist".toList, "Hawthorne".toList, "Taylor".toList, "Kowalski".toList,
    "Anderson".toList, "Martinez".toList, "Wright".toList, "Scott".toList, "Torres".toList, "Nguyen".toList,
    "Murphy".toList, "Rivera".toList]

/-- `gen_name`.  The index is at least 1 unless the counter has wrapped around. -/
def genName (idx : Nat) : Text :=
  let zeroBased := (idx + usizeMax) % 2 ^ 64
  let firstIdx := zeroBased % personFirstNames.length
  let cycle := zeroBased / personFirstNames.length
  let lastIdx := (firstIdx + cycle) % personLastNames.length
  personFirstNames.getD firstIdx [] ++ [' '] ++ personLastNames.getD lastIdx []

/-- The loop that skips generated names equal to the original: the counter at its end.  The first names of two
successive indices differ, so that one step is enough. -/
def skipOwnName (original : Text) : Nat → Nat → Nat
  | 0, count => count
  | fuel + 1, count =>
    if eqIgnoreAsciiCase (genName count) original then skipOwnName original fuel ((count + 1) % 2 ^ 64) else count

/-- The pseudonym that the generators propose when the counter of the entity has been raised to `c`, and the value
that the counter has afterwards. -/
def generatePlaceholder (entity : PiiEntity) (c : Nat) (original : Text) : Text × Nat :=
  match entity with
  | .ip => (ipPlaceholder c original, c)
  | .email => (emailPlaceholder c, c)
  | .secret => (secretPlaceholder original, c)
  | .phone => (phonePlaceholder c, c)
  | .creditCard => (generateFakeCreditCard c (original.contains ' ' || original.contains '-'), c)
  | .person => (genName (skipOwnName original 2 c), skipOwnName original 2 c)

/-! ### Sessions -/

/-- The order in which a hash map happens to list its entries. -/
structure HashOrder where
  arrange : List (Σ _ : Text, Text) → List (Σ _ : Text, Text)
  perm : ∀ entries, (arrange entries).Perm entries

/-- The order of insertion, the latest entry first. -/
def HashOrder.latestFirst : HashOrder := ⟨id, fun _ => List.Perm.refl _⟩

/-- `PiiSession`. -/
structure PiiSession where
  /-- From originals to placeholders. -/
  forward : Table Text Text
  /-- From placeholders to originals. -/
  reverse : Table Text Text
  counts : Table PiiEntity Nat
  reversible : Bool
  placeholderEntities : Table Text PiiEntity
  ambiguousAliases : List Text

namespace PiiSession

def new (reversible : Bool) : PiiSession := ⟨∅, ∅, ∅, reversible, ∅, []⟩

/-! ### Placeholders that a text already has -/

/-- The loop over the occurrences of `needle` from offset `curr` on.  `read` gets the text before and the text after an
occurrence, and returns the number it finds there and how much of the text after it is used up; the loop ends where it
returns `none`. -/
def seedLoop (needle : Text) (read : Text → Text → Option (Option Nat × Nat)) (text : Text) : Nat → Nat → List Nat
  | 0, _ => []
  | fuel + 1, curr =>
    match find (text.drop curr) needle with
    | none => []
    | some rel =>
      let start := curr + rel + needle.length
      match read (text.take (curr + rel)) (text.drop start) with
      | none => []
      | some (n, used) => n.toList ++ seedLoop needle read text fuel (start + used)

/-- The number before the first `close`. -/
def readUpTo (close : Char) (_ after : Text) : Option (Option Nat × Nat) :=
  (find after [close]).map fun rel => (parseUsize (after.take rel), rel + 1)

/-- The number at the end of the local part of an address. -/
def readEmail (before _ : Text) : Option (Option Nat × Nat) :=
  let digits := (before.reverse.takeWhile Char.isDigit).reverse
  some (if digits.isEmpty then none else parseUsize digits, 0)

/-- The number that the last two parts of an address stand for. -/
def readIp (_ after : Text) : Option (Option Nat × Nat) :=
  some ((splitOnce '.' after).bind fun parts =>
    (parseUsize parts.1).bind fun x => (parseUsize (parts.2.takeWhile Char.isDigit)).map fun y =>
      min (min (x * 254) usizeMax + y) usizeMax, 0)

/-- The number that the last two characters of a secret stand for. -/
def readSecret (_ after : Text) : Option (Option Nat × Nat) :=
  let token := after.takeWhile fun c => c.isAlphanum || c == '_'
  some (if token.length ≥ 2 then parseUsize (token.drop (token.length - 2)) else none, token.length)

def readNumericSecret (_ after : Text) : Option (Option Nat × Nat) :=
  let digits := after.takeWhile Char.isDigit
  some (if digits.isEmpty then none else parseUsize digits, digits.length)

/-- The counter of an entity is raised to each of the numbers. -/
def raiseCount (entity : PiiEntity) (s : PiiSession) (numbers : List Nat) : PiiSession :=
  numbers.foldl (fun s n =>
    { s with counts := s.counts.insert entity (max ((s.counts.lookup entity).getD 0) n) }) s

/-- One loop of `seed_existing_placeholders`. -/
def seed (entity : PiiEntity) (needle : Text) (read : Text → Text → Option (Option Nat × Nat)) (text : Text)
    (s : PiiSession) : PiiSession :=
  s.raiseCount entity (seedLoop needle read text (text.length + 1) 0)

/-- `seed_existing_placeholders`. -/
def seedExistingPlaceholders (s : PiiSession) (text : Text) : PiiSession :=
  if text.isEmpty then s
  else
    let s := if text.contains '<' && text.contains '>' then
        PiiEntity.all.foldl (fun s entity =>
          s.seed entity (['<'] ++ entity.placeholderPrefix ++ ['_']) (readUpTo '>') text) s
      else s
    let s := s.seed .person " (P".toList (readUpTo ')') text
    let s := s.seed .person " [P".toList (readUpTo ']') text
    let s := s.seed .email "@outlook.com".toList readEmail text
    let s := s.seed .email "@fastmail.com".toList readEmail text
    let s := s.seed .ip "10.240.".toList readIp text
    let s := ["sec_".toList, "sk-proj-".toList, "sk-".toList, "op_live_".toList, "op_test_".toList].foldl
      (fun s secPrefix => s.seed .secret secPrefix readSecret text) s
    s.seed .secret "89410294".toList readNumericSecret text

/-! ### Collisions -/

/-- The digits of a number, the last one first, increased by one; the carry out of the first digit is lost. -/
def increment : List Char → List Char
  | [] => []
  | d :: ds => if d = '9' then '0' :: increment ds else Char.ofNat (d.toNat + 1) :: ds

/-- The next candidate in the numeric domain. -/
def nextNumeric (placeholder : Text) : Text :=
  match (increment placeholder.reverse).reverse with
  | '0' :: rest => '9' :: rest
  | digits => digits

/-- A candidate that may not be used: it would reveal the original, or is taken. -/
def taken (s : PiiSession) (original placeholder : Text) : Bool :=
  placeholder == original || (s.reverse.lookup placeholder).isSome

/-- The search in the numeric domain; `none` when it does not end. -/
def probeNumeric (s : PiiSession) (original : Text) : Nat → Text → Option Text
  | 0, _ => none
  | fuel + 1, placeholder =>
    if s.taken original placeholder then s.probeNumeric original fuel (nextNumeric placeholder) else some placeholder

/-- The search among the candidates `base_1`, `base_2`, and so on, after `placeholder`. -/
def probeSuffix (s : PiiSession) (original base : Text) : Nat → Nat → Text → Option Text
  | 0, _, _ => none
  | fuel + 1, tieBreaker, placeholder =>
    if s.taken original placeholder then
      s.probeSuffix original base fuel (tieBreaker + 1) (base ++ ['_'] ++ decimal tieBreaker)
    else some placeholder

/-- The number of candidates after which a search that has not ended never does: more than there are pseudonyms. -/
def probeFuel (s : PiiSession) : Nat := s.reverse.keys.length + 2

/-- The pseudonym that is used instead of the generated one. -/
def resolveCollision (s : PiiSession) (original placeholder : Text) : Option Text :=
  if placeholder.all Char.isDigit then s.probeNumeric original s.probeFuel placeholder
  else if placeholder == original || (s.reverse.lookup placeholder).any (· != original) then
    s.probeSuffix original placeholder s.probeFuel 1 placeholder
  else some placeholder

/-! ### Names -/

/-- `register_person_alias`. -/
def registerPersonAlias (s : PiiSession) (aliasPh original : Text) : PiiSession :=
  if s.ambiguousAliases.contains aliasPh then s
  else if (s.reverse.lookup aliasPh).any (· != original) then
    let caseUpgrade := (s.reverse.lookup aliasPh).any fun existing => eqIgnoreAsciiCase existing original
    if caseUpgrade then { s with reverse := s.reverse.insert aliasPh original }
    else { s with reverse := s.reverse.erase aliasPh, ambiguousAliases := aliasPh :: s.ambiguousAliases }
  else { s with reverse := s.reverse.insert aliasPh original }

/-- `str::split_whitespace`. -/
def splitWhitespace (s : Text) : List Text := (s.splitOnP isWhitespace).filter (· ≠ [])

/-- The first and the last word of a pseudonym with a space stand for the first and the last word of the original. -/
def registerNameParts (s : PiiSession) (placeholder original : Text) : PiiSession :=
  match splitOnce ' ' placeholder with
  | none => s
  | some (firstPh, lastPh) =>
    let origFirst := (splitWhitespace original).head?.getD original
    let origLast := (splitWhitespace original).getLast?.getD original
    (s.registerPersonAlias firstPh origFirst).registerPersonAlias lastPh origLast

/-- The entry whose key is the original up to ASCII case, if there is one: the first in the order of the hash map. -/
def findCaseVariant (s : PiiSession) (order : HashOrder) (original : Text) : Option (Text × Text) :=
  ((order.arrange s.forward.entries).find? fun entry => eqIgnoreAsciiCase entry.1 original).map
    fun entry => (entry.1, entry.2)

/-- The original has a capital and the key of the session does not. -/
def isCaseUpgrade (u : CharTables) (existingKey original : Text) : Bool :=
  original.any u.isUppercase && !existingKey.any u.isUppercase

/-- A person whose name is known in other case gets the same pseudonym. -/
def shareCaseVariant (u : CharTables) (s : PiiSession) (existingKey placeholder original : Text) : PiiSession :=
  let s := { s with forward := s.forward.insert original placeholder }
  if isCaseUpgrade u existingKey original then
    { s with reverse := s.reverse.insert placeholder original }.registerNameParts placeholder original
  else s

/-- `get_or_create_placeholder`; `none` when its search for a free pseudonym does not end, or its generator panics. -/
def getOrCreatePlaceholder (u : CharTables) (s : PiiSession) (entity : PiiEntity) (original : Text)
    (order : HashOrder) : Option (Text × PiiSession) :=
  match s.forward.lookup original with
  | some existing => some (existing, s)
  | none =>
    match if entity = .person then s.findCaseVariant order original else none with
    | some (existingKey, placeholder) =>
      some (placeholder, s.shareCaseVariant u existingKey placeholder original)
    | none =>
      if entity = .secret ∧ secretPanics original = true then none
      else
        let c := min ((s.counts.lookup entity).getD 0 + 1) usizeMax
        let (generated, count) := generatePlaceholder entity c original
        let s := { s with counts := s.counts.insert entity count }
        (s.resolveCollision original generated).map fun placeholder =>
          let s := { s with
            forward := s.forward.insert original placeholder
            reverse := s.reverse.insert placeholder original
            placeholderEntities := s.placeholderEntities.insert placeholder entity }
          (placeholder, if entity = .person then s.registerNameParts placeholder original else s)

/-! ### Runs -/

end PiiSession

/-- A call on a session. -/
inductive Call
  | seedExistingPlaceholders (text : Text)
  | getOrCreatePlaceholder (entity : PiiEntity) (original : Text) (order : HashOrder)

namespace PiiSession

/-- The session after a call. -/
def call (u : CharTables) (s : PiiSession) : Call → Option PiiSession
  | .seedExistingPlaceholders text => some (s.seedExistingPlaceholders text)
  | .getOrCreatePlaceholder entity original order =>
    (s.getOrCreatePlaceholder u entity original order).map (·.2)

/-- The entity under which each original was registered, after a call: that of the call that registered it. -/
def register (s : PiiSession) (registered : Table Text PiiEntity) : Call → Table Text PiiEntity
  | .seedExistingPlaceholders _ => registered
  | .getOrCreatePlaceholder entity original _ =>
    if (s.forward.lookup original).isSome then registered else registered.insert original entity

/-- The session and the entities of its originals after a sequence of calls. -/
def runFrom (u : CharTables) (s : PiiSession) (registered : Table Text PiiEntity) :
    List Call → Option (PiiSession × Table Text PiiEntity)
  | [] => some (s, registered)
  | c :: calls => (s.call u c).bind fun s' => runFrom u s' (s.register registered c) calls

/-- A fresh session after a sequence of calls. -/
def run (u : CharTables) (reversible : Bool) (calls : List Call) : Option (PiiSession × Table Text PiiEntity) :=
  (new reversible).runFrom u ∅ calls

end PiiSession

end OpenProxy.Pii
