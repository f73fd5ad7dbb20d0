import Mathlib.Data.List.Flatten
import Mathlib.Algebra.Order.Ring.Nat
import Mathlib.Data.Fintype.Basic

/-!
# Texts

A text is the list of its characters, and an offset into a text counts characters, so that every offset is a
character boundary.  This file has the string operations that compare letters up to ASCII case, those on white space,
and the search for the first position at which a test holds (`firstAt`), of which the two substring searches are
instances.
-/

namespace OpenProxy

/-- A text, as its sequence of characters. -/
abbrev Text := List Char

instance instLawfulBEqText : LawfulBEq Text := inferInstanceAs (LawfulBEq (List Char))

/-! ### Literals -/

/-- A text between two literals. -/
theorem toList_between (a b c : List Char) :
    (String.ofList a).toList ++ (String.ofList b).toList ++ (String.ofList c).toList = a ++ b ++ c := by
  simp only [String.toList_ofList]

/-- A literal in two lines. -/
theorem toList_concat (a b : List Char) : (String.ofList a ++ String.ofList b).toList = a ++ b := by
  rw [String.toList_append, String.toList_ofList, String.toList_ofList]

/-! ### Up to ASCII case -/

/-- The text with its ASCII capitals replaced by small letters. -/
def lower (s : Text) : Text := s.map Char.toLower

/-- Two texts with the same letters up to ASCII case. -/
def eqIgnoreAsciiCase (s t : Text) : Bool := lower s == lower t

/-- `s` begins with `needle`, up to ASCII case. -/
def startsWithIgnoreAsciiCase (s needle : Text) : Bool := (lower needle).isPrefixOf (lower s)

@[simp] theorem lower_nil : lower [] = [] := rfl

@[simp] theorem lower_cons (c : Char) (s : Text) : lower (c :: s) = c.toLower :: lower s := rfl

@[simp] theorem lower_append (s t : Text) : lower (s ++ t) = lower s ++ lower t := List.map_append

@[simp] theorem length_lower (s : Text) : (lower s).length = s.length := List.length_map _

theorem lower_take (s : Text) (n : Nat) : lower (s.take n) = (lower s).take n := List.map_take

theorem lower_drop (s : Text) (n : Nat) : lower (s.drop n) = (lower s).drop n := List.map_drop

theorem eqIgnoreAsciiCase_iff {s t : Text} : eqIgnoreAsciiCase s t = true ↔ lower s = lower t := by
  simp [eqIgnoreAsciiCase]

theorem startsWith_iff {s needle : Text} :
    startsWithIgnoreAsciiCase s needle = true ↔ lower needle <+: lower s := by
  simp [startsWithIgnoreAsciiCase]

/-- What a text begins with, a longer text begins with too. -/
theorem startsWith_append {s needle : Text} (t : Text) (h : startsWithIgnoreAsciiCase s needle = true) :
    startsWithIgnoreAsciiCase (s ++ t) needle = true := by
  rw [startsWith_iff] at h ⊢
  rw [lower_append]
  exact h.trans (List.prefix_append _ _)

/-- A beginning that fits into the first part lies in the first part. -/
theorem startsWith_of_append {s t needle : Text} (h : startsWithIgnoreAsciiCase (s ++ t) needle = true)
    (hlen : needle.length ≤ s.length) : startsWithIgnoreAsciiCase s needle = true := by
  rw [startsWith_iff] at h ⊢
  rw [lower_append] at h
  exact List.prefix_of_prefix_length_le h (List.prefix_append _ _) (by simpa using hlen)

/-- A beginning that does not fit into the first part starts with the whole first part. -/
theorem prefix_of_startsWith_append {s t needle : Text} (h : startsWithIgnoreAsciiCase (s ++ t) needle = true)
    (hlen : s.length ≤ needle.length) : lower s <+: lower needle := by
  rw [startsWith_iff, lower_append] at h
  exact List.prefix_of_prefix_length_le (List.prefix_append _ _) h (by simpa using hlen)

theorem length_le_of_startsWith {s needle : Text} (h : startsWithIgnoreAsciiCase s needle = true) :
    needle.length ≤ s.length := by
  rw [startsWith_iff] at h
  simpa using h.length_le

/-- A character that is not a small letter is equal up to ASCII case to itself only. -/
theorem eq_of_toLower_eq {c x : Char} (hx : ¬ ('a' ≤ x ∧ x ≤ 'z')) (h : c.toLower = x) : c = x := by
  unfold Char.toLower at h
  split at h
  · rename_i hc
    exfalso
    have hn : (c.val + ('a'.val - 'A'.val)).toNat = x.val.toNat := congrArg (fun d => d.val.toNat) h
    have h1 := hc.1
    have h2 := hc.2
    have e1 : ('a'.val - 'A'.val).toNat = 32 := by decide
    have e2 : 'A'.val.toNat = 65 := by decide
    have e3 : 'Z'.val.toNat = 90 := by decide
    simp only [ge_iff_le, UInt32.le_iff_toNat_le] at h1 h2
    rw [UInt32.toNat_add] at hn
    apply hx
    rw [Char.le_def, Char.le_def, UInt32.le_iff_toNat_le, UInt32.le_iff_toNat_le]
    have e4 : 'a'.val.toNat = 97 := by decide
    have e5 : 'z'.val.toNat = 122 := by decide
    omega
  · exact h

/-! ### The length in bytes -/

/-- The number of bytes of a text. -/
def utf8Len (s : Text) : Nat := (s.map Char.utf8Size).sum

@[simp] theorem utf8Len_nil : utf8Len [] = 0 := rfl

@[simp] theorem utf8Len_cons (c : Char) (s : Text) : utf8Len (c :: s) = c.utf8Size + utf8Len s := rfl

theorem utf8Len_append (s t : Text) : utf8Len (s ++ t) = utf8Len s + utf8Len t := by simp [utf8Len]

private theorem utf8Size_toLower (c : Char) : c.toLower.utf8Size = c.utf8Size := by
  unfold Char.toLower
  split
  · rename_i h
    have h1 := h.1
    have h2 := h.2
    have e1 : ('a'.val - 'A'.val).toNat = 32 := by decide
    have e2 : 'Z'.val.toNat = 90 := by decide
    simp only [ge_iff_le, UInt32.le_iff_toNat_le] at h1 h2
    have hc : c.utf8Size = 1 := by
      rw [Char.utf8Size_eq_one_iff, UInt32.le_iff_toNat_le]
      show c.val.toNat ≤ 127
      omega
    rw [hc, Char.utf8Size_eq_one_iff, UInt32.le_iff_toNat_le]
    show (c.val + ('a'.val - 'A'.val)).toNat ≤ 127
    rw [UInt32.toNat_add]
    omega
  · rfl

theorem utf8Len_lower (s : Text) : utf8Len (lower s) = utf8Len s := by
  induction s with
  | nil => rfl
  | cons c s ih => rw [lower_cons, utf8Len_cons, utf8Len_cons, utf8Size_toLower, ih]

theorem length_le_utf8Len (s : Text) : s.length ≤ utf8Len s := by
  induction s with
  | nil => exact le_rfl
  | cons c s ih =>
    have hpos := c.utf8Size_pos
    rw [List.length_cons, utf8Len_cons]
    omega

theorem utf8Len_pos {s : Text} (h : s ≠ []) : 0 < utf8Len s := by
  cases s with
  | nil => exact absurd rfl h
  | cons c s =>
    have := c.utf8Size_pos
    simp only [utf8Len_cons]
    omega

/-! ### Character classes -/

/-- The standard library's Unicode tables, of which nothing is known here beyond ASCII. -/
structure CharTables where
  isUppercase : Char → Bool
  isAlphanumeric : Char → Bool
  isUppercase_ascii : ∀ c, c.toNat < 128 → isUppercase c = c.isUpper
  isAlphanumeric_ascii : ∀ c, c.toNat < 128 → isAlphanumeric c = c.isAlphanum

/-- The tables of a library that classifies ASCII characters only. -/
def CharTables.ascii : CharTables := ⟨Char.isUpper, Char.isAlphanum, fun _ _ => rfl, fun _ _ => rfl⟩

/-! ### White space -/

/-- Rust's `char::is_whitespace`: the characters with the Unicode property `White_Space`. -/
def isWhitespace (c : Char) : Bool :=
  let n := c.toNat
  (0x09 ≤ n && n ≤ 0x0D) || n == 0x20 || n == 0x85 || n == 0xA0 || n == 0x1680 || (0x2000 ≤ n && n ≤ 0x200A) ||
    n == 0x2028 || n == 0x2029 || n == 0x202F || n == 0x205F || n == 0x3000

/-- `str::trim`. -/
def trim (s : Text) : Text := ((s.dropWhile isWhitespace).reverse.dropWhile isWhitespace).reverse

/-- The text is what is left of it between white space. -/
theorem exists_eq_trim (text : Text) :
    ∃ lead trail, text = lead ++ (trim text ++ trail) ∧ (∀ c ∈ lead, isWhitespace c = true) ∧
      ∀ c ∈ trail, isWhitespace c = true := by
  refine ⟨text.takeWhile isWhitespace,
    (((text.dropWhile isWhitespace).reverse).takeWhile isWhitespace).reverse, ?_, ?_, ?_⟩
  · rw [trim, ← List.reverse_append, List.takeWhile_append_dropWhile, List.reverse_reverse,
      List.takeWhile_append_dropWhile]
  · intro c hc
    exact List.all_eq_true.mp List.all_takeWhile c hc
  · intro c hc
    exact List.all_eq_true.mp List.all_takeWhile c (List.mem_reverse.mp hc)

/-- `str::trim_start` and `str::trim_end`. -/
def trimStart (s : Text) : Text := s.dropWhile isWhitespace

def trimEnd (s : Text) : Text := (s.reverse.dropWhile isWhitespace).reverse

/-- The text without its white space. -/
def deleteWhitespace (s : Text) : Text := s.filter fun c => !isWhitespace c

theorem filter_dropWhile (p : Char → Bool) (s : Text) :
    (s.dropWhile p).filter (fun c => !p c) = s.filter fun c => !p c := by
  induction s with
  | nil => rfl
  | cons c s ih =>
    by_cases hc : p c = true
    · rw [List.dropWhile_cons_of_pos hc, ih, List.filter_cons_of_neg (by simp [hc])]
    · rw [List.dropWhile_cons_of_neg hc]

@[simp] theorem deleteWhitespace_append (s t : Text) :
    deleteWhitespace (s ++ t) = deleteWhitespace s ++ deleteWhitespace t := List.filter_append _ _

theorem deleteWhitespace_trim (s : Text) : deleteWhitespace (trim s) = deleteWhitespace s := by
  unfold deleteWhitespace trim
  rw [List.filter_reverse, filter_dropWhile, ← List.filter_reverse, List.reverse_reverse, filter_dropWhile]

/-- `u8::is_ascii_whitespace`. -/
def isAsciiWhitespace (c : Char) : Bool :=
  c == ' ' || c == '\t' || c == '\n' || c == '\r' || c.toNat == 12

theorem isWhitespace_of_isAsciiWhitespace {c : Char} (h : isAsciiWhitespace c = true) : isWhitespace c = true := by
  simp only [isAsciiWhitespace, Bool.or_eq_true, beq_iff_eq] at h
  rcases h with (((rfl | rfl) | rfl) | rfl) | h
  · decide
  · decide
  · decide
  · decide
  · simp [isWhitespace, h]

theorem not_isAsciiWhitespace {c : Char} (h : isWhitespace c = false) : isAsciiWhitespace c = false := by
  rw [Bool.eq_false_iff]
  intro hascii
  rw [isWhitespace_of_isAsciiWhitespace hascii] at h
  cases h

/-! ### The first position at which a test holds -/

/-- The least offset `n` such that the test holds of the text from offset `n` on. -/
def firstAt (p : Text → Bool) : Text → Option Nat
  | [] => if p [] then some 0 else none
  | c :: s => if p (c :: s) then some 0 else (firstAt p s).map (· + 1)

theorem firstAt_eq_none {p : Text → Bool} {s : Text} :
    firstAt p s = none ↔ ∀ n ≤ s.length, p (s.drop n) = false := by
  induction s with
  | nil => simp [firstAt]
  | cons c s ih =>
    unfold firstAt
    constructor
    · intro h n hn
      split at h
      · exact absurd h (by simp)
      · rename_i hp
        cases n with
        | zero => simpa using hp
        | succ n =>
          rw [Option.map_eq_none_iff, ih] at h
          exact h n (by simpa using hn)
    · intro h
      have h0 : p (c :: s) = false := h 0 (by simp)
      simp only [h0, Bool.false_eq_true, ↓reduceIte, Option.map_eq_none_iff, ih]
      intro n hn
      exact h (n + 1) (by simpa using hn)

theorem firstAt_eq_some {p : Text → Bool} {s : Text} {n : Nat} :
    firstAt p s = some n ↔ n ≤ s.length ∧ p (s.drop n) = true ∧ ∀ m < n, p (s.drop m) = false := by
  induction s generalizing n with
  | nil =>
    unfold firstAt
    split
    · rename_i hp
      constructor
      · intro h
        cases h
        simpa using hp
      · rintro ⟨h, -⟩
        simp only [List.length_nil, Nat.le_zero] at h
        rw [h]
    · rename_i hp
      simp [hp]
  | cons c s ih =>
    unfold firstAt
    split
    · rename_i hp
      constructor
      · intro h
        cases h
        simpa using hp
      · rintro ⟨-, -, h⟩
        cases n with
        | zero => rfl
        | succ n => exact absurd (h 0 (by omega)) (by simpa using hp)
    · rename_i hp
      cases n with
      | zero => simp [hp]
      | succ n =>
        simp only [Option.map_eq_some_iff, Nat.add_right_cancel_iff, exists_eq_right, ih,
          List.length_cons, Nat.add_le_add_iff_right, List.drop_succ_cons]
        refine and_congr_right fun _ => and_congr_right fun _ => ?_
        constructor
        · intro h m hm
          cases m with
          | zero => simpa using hp
          | succ m => exact h m (by omega)
        · intro h m hm
          exact h (m + 1) (by omega)

/-- The first offset at which `needle` occurs in `haystack`, up to ASCII case. -/
def findIgnoreAsciiCase (haystack needle : Text) : Option Nat :=
  firstAt (fun s => startsWithIgnoreAsciiCase s needle) haystack

/-- The first offset at which `needle` occurs in `haystack`. -/
def find (haystack needle : Text) : Option Nat := firstAt (fun s => needle.isPrefixOf s) haystack

/-- `str::split_once` at a character. -/
def splitOnce (c : Char) (s : Text) : Option (Text × Text) :=
  (find s [c]).map fun n => (s.take n, s.drop (n + 1))

/-- `str::strip_prefix`. -/
def stripPrefix (pre s : Text) : Option Text := if pre.isPrefixOf s then some (s.drop pre.length) else none

/-- The first part ends at the first occurrence of the character. -/
theorem splitOnce_append {c : Char} {s : Text} (h : c ∉ s) (t : Text) : splitOnce c (s ++ c :: t) = some (s, t) := by
  have hfind : find (s ++ c :: t) [c] = some s.length := by
    unfold find
    rw [firstAt_eq_some]
    refine ⟨by rw [List.length_append]; omega, ?_, ?_⟩
    · rw [List.drop_left]
      simp
    · intro m hm
      rw [List.drop_append_of_le_length (by omega), List.drop_eq_getElem_cons hm]
      simp only [List.cons_append, List.isPrefixOf_cons_cons, Bool.and_eq_false_iff]
      left
      rw [beq_eq_false_iff_ne]
      intro heq
      exact h (by rw [heq]; exact List.getElem_mem hm)
  rw [splitOnce, hfind, Option.map_some, List.take_left, ← List.drop_drop, List.drop_left]
  rfl

theorem findIgnoreAsciiCase_eq_none {s needle : Text} :
    findIgnoreAsciiCase s needle = none ↔ ∀ n ≤ s.length, startsWithIgnoreAsciiCase (s.drop n) needle = false :=
  firstAt_eq_none

theorem findIgnoreAsciiCase_eq_some {s needle : Text} {n : Nat} :
    findIgnoreAsciiCase s needle = some n ↔
      n ≤ s.length ∧ startsWithIgnoreAsciiCase (s.drop n) needle = true ∧
        ∀ m < n, startsWithIgnoreAsciiCase (s.drop m) needle = false :=
  firstAt_eq_some

end OpenProxy
