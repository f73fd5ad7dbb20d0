import OpenProxy.Quota.Protection
import Mathlib.Algebra.BigOperators.Ring.List
import Mathlib.Algebra.Order.BigOperators.Group.List

/-!
# The time to a reset

`parseResetTime` reads the time to the reset of a rate limit: seconds, or a duration like `6m0s`.  Numbers are exact
rational numbers here.  The reader looks at one letter of a unit at a time, so that it takes milliseconds for minutes;
`parseResetTime_iff` says for which durations this does not matter.
-/

namespace OpenProxy.Quota

/-- `parse_duration_unit`. -/
def parseDurationUnit (unit : Char) (val : ℚ) : ℚ :=
  if unit = 'h' then val * 3600 else if unit = 'm' then val * 60 else if unit = 's' then val else 0

/-- The loop of `parse_compound_duration`: the sum so far, and where the number begins and ends that was read last. -/
def scanDuration (s : Text) : Text → Nat → ℚ → Option (Nat × Nat) → ℚ
  | [], _, total, _ => total
  | c :: rest, i, total, range =>
    if c.isDigit = true ∨ c = '.' then scanDuration s rest (i + 1) total (some ((range.map Prod.fst).getD i, i + 1))
    else if c = 'h' ∨ c = 'm' ∨ c = 's' then
      match range with
      | some (start, stop) =>
        let val := (parseF64 ((s.take stop).drop start)).getD 0
        scanDuration s rest (i + 1) (total + parseDurationUnit c val) none
      | none => scanDuration s rest (i + 1) total none
    else scanDuration s rest (i + 1) total range

def maxU64 : Nat := 2 ^ 64 - 1

/-- `ceil() as u64`. -/
def ceilU64 (q : ℚ) : Nat := min ⌈q⌉₊ maxU64

/-- `parse_compound_duration`. -/
def parseCompoundDuration (s : Text) : Option Nat :=
  let total := ceilU64 (scanDuration s s 0 0 none)
  if total > 0 then some total else none

/-- What the words become that `parse::<f64>` accepts besides numbers. -/
def wordSeconds (s : Text) : Option Nat :=
  let word := lower (if s.head? = some '+' ∨ s.head? = some '-' then s.tail else s)
  if word = "inf".toList ∨ word = "infinity".toList then some (if s.head? = some '-' then 0 else maxU64)
  else if word = "nan".toList then some 0
  else none

/-- `parse_reset_time`. -/
def parseResetTime (s : Text) : Option Nat :=
  let s := trim s
  match parseU64 s with
  | some secs => some secs
  | none =>
    match wordSeconds s with
    | some secs => some secs
    | none =>
      match parseF64 s with
      | some secs => some (ceilU64 secs)
      | none => parseCompoundDuration s

example : parseResetTime "1h30m15s".toList = some 5415 := by decide +kernel

/-! ### Durations -/

/-- A decimal number: digits with an optional point among them. -/
structure Decimal where
  int : Text
  frac : Option Text
  digits : (int ++ frac.getD []).all Char.isDigit = true
  ne_nil : int ++ frac.getD [] ≠ []

namespace Decimal

/-- What comes behind the digits before the point. -/
def behind (d : Decimal) : Text :=
  match d.frac with
  | some frac => '.' :: frac
  | none => []

def text (d : Decimal) : Text := d.int ++ d.behind

def value (d : Decimal) : ℚ := digitsValue (d.int ++ d.frac.getD []) / 10 ^ (d.frac.getD []).length

end Decimal

inductive TimeUnit
  | hour
  | minute
  | second
  | millisecond
  deriving DecidableEq, Repr

namespace TimeUnit

def text : TimeUnit → Text
  | hour => ['h']
  | minute => ['m']
  | second => ['s']
  | millisecond => ['m', 's']

def seconds : TimeUnit → ℚ
  | hour => 3600
  | minute => 60
  | second => 1
  | millisecond => 1 / 1000

/-- What the code takes the unit for. -/
def codeSeconds : TimeUnit → ℚ
  | millisecond => 60
  | unit => unit.seconds

end TimeUnit

/-- A component of a duration. -/
structure Component where
  number : Decimal
  unit : TimeUnit

def Component.text (c : Component) : Text := c.number.text ++ c.unit.text

/-- The exact length of a duration. -/
def exactSeconds (cs : List Component) : ℚ := (cs.map fun c => c.number.value * c.unit.seconds).sum

/-- The time to a reset, rounded up. -/
def resetTime (cs : List Component) : Option Nat := if exactSeconds cs = 0 then none else some ⌈exactSeconds cs⌉₊

/-- The length of a duration with its milliseconds taken for minutes. -/
def mistakenSeconds (cs : List Component) : ℚ := (cs.map fun c => c.number.value * c.unit.codeSeconds).sum

/-! ### Numbers -/

namespace Decimal

variable (d : Decimal)

theorem isDigit_of_mem {c : Char} (h : c ∈ d.int ++ d.frac.getD []) : c.isDigit = true := List.all_eq_true.mp d.digits c h

theorem takeWhile_text :
    d.text.takeWhile Char.isDigit = d.int ∧ d.text.dropWhile Char.isDigit = d.behind := by
  have hint : ∀ c ∈ d.int, c.isDigit = true := fun c hc => d.isDigit_of_mem (List.mem_append_left _ hc)
  have hbehind : d.behind.takeWhile Char.isDigit = [] ∧ d.behind.dropWhile Char.isDigit = d.behind := by
    unfold behind
    cases d.frac with
    | none => exact ⟨rfl, rfl⟩
    | some frac => exact ⟨rfl, rfl⟩
  unfold text
  rw [List.takeWhile_append_of_pos hint, List.dropWhile_append_of_pos hint, hbehind.1, hbehind.2, List.append_nil]
  exact ⟨rfl, rfl⟩

/-- Every character is a digit or the point. -/
theorem digit_or_point {c : Char} (h : c ∈ d.text) : c.isDigit = true ∨ c = '.' := by
  unfold text behind at h
  have hdigit := fun h => d.isDigit_of_mem (c := c) h
  rcases List.mem_append.mp h with h | h
  · exact Or.inl (hdigit (List.mem_append_left _ h))
  · cases hfrac : d.frac with
    | none =>
      rw [hfrac] at h
      cases h
    | some frac =>
      rw [hfrac] at h hdigit
      rcases List.mem_cons.mp h with rfl | h
      · exact Or.inr rfl
      · exact Or.inl (hdigit (List.mem_append_right _ h))

theorem text_ne_nil : d.text ≠ [] := by
  intro h
  have hne := d.ne_nil
  unfold text behind at h
  cases hfrac : d.frac with
  | none =>
    rw [hfrac] at h hne
    exact hne h
  | some frac =>
    rw [hfrac] at h
    simp at h

theorem head_text : d.text.head? ≠ some '+' ∧ d.text.head? ≠ some '-' := by
  constructor
  · intro h
    rcases d.digit_or_point (List.mem_of_mem_head? h) with h | h
    · exact absurd h (by decide)
    · exact absurd h (by decide)
  · intro h
    rcases d.digit_or_point (List.mem_of_mem_head? h) with h | h
    · exact absurd h (by decide)
    · exact absurd h (by decide)

theorem parseF64_text : parseF64 d.text = some d.value := by
  obtain ⟨htake, hdrop⟩ := d.takeWhile_text
  obtain ⟨hplus, hminus⟩ := d.head_text
  have hne := d.ne_nil
  have hdigits := d.digits
  have hunsigned : (if d.text.head? = some '+' ∨ d.text.head? = some '-' then d.text.tail else d.text) = d.text :=
    if_neg (by simp [hplus, hminus])
  unfold parseF64 value
  simp only [hunsigned, htake, hdrop, if_neg hminus, one_mul]
  unfold behind
  cases hfrac : d.frac with
  | none =>
    rw [hfrac] at hne
    simp only [Option.getD_none, List.append_nil] at hne
    simp [hne, parseExponent]
  | some frac =>
    rw [hfrac] at hne hdigits
    simp only [Option.getD_some, List.all_append, Bool.and_eq_true] at hne hdigits
    have htake' : frac.takeWhile Char.isDigit = frac := List.takeWhile_eq_self_iff.mpr (List.all_eq_true.mp hdigits.2)
    have hdrop' : frac.dropWhile Char.isDigit = [] := List.dropWhile_eq_nil_iff.mpr (List.all_eq_true.mp hdigits.2)
    simp only [List.head?_cons, List.tail_cons, htake', hdrop', if_true, parseExponent, if_neg hne, Option.map_some,
      Option.getD_some, zero_sub, zpow_neg, zpow_natCast, div_eq_mul_inv]

end Decimal

/-! ### The scan -/

theorem scanDuration_digit (s : Text) {c : Char} (hc : c.isDigit = true ∨ c = '.') (rest : Text) (i : Nat) (total : ℚ)
    (range : Option (Nat × Nat)) :
    scanDuration s (c :: rest) i total range =
      scanDuration s rest (i + 1) total (some ((range.map Prod.fst).getD i, i + 1)) := if_pos hc

/-- The digits of a number only extend the range. -/
theorem scanDuration_number (s : Text) {number : Text} (hnumber : ∀ c ∈ number, c.isDigit = true ∨ c = '.')
    (rest : Text) (i : Nat) (total : ℚ) (range : Option (Nat × Nat)) (hne : number ≠ []) :
    scanDuration s (number ++ rest) i total range =
      scanDuration s rest (i + number.length) total (some ((range.map Prod.fst).getD i, i + number.length)) := by
  induction number generalizing i range with
  | nil => exact absurd rfl hne
  | cons c number ih =>
    rw [List.cons_append, scanDuration_digit s (hnumber c List.mem_cons_self), List.length_cons]
    by_cases hnil : number = []
    · rw [hnil]
      rfl
    · rw [ih (fun c hc => hnumber c (List.mem_cons_of_mem _ hc)) _ _ hnil, Option.map_some, Option.getD_some,
        show i + 1 + number.length = i + (number.length + 1) by omega]

/-- A unit ends a number; the second letter of `ms` finds none. -/
theorem scanDuration_unit (s : Text) (unit : TimeUnit) (rest : Text) (i start stop : Nat) (total : ℚ) :
    scanDuration s (unit.text ++ rest) i total (some (start, stop)) =
      scanDuration s rest (i + unit.text.length)
        (total + (parseF64 ((s.take stop).drop start)).getD 0 * unit.codeSeconds) none := by
  cases unit with
  | hour => rfl
  | minute => rfl
  | second =>
    simp [TimeUnit.text, TimeUnit.codeSeconds, TimeUnit.seconds, scanDuration, parseDurationUnit]
  | millisecond => rfl

theorem scanDuration_component {s pre rest : Text} {c : Component} (hs : s = pre ++ (c.text ++ rest)) (total : ℚ) :
    scanDuration s (c.text ++ rest) pre.length total none =
      scanDuration s rest (pre ++ c.text).length (total + c.number.value * c.unit.codeSeconds) none := by
  have hslice : (s.take (pre.length + c.number.text.length)).drop pre.length = c.number.text := by
    rw [hs, List.drop_take, List.drop_left, Nat.add_sub_cancel_left, Component.text, List.append_assoc, List.take_left]
  rw [Component.text, List.append_assoc,
    scanDuration_number s (fun c' hc => c.number.digit_or_point hc) _ _ _ _ c.number.text_ne_nil, Option.map_none,
    Option.getD_none, scanDuration_unit, hslice, c.number.parseF64_text, Option.getD_some, List.length_append,
    List.length_append, Nat.add_assoc]

/-- The scan takes milliseconds for minutes. -/
theorem scanDuration_flatMap {s pre : Text} {cs : List Component} (hs : s = pre ++ cs.flatMap Component.text) (total : ℚ) :
    scanDuration s (cs.flatMap Component.text) pre.length total none = total + mistakenSeconds cs := by
  induction cs generalizing pre total with
  | nil => exact (add_zero total).symm
  | cons c cs ih =>
    rw [List.flatMap_cons] at hs ⊢
    rw [scanDuration_component hs, ih (by rw [hs, List.append_assoc])]
    simp only [mistakenSeconds, List.map_cons, List.sum_cons, add_assoc]

/-! ### What is not a number -/

section

variable {u : Char} (hu : u ∈ ['h', 'm', 's'])

include hu in
theorem not_isDigit_of_unit : u.isDigit = false ∧ isWhitespace u = false := by
  simp only [List.mem_cons, List.not_mem_nil, or_false] at hu
  rcases hu with rfl | rfl | rfl <;> decide

/-- A text that does not begin with its last character ends with it without its first character, too. -/
theorem tail_append_singleton (t : Text) (h : (t ++ [u]).head? ≠ some u) : ∃ t', (t ++ [u]).tail = t' ++ [u] := by
  cases t with
  | nil => exact absurd rfl h
  | cons c t => exact ⟨t, rfl⟩

include hu in
theorem dropWhile_unit (t : Text) : (t ++ [u]).dropWhile Char.isDigit = t.dropWhile Char.isDigit ++ [u] := by
  rw [List.dropWhile_append]
  split
  · rename_i h
    rw [List.isEmpty_iff.mp h, List.dropWhile_cons_of_neg (by simp [(not_isDigit_of_unit hu).1]), List.nil_append]
  · rfl

include hu in
theorem not_all_isDigit (t : Text) : (t ++ [u]).all Char.isDigit = false := by
  simp [(not_isDigit_of_unit hu).1]

include hu in
theorem head_ne_unit {t : Text} {c : Char} (h : (t ++ [u]).head? = some c) (hc : c ∉ ['h', 'm', 's']) :
    (t ++ [u]).head? ≠ some u := by
  intro h'
  rw [h] at h'
  cases h'
  exact hc hu

include hu in
/-- What ends with a unit ends with it without its sign, too. -/
theorem unsigned_unit (t : Text) :
    ∃ t', (if (t ++ [u]).head? = some '+' ∨ (t ++ [u]).head? = some '-' then (t ++ [u]).tail else t ++ [u]) =
      t' ++ [u] := by
  split
  · rename_i h
    rcases h with h | h
    · exact tail_append_singleton t (head_ne_unit hu h (by decide))
    · exact tail_append_singleton t (head_ne_unit hu h (by decide))
  · exact ⟨t, rfl⟩

include hu in
theorem parseU64_unit (t : Text) : parseU64 (t ++ [u]) = none := by
  have hparse : ∀ t, parseDigits (t ++ [u]) = none := by
    intro t
    unfold parseDigits
    rw [not_all_isDigit hu, Bool.and_false]
    rfl
  unfold parseU64
  split
  · rename_i h
    obtain ⟨t', ht'⟩ := tail_append_singleton t (head_ne_unit hu h (by decide))
    rw [ht', hparse, Option.filter_none]
  · rw [hparse, Option.filter_none]

include hu in
theorem parseExponent_unit (t : Text) : parseExponent (t ++ [u]) = none := by
  cases t with
  | nil => simp [parseExponent]
  | cons e t =>
    obtain ⟨t', ht'⟩ := unsigned_unit hu t
    rw [List.cons_append, parseExponent, ht', not_all_isDigit hu, if_neg (by simp)]

include hu in
theorem parseF64_unit (t : Text) : parseF64 (t ++ [u]) = none := by
  obtain ⟨t', ht'⟩ := unsigned_unit hu t
  have hrest : ∃ r, (if ((t' ++ [u]).dropWhile Char.isDigit).head? = some '.' then
      ((t' ++ [u]).dropWhile Char.isDigit).tail.dropWhile Char.isDigit
      else (t' ++ [u]).dropWhile Char.isDigit) = r ++ [u] := by
    rw [dropWhile_unit hu]
    split
    · rename_i hpoint
      obtain ⟨r, hr⟩ := tail_append_singleton _ (head_ne_unit hu hpoint (by decide))
      exact ⟨_, by rw [hr, dropWhile_unit hu]⟩
    · exact ⟨_, rfl⟩
  obtain ⟨r, hr⟩ := hrest
  unfold parseF64
  simp only [ht', hr, parseExponent_unit hu, Option.map_none, ite_self]

include hu in
theorem wordSeconds_unit (t : Text) : wordSeconds (t ++ [u]) = none := by
  obtain ⟨t', ht'⟩ := unsigned_unit hu t
  have hlast : ∀ word ∈ ["inf".toList, "infinity".toList, "nan".toList], lower (t' ++ [u]) ≠ word := by
    intro word hword h
    have hlower : word.getLast? = some u.toLower := by
      rw [← h]
      simp [lower]
    simp only [List.mem_cons, List.not_mem_nil, or_false] at hu hword
    rcases hu with rfl | rfl | rfl <;> rcases hword with rfl | rfl | rfl <;> exact absurd hlower (by decide)
  unfold wordSeconds
  simp only [ht']
  rw [if_neg, if_neg]
  · exact hlast _ (by simp)
  · rintro (h | h)
    · exact hlast _ (by simp) h
    · exact hlast _ (by simp) h

end

/-! ### Durations as they are read -/

theorem trim_eq_self {s : Text} (hhead : ∀ c, s.head? = some c → isWhitespace c = false)
    (hlast : ∀ c, s.getLast? = some c → isWhitespace c = false) : trim s = s := by
  have hdrop : ∀ t : Text, (∀ c, t.head? = some c → isWhitespace c = false) → t.dropWhile isWhitespace = t := by
    intro t ht
    cases t with
    | nil => rfl
    | cons c t => exact List.dropWhile_cons_of_neg (by simp [ht c rfl])
  unfold trim
  rw [hdrop s hhead, hdrop s.reverse fun c hc => hlast c (by rwa [List.head?_reverse] at hc), List.reverse_reverse]

theorem isWhitespace_of_digit_or_point {c : Char} (h : c.isDigit = true ∨ c = '.') : isWhitespace c = false := by
  rcases h with h | rfl
  · obtain ⟨hlow, hhigh⟩ := Char.isDigit_iff_toNat.mp h
    change 48 ≤ c.toNat at hlow
    change c.toNat ≤ 57 at hhigh
    unfold isWhitespace
    simp only [Bool.or_eq_false_iff, Bool.and_eq_false_iff, decide_eq_false_iff_not, beq_eq_false_iff_ne]
    omega
  · decide

theorem isWhitespace_of_head (cs : List Component) (c : Char) (h : (cs.flatMap Component.text).head? = some c) :
    isWhitespace c = false := by
  cases cs with
  | nil => cases h
  | cons first cs =>
    have hne := first.number.text_ne_nil
    have hmem : c ∈ first.number.text := by
      rw [List.flatMap_cons, Component.text] at h
      cases hnumber : first.number.text with
      | nil => exact absurd hnumber hne
      | cons c' rest =>
        rw [hnumber] at h
        cases h
        exact List.mem_cons_self
    exact isWhitespace_of_digit_or_point (first.number.digit_or_point hmem)

theorem Component.text_eq (c : Component) : ∃ t u, c.text = t ++ [u] ∧ u ∈ ['h', 'm', 's'] := by
  unfold Component.text
  cases c.unit with
  | hour => exact ⟨_, 'h', rfl, by decide⟩
  | minute => exact ⟨_, 'm', rfl, by decide⟩
  | second => exact ⟨_, 's', rfl, by decide⟩
  | millisecond => exact ⟨c.number.text ++ ['m'], 's', by simp [TimeUnit.text], by decide⟩

/-- Every duration is read by the scan. -/
theorem parseResetTime_flatMap (cs : List Component) :
    parseResetTime (cs.flatMap Component.text) =
      if 0 < ceilU64 (mistakenSeconds cs) then some (ceilU64 (mistakenSeconds cs)) else none := by
  have hscan : scanDuration (cs.flatMap Component.text) (cs.flatMap Component.text) 0 0 none = mistakenSeconds cs := by
    have h := @scanDuration_flatMap (cs.flatMap Component.text) [] cs rfl 0
    rwa [zero_add] at h
  have hcompound : parseCompoundDuration (cs.flatMap Component.text) =
      if 0 < ceilU64 (mistakenSeconds cs) then some (ceilU64 (mistakenSeconds cs)) else none := by
    unfold parseCompoundDuration
    rw [hscan]
  rcases cs.eq_nil_or_concat with rfl | ⟨before, c, hcs⟩
  · rw [← hcompound]
    rfl
  · obtain ⟨t, u, htext, hu⟩ := c.text_eq
    have heq : cs.flatMap Component.text = before.flatMap Component.text ++ t ++ [u] := by
      rw [hcs, List.concat_eq_append, List.flatMap_append, List.flatMap_singleton, htext, List.append_assoc]
    have htrim : trim (cs.flatMap Component.text) = cs.flatMap Component.text := by
      refine trim_eq_self (isWhitespace_of_head cs) fun c' hc' => ?_
      rw [heq, List.getLast?_concat] at hc'
      cases hc'
      exact (not_isDigit_of_unit hu).2
    unfold parseResetTime
    rw [htrim, ← hcompound]
    simp only [heq, parseU64_unit hu, wordSeconds_unit hu, parseF64_unit hu]

/-! ### When milliseconds do not matter -/

theorem Decimal.value_nonneg (d : Decimal) : 0 ≤ d.value := div_nonneg (Nat.cast_nonneg _) (by positivity)

theorem exactSeconds_nonneg (cs : List Component) : 0 ≤ exactSeconds cs := by
  refine List.sum_nonneg fun q hq => ?_
  obtain ⟨c, -, rfl⟩ := List.mem_map.mp hq
  refine mul_nonneg c.number.value_nonneg ?_
  cases c.unit <;> norm_num [TimeUnit.seconds]

theorem exactSeconds_le (cs : List Component) : exactSeconds cs ≤ mistakenSeconds cs := by
  refine List.sum_le_sum fun c _ => mul_le_mul_of_nonneg_left ?_ c.number.value_nonneg
  cases c.unit <;> norm_num [TimeUnit.seconds, TimeUnit.codeSeconds]

theorem mistakenSeconds_le (cs : List Component) : mistakenSeconds cs ≤ 60000 * exactSeconds cs := by
  unfold mistakenSeconds exactSeconds
  rw [← List.sum_map_mul_left]
  refine List.sum_le_sum fun c _ => ?_
  have h : c.unit.codeSeconds ≤ 60000 * c.unit.seconds := by
    cases c.unit <;> norm_num [TimeUnit.seconds, TimeUnit.codeSeconds]
  calc c.number.value * c.unit.codeSeconds ≤ c.number.value * (60000 * c.unit.seconds) :=
        mul_le_mul_of_nonneg_left h c.number.value_nonneg
    _ = 60000 * (c.number.value * c.unit.seconds) := by ring

/-- What makes the code right: the length fits into 64 bits, and taking its milliseconds for minutes adds no more than
rounding up does, if the length is not the greatest one. -/
structure Harmless (cs : List Component) : Prop where
  fits : ⌈exactSeconds cs⌉₊ ≤ maxU64
  mistake : mistakenSeconds cs ≤ ⌈exactSeconds cs⌉₊ ∨ ⌈exactSeconds cs⌉₊ = maxU64

/-- The code returns the time to a reset exactly for the durations whose milliseconds do not matter. -/
theorem parseResetTime_iff (cs : List Component) :
    parseResetTime (cs.flatMap Component.text) = resetTime cs ↔ Harmless cs := by
  have hle := exactSeconds_le cs
  have hge := mistakenSeconds_le cs
  have hceil : ⌈exactSeconds cs⌉₊ ≤ ⌈mistakenSeconds cs⌉₊ := Nat.ceil_mono hle
  have hmistake : mistakenSeconds cs ≤ ⌈exactSeconds cs⌉₊ ↔ ⌈mistakenSeconds cs⌉₊ ≤ ⌈exactSeconds cs⌉₊ := Nat.ceil_le.symm
  -- the code rounds up the mistaken length and caps it, so the condition is that this gives the exact length rounded up
  have hharmless : Harmless cs ↔ min ⌈mistakenSeconds cs⌉₊ maxU64 = ⌈exactSeconds cs⌉₊ := by
    constructor
    · rintro ⟨hfits, hmistake'⟩
      rw [hmistake] at hmistake'
      omega
    · intro h
      refine ⟨by omega, ?_⟩
      rw [hmistake]
      omega
  rw [parseResetTime_flatMap, hharmless]
  unfold resetTime ceilU64
  by_cases hzero : exactSeconds cs = 0
  · have hmistaken : mistakenSeconds cs = 0 := by
      rw [hzero] at hle hge
      linarith
    rw [if_pos hzero, hmistaken, hzero, Nat.ceil_zero, Nat.zero_min]
    simp
  · have hpos : 0 < exactSeconds cs := lt_of_le_of_ne (exactSeconds_nonneg cs) (Ne.symm hzero)
    have hceilPos : 0 < ⌈mistakenSeconds cs⌉₊ := Nat.ceil_pos.mpr (hpos.trans_le hle)
    have hmin : 0 < min ⌈mistakenSeconds cs⌉₊ maxU64 := by
      unfold maxU64
      omega
    rw [if_neg hzero, if_pos hmin, Option.some.injEq]

def millis120 : List Component := [⟨⟨"120".toList, none, by decide, by decide⟩, .millisecond⟩]

/-- A pause of 120 milliseconds is read as two hours. -/
theorem parseResetTime_millis :
    millis120.flatMap Component.text = "120ms".toList ∧ parseResetTime "120ms".toList = some 7200 ∧
      resetTime millis120 = some 1 := by
  refine ⟨by decide, by decide +kernel, by decide +kernel⟩

end OpenProxy.Quota
