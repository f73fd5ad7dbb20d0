import OpenProxy.Text.Order

/-!
# Times

A time stamp, the text that `record_cooldown` stores for it (RFC 3339, in UTC), and the text that SQLite's `datetime`
makes of the stored one.  SQLite compares the texts of `datetime`; the routing snapshot compares the stored text with
the text of the current time.  The theorems say what the two comparisons mean for the times themselves: the second one
sees the dates only.
-/

namespace OpenProxy.Routing

def isLeapYear (year : Nat) : Bool := year % 4 == 0 && (year % 100 != 0 || year % 400 == 0)

def daysInMonth (year month : Nat) : Nat :=
  if month = 2 then (if isLeapYear year then 29 else 28)
  else if month = 4 ∨ month = 6 ∨ month = 9 ∨ month = 11 then 30
  else 31

/-- A time in UTC, to the nanosecond. -/
structure Timestamp where
  year : Nat
  month : Nat
  day : Nat
  hour : Nat
  minute : Nat
  second : Nat
  nano : Nat
  valid : 1 ≤ month ∧ month ≤ 12 ∧ 1 ≤ day ∧ day ≤ daysInMonth year month ∧ hour < 24 ∧ minute < 60 ∧ second < 60 ∧
    nano < 10 ^ 9
  deriving DecidableEq

namespace Timestamp

/-! ### Texts -/

/-- The year has four digits, or more after a plus sign. -/
def yearText (t : Timestamp) : Text := if t.year ≤ 9999 then digits 4 t.year else '+' :: Nat.toDigits 10 t.year

def dateText (t : Timestamp) : Text := t.yearText ++ (['-'] ++ (digits 2 t.month ++ (['-'] ++ digits 2 t.day)))

def timeText (t : Timestamp) : Text := digits 2 t.hour ++ ([':'] ++ (digits 2 t.minute ++ ([':'] ++ digits 2 t.second)))

/-- No fraction, or one in milli-, micro- or nanoseconds, as many as are needed. -/
def fractionText (t : Timestamp) : Text :=
  if t.nano = 0 then []
  else if t.nano % 1000000 = 0 then ['.'] ++ digits 3 (t.nano / 1000000)
  else if t.nano % 1000 = 0 then ['.'] ++ digits 6 (t.nano / 1000)
  else ['.'] ++ digits 9 t.nano

/-- `to_rfc3339`. -/
def toRfc3339 (t : Timestamp) : Text := t.dateText ++ (['T'] ++ (t.timeText ++ (t.fractionText ++ "+00:00".toList)))

/-- SQLite's `datetime` of a time, in the form of `to_rfc3339` or as the current time: to the second, and `NULL` after
the year 9999. -/
def datetime (t : Timestamp) : Option Text :=
  if t.year ≤ 9999 then some (t.dateText ++ ([' '] ++ t.timeText)) else none

/-! ### Comparisons -/

/-- `datetime(a) > datetime(b)` in SQL, as a condition: `NULL` does not satisfy it. -/
def datetimeGt (a b : Timestamp) : Bool :=
  match a.datetime, b.datetime with
  | some x, some y => textLt y x
  | _, _ => false

/-- `datetime(a) <= datetime(b)` in SQL, as a condition. -/
def datetimeLe (a b : Timestamp) : Bool :=
  match a.datetime, b.datetime with
  | some x, some y => !textLt y x
  | _, _ => false

/-- `now_str`: the current time as text, empty when SQLite has none. -/
def nowStr (now : Timestamp) : Text := now.datetime.getD []

/-- The comparison of the snapshot: the stored text is greater than the text of the current time. -/
def storedGt (t now : Timestamp) : Bool := textLt now.nowStr t.toRfc3339

/-! ### What they mean -/

/-- Dates, as numbers in their order. -/
def dateKey (t : Timestamp) : Nat := (t.year * 100 + t.month) * 100 + t.day

/-- Times of day to the second, as numbers in their order. -/
def timeKey (t : Timestamp) : Nat := (t.hour * 100 + t.minute) * 100 + t.second

theorem month_lt (t : Timestamp) : t.month < 100 := by
  have := t.valid
  omega

theorem day_lt (t : Timestamp) : t.day < 100 := by
  have h := t.valid
  have hd : daysInMonth t.year t.month ≤ 31 := by
    unfold daysInMonth
    split_ifs <;> omega
  omega

/-- The times that SQLite can render. -/
abbrev Renderable := { t : Timestamp // t.year ≤ 9999 }

private theorem orderedBy_dateText : OrderedBy (fun t : Renderable => t.1.dateText) fun t => t.1.dateKey := by
  have hyear : OrderedBy (fun t : Renderable => t.1.yearText) fun t => t.1.year := by
    have := OrderedBy.digits (w := 4) (n := fun t : Renderable => t.1.year) fun t => by have := t.2; omega
    have heq : (fun t : Renderable => t.1.yearText) = fun t : Renderable => digits 4 t.1.year := by
      funext t
      simp [yearText, t.2]
    rwa [heq]
  have hmonth := OrderedBy.digits (w := 2) (n := fun t : Renderable => t.1.month) fun t => t.1.month_lt
  have hday := OrderedBy.digits (w := 2) (n := fun t : Renderable => t.1.day) fun t => t.1.day_lt
  have hsep := OrderedBy.const (α := Renderable) ['-']
  have hd := hsep.append hday 100 fun t => t.1.day_lt
  have hmd := hmonth.append hd 100 fun t => by simpa using t.1.day_lt
  have hs := hsep.append hmd 10000 fun t => by
    have := t.1.month_lt
    have := t.1.day_lt
    omega
  refine (hyear.append hs 10000 fun t => ?_).of_key_eq ?_
  · have := t.1.month_lt
    have := t.1.day_lt
    omega
  · intro t
    simp only [dateKey]
    omega

private theorem orderedBy_timeText : OrderedBy (fun t : Renderable => t.1.timeText) fun t => t.1.timeKey := by
  have hv := fun t : Renderable => t.1.valid
  have hhour := OrderedBy.digits (w := 2) (n := fun t : Renderable => t.1.hour) fun t => by have := hv t; omega
  have hminute := OrderedBy.digits (w := 2) (n := fun t : Renderable => t.1.minute) fun t => by have := hv t; omega
  have hsecond := OrderedBy.digits (w := 2) (n := fun t : Renderable => t.1.second) fun t => by have := hv t; omega
  have hsep := OrderedBy.const (α := Renderable) [':']
  have hs := hsep.append hsecond 100 fun t => by have := hv t; omega
  have hms := hminute.append hs 100 fun t => by have := hv t; omega
  have h2 := hsep.append hms 10000 fun t => by have := hv t; omega
  refine (hhour.append h2 10000 fun t => ?_).of_key_eq ?_
  · have := hv t
    omega
  · intro t
    simp only [timeKey]
    omega

/-- The first of two times is later by date, or on the same date by time of day. -/
def Later (a b : Timestamp) : Prop := b.dateKey < a.dateKey ∨ b.dateKey = a.dateKey ∧ b.timeKey < a.timeKey

instance (a b : Timestamp) : Decidable (a.Later b) := inferInstanceAs (Decidable (_ ∨ _))

private theorem textLt_datetime {a b : Timestamp} (ha : a.year ≤ 9999) (hb : b.year ≤ 9999) :
    textLt (b.dateText ++ ([' '] ++ b.timeText)) (a.dateText ++ ([' '] ++ a.timeText)) = true ↔ a.Later b := by
  have hd := orderedBy_dateText
  have ht := orderedBy_timeText
  rw [textLt_append (hd.length ⟨b, hb⟩ ⟨a, ha⟩), Bool.or_eq_true, Bool.and_eq_true, beq_iff_eq,
    textLt_append rfl, Bool.or_eq_true, Bool.and_eq_true, textLt_irrefl]
  rw [hd.lt ⟨b, hb⟩ ⟨a, ha⟩, hd.eq ⟨b, hb⟩ ⟨a, ha⟩, ht.lt ⟨b, hb⟩ ⟨a, ha⟩]
  simp [Later]

theorem datetimeGt_iff {a b : Timestamp} :
    a.datetimeGt b = true ↔ a.year ≤ 9999 ∧ b.year ≤ 9999 ∧ a.Later b := by
  unfold datetimeGt datetime
  by_cases ha : a.year ≤ 9999
  · by_cases hb : b.year ≤ 9999
    · simp only [ha, hb, ↓reduceIte, true_and]
      exact textLt_datetime ha hb
    · simp [ha, hb]
  · simp [ha]

theorem datetimeLe_iff {a b : Timestamp} :
    a.datetimeLe b = true ↔ a.year ≤ 9999 ∧ b.year ≤ 9999 ∧ ¬ a.Later b := by
  unfold datetimeLe datetime
  by_cases ha : a.year ≤ 9999
  · by_cases hb : b.year ≤ 9999
    · simp only [ha, hb, ↓reduceIte, true_and, Bool.not_eq_true', ← Bool.not_eq_true]
      rw [textLt_datetime ha hb]
    · simp [ha, hb]
  · simp [ha]

private theorem plus_lt_digit (n : Nat) : decide ((n % 10).digitChar < '+') = false ∧ (n % 10).digitChar ≠ '+' := by
  have h : ∀ d : Fin 10, decide (d.val.digitChar < '+') = false ∧ d.val.digitChar ≠ '+' := by decide
  exact h ⟨n % 10, Nat.mod_lt _ (by omega)⟩

/-- The snapshot compares dates: a stored time is greater than the current one from the beginning of its day on. -/
theorem storedGt_iff {t now : Timestamp} :
    t.storedGt now = true ↔ 9999 < now.year ∨ t.year ≤ 9999 ∧ now.dateKey ≤ t.dateKey := by
  unfold storedGt nowStr datetime
  by_cases hn : now.year ≤ 9999
  · simp only [hn, ↓reduceIte, Option.getD_some, show ¬ 9999 < now.year by omega, false_or]
    by_cases ht : t.year ≤ 9999
    · have hd := orderedBy_dateText
      unfold toRfc3339
      rw [textLt_append (hd.length ⟨now, hn⟩ ⟨t, ht⟩), textLt_append (a := [' ']) (b := ['T']) rfl, Bool.or_eq_true, Bool.and_eq_true,
        beq_iff_eq, hd.lt ⟨now, hn⟩ ⟨t, ht⟩, hd.eq ⟨now, hn⟩ ⟨t, ht⟩]
      -- on the same date the blank of one text meets the `T` of the other
      have hT : textLt [' '] ['T'] = true := by decide
      simp only [hT, Bool.true_or, and_true, ht, true_and]
      omega
    · -- a year of more than four digits begins with a plus sign, which is less than any digit
      simp only [ht, false_and, iff_false, Bool.not_eq_true]
      have h4 : digits 4 now.year = [(now.year / 1000 % 10).digitChar, (now.year / 100 % 10).digitChar,
          (now.year / 10 % 10).digitChar, (now.year % 10).digitChar] := by
        simp [digits, Nat.div_div_eq_div_mul]
      obtain ⟨hlt, hne⟩ := plus_lt_digit (now.year / 1000)
      simp only [toRfc3339, dateText, yearText, hn, ht, ↓reduceIte, h4, List.cons_append, textLt, hlt, Bool.false_or,
        Bool.and_eq_false_iff, beq_eq_false_iff_ne]
      exact Or.inl hne
  · have hcons : ∃ c s, t.toRfc3339 = c :: s := by
      unfold toRfc3339 dateText yearText
      split
      · exact ⟨_, _, rfl⟩
      · exact ⟨_, _, rfl⟩
    obtain ⟨c, s, hcs⟩ := hcons
    simp only [hn, ↓reduceIte, Option.getD_none, hcs, textLt, true_iff]
    omega

end Timestamp

end OpenProxy.Routing
