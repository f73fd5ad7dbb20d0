import OpenProxy.Anthropic.Content
import OpenProxy.Data.JsonDecode
import Mathlib.Data.Rat.Defs
import Mathlib.Algebra.Order.Field.Rat

/-!
# The thinking budget of a Messages request

The model of the part of `openai_to_anthropic` that decides on `max_tokens`.  A client asks for a budget by an effort, which
may be a number, or by a `thinking` object, which is passed on as it is.  The budget is cut to 32 bits and 1024 tokens are
added to it without a guard.  So `max_tokens` exceeds a budget that is a positive integer and leaves room for the addition,
and any other budget only if the client's own limit does (`budgetFits_iff`).
-/

namespace OpenProxy

/-! ### The value of a number -/

/-- The digits of a number: its integer and its fraction, and its exponent with the sign. -/
structure NumberParts where
  negative : Bool
  int : Text
  fraction : Text
  exponent : Text

/-- The exponent that is written after the `e`. -/
def exponentValue (exponent : Text) : Int :=
  match exponent.tail with
  | '-' :: digits => -(digitsValue digits : Int)
  | '+' :: digits => digitsValue digits
  | digits => digitsValue digits

def NumberParts.value (p : NumberParts) : ℚ :=
  (if p.negative then -1 else 1) * digitsValue (p.int ++ p.fraction) *
    10 ^ (exponentValue p.exponent - (p.fraction.length : Int))

/-- The parts of the text of a number. -/
def numberParts (digits : Text) : NumberParts :=
  let negative := digits.head? = some '-'
  let s := if negative then digits.tail else digits
  let rest := s.dropWhile Char.isDigit
  match rest with
  | '.' :: rest => ⟨negative, s.takeWhile Char.isDigit, rest.takeWhile Char.isDigit, rest.dropWhile Char.isDigit⟩
  | rest => ⟨negative, s.takeWhile Char.isDigit, [], rest⟩

/-- The number that is written. -/
def JsonNumber.value (n : JsonNumber) : ℚ := (numberParts n.digits).value

theorem digitsValue_eq (s : Text) : digitsValue s = Nat.ofDigitChars 10 s 0 := by
  unfold digitsValue Nat.ofDigitChars
  congr 1
  funext value c
  rw [Nat.mul_comm]
  rfl

theorem digitsValue_toDigits (n : Nat) : digitsValue (Nat.toDigits 10 n) = n := by
  rw [digitsValue_eq, Nat.ofDigitChars_toDigits (by decide) (by decide)]

theorem takeWhile_digits {s : Text} (h : s.all Char.isDigit = true) :
    s.takeWhile Char.isDigit = s ∧ s.dropWhile Char.isDigit = [] := by
  rw [List.all_eq_true] at h
  exact ⟨List.takeWhile_eq_self_iff.mpr h, List.dropWhile_eq_nil_iff.mpr h⟩

/-- A number that is read as an integer is that integer. -/
theorem JsonNumber.value_of_asU64 {n : JsonNumber} {value : Nat} (h : n.asU64 = some value) : n.value = value := by
  unfold JsonNumber.asU64 at h
  split at h
  · rename_i hdigits
    obtain ⟨hall, -⟩ := hdigits
    have hsign : n.digits.head? ≠ some '-' := by
      intro hhead
      have hmem := List.mem_of_mem_head? hhead
      exact absurd (List.all_eq_true.mp hall _ hmem) (by decide)
    obtain ⟨htake, hdrop⟩ := takeWhile_digits hall
    have hparts : numberParts n.digits = ⟨false, n.digits, [], []⟩ := by
      unfold numberParts
      simp [hsign, htake, hdrop]
    rw [JsonNumber.value, hparts, ← Option.some.inj h]
    simp [NumberParts.value, exponentValue, digitsValue]
  · cases h

theorem JsonNumber.asU64_ofNat {n : Nat} (h : n < 2 ^ 64) : (JsonNumber.ofNat n).asU64 = some n := by
  have hdigits : (Nat.toDigits 10 n).all Char.isDigit = true :=
    List.all_eq_true.mpr fun c hc => Nat.isDigit_of_mem_toDigits (by decide) (by decide) hc
  unfold JsonNumber.asU64 JsonNumber.ofNat
  dsimp only
  rw [digitsValue_toDigits, if_pos ⟨hdigits, h⟩]

namespace Anthropic

open Json

/-! ### The settings of a request -/

def defaultMaxTokens : Nat := 4096

/-- The bound of `u32`. -/
def maxU32 : Nat := 2 ^ 32 - 1

/-- The fields of `OpenAIRequest` that the budget depends on. -/
structure OpenAIRequest where
  maxTokens : Option UInt32
  extra : List (Text × Json)

/-- The fields of `AnthropicRequest` that the budget decides on. -/
structure TokenSettings where
  maxTokens : Nat
  extra : List (Text × Json)

/-- `parse::<u32>`. -/
def parseU32 (s : Text) : Option Nat :=
  let digits := if s.head? = some '+' then s.tail else s
  if !digits.isEmpty && digits.all Char.isDigit && digitsValue digits ≤ maxU32 then some (digitsValue digits) else none

/-- `extra.get(key).and_then(|v| v.as_str())`. -/
def extraStr (extra : List (Text × Json)) (key : Text) : Option Text := (getField extra key).bind asStr

/-- `reasoning`, if it is an object. -/
def reasoningObj (extra : List (Text × Json)) : List (Text × Json) :=
  ((getField extra "reasoning".toList).bind asObject).getD []

/-- The effort that `reasoning.enabled` stands for. -/
def effortOfEnabled (extra : List (Text × Json)) : Option Text :=
  match getField (reasoningObj extra) "enabled".toList with
  | some (.bool false) => some "none".toList
  | some (.bool true) => some "medium".toList
  | _ => none

/-- `effort_opt`. -/
def effortOpt (extra : List (Text × Json)) : Option Text :=
  (extraStr extra "reasoning_effort".toList).or
    ((extraStr (reasoningObj extra) "effort".toList).or
      ((extraStr extra "reasoningEffort".toList).or
        ((extraStr extra "thinking_effort".toList).or (effortOfEnabled extra))))

/-- The budget of an effort; `none` where there is no thinking. -/
def effortBudget (effort : Text) : Option Nat :=
  if effort = "none".toList then none
  else if effort = "low".toList then some 2048
  else if effort = "medium".toList then some 8192
  else if effort = "high".toList then some 16384
  else if effort = "max".toList ∨ effort = "xhigh".toList then some 32768
  else some ((parseU32 effort).getD 8192)

/-- The `thinking` object of a budget. -/
def enabledThinking (budget : Nat) : Json :=
  object [("budget_tokens".toList, number (JsonNumber.ofNat budget)), (Key.type, string "enabled".toList)]

/-- The budget of a `thinking` object of the client, cut to 32 bits. -/
def clientBudget (clientThinking : Json) : Nat :=
  (((clientThinking.get "budget_tokens".toList).bind decodeU64).map (· % (maxU32 + 1))).getD 0

/-- `max_tokens_override` and `thinking_val`. -/
def thinkingOverride (extra : List (Text × Json)) : Nat × Option Json :=
  match effortOpt extra with
  | some effort => ((effortBudget effort).getD 0, (effortBudget effort).map enabledThinking)
  | none =>
    match getField extra Key.thinking with
    | some clientThinking =>
      if strAt clientThinking Key.type = some "disabled".toList then (0, none)
      else (clientBudget clientThinking, some clientThinking)
    | none => (0, none)

/-- `base_max_tokens`. -/
def baseMaxTokens (req : OpenAIRequest) : Nat :=
  ((req.maxTokens.map UInt32.toNat).or
    (((getField req.extra "max_completion_tokens".toList).bind decodeU64).map (· % (maxU32 + 1)))).getD defaultMaxTokens

/-- `effective_max_tokens`; the sum is cut to 32 bits. -/
def effectiveMaxTokens (base override : Nat) : Nat :=
  if 0 < override then max base ((override + 1024) % (maxU32 + 1)) else base

/-- What `openai_to_anthropic` makes of the settings. -/
def tokenSettings (req : OpenAIRequest) : TokenSettings where
  maxTokens := effectiveMaxTokens (baseMaxTokens req) (thinkingOverride req.extra).1
  extra := ((thinkingOverride req.extra).2.map fun thinking => (Key.thinking, thinking)).toList

/-! ### The budget fits -/

/-- The number in `thinking.budget_tokens` of a result. -/
def budgetTokens (settings : TokenSettings) : Option JsonNumber :=
  match (getField settings.extra Key.thinking).bind (·.get "budget_tokens".toList) with
  | some (.number n) => some n
  | _ => none

/-- The sum does not overflow, and the limit exceeds the budget of the result. -/
def BudgetFits (req : OpenAIRequest) : Prop :=
  (0 < (thinkingOverride req.extra).1 → (thinkingOverride req.extra).1 + 1024 ≤ maxU32) ∧
    ∀ n ∈ budgetTokens (tokenSettings req), n.value < ((tokenSettings req).maxTokens : ℚ)

/-- The number in `budget_tokens`. -/
def budgetNumber (thinking : Json) : Option JsonNumber :=
  match thinking.get "budget_tokens".toList with
  | some (.number n) => some n
  | _ => none

/-- The budget that a request asks for, if it is a number. -/
def requestedBudget (extra : List (Text × Json)) : Option JsonNumber :=
  match effortOpt extra with
  | some effort => (effortBudget effort).map JsonNumber.ofNat
  | none => (getField extra Key.thinking).bind fun thinking =>
    if strAt thinking Key.type = some "disabled".toList then none else budgetNumber thinking

/-- A budget leaves room: an unsigned integer for the tokens that are added to it, and zero or any other number for being
exceeded by the client's limit. -/
def LeavesRoom (base : Nat) (n : JsonNumber) : Prop :=
  match n.asU64 with
  | some budget => budget + 1024 ≤ maxU32 ∧ (0 < budget ∨ 0 < base)
  | none => n.value < (base : ℚ)

theorem baseMaxTokens_le (req : OpenAIRequest) : baseMaxTokens req ≤ maxU32 := by
  unfold baseMaxTokens
  cases req.maxTokens with
  | some n =>
    show n.toNat ≤ maxU32
    exact Nat.le_sub_one_of_lt n.toNat_lt
  | none =>
    show ((((getField req.extra "max_completion_tokens".toList).bind decodeU64).map (· % (maxU32 + 1)))).getD
      defaultMaxTokens ≤ maxU32
    cases (getField req.extra "max_completion_tokens".toList).bind decodeU64 with
    | none => decide
    | some n => exact Nat.lt_succ_iff.mp (Nat.mod_lt n (Nat.succ_pos maxU32))

theorem parseU32_le {s : Text} {n : Nat} (h : parseU32 s = some n) : n ≤ maxU32 := by
  unfold parseU32 at h
  dsimp only at h
  generalize (if s.head? = some '+' then s.tail else s) = digits at h
  rw [Option.ite_none_right_eq_some, Bool.and_eq_true, decide_eq_true_iff] at h
  rw [← Option.some.inj h.2]
  exact h.1.2

theorem effortBudget_le {effort : Text} {budget : Nat} (h : effortBudget effort = some budget) : budget ≤ maxU32 := by
  have hparse : (parseU32 effort).getD 8192 ≤ maxU32 := by
    cases hn : parseU32 effort with
    | none => decide
    | some n => exact parseU32_le hn
  unfold effortBudget at h
  split at h
  · cases h
  · repeat' split at h
    all_goals
      rw [← Option.some.inj h]
      first
      | decide
      | exact hparse

theorem budgetNumber_enabledThinking (budget : Nat) :
    budgetNumber (enabledThinking budget) = some (JsonNumber.ofNat budget) := rfl

/-- The override is the budget that is asked for, cut to 32 bits. -/
theorem thinkingOverride_fst (extra : List (Text × Json)) :
    (thinkingOverride extra).1 = (((requestedBudget extra).bind JsonNumber.asU64).map (· % (maxU32 + 1))).getD 0 := by
  unfold thinkingOverride requestedBudget
  cases effortOpt extra with
  | some effort =>
    dsimp only
    cases hbudget : effortBudget effort with
    | none => rfl
    | some budget =>
      have hle := effortBudget_le hbudget
      have hu64 : (JsonNumber.ofNat budget).asU64 = some budget :=
        JsonNumber.asU64_ofNat (Nat.lt_of_le_of_lt hle (by decide))
      show budget = (((some (JsonNumber.ofNat budget)).bind JsonNumber.asU64).map (· % (maxU32 + 1))).getD 0
      rw [Option.bind_some, hu64]
      exact (Nat.mod_eq_of_lt (Nat.lt_succ_of_le hle)).symm
  | none =>
    dsimp only
    cases getField extra Key.thinking with
    | none => rfl
    | some thinking =>
      rw [Option.bind_some]
      dsimp only
      split
      · rfl
      · unfold clientBudget budgetNumber
        cases thinking.get "budget_tokens".toList with
        | none => rfl
        | some v =>
          cases v with
          | number n => rfl
          | null => rfl
          | bool b => rfl
          | string t => rfl
          | array items => rfl
          | object fields => rfl

/-- The budget of the result is the one that is asked for. -/
theorem budgetTokens_tokenSettings (req : OpenAIRequest) : budgetTokens (tokenSettings req) = requestedBudget req.extra := by
  have hresult : ∀ thinking : Option Json, budgetTokens ⟨(tokenSettings req).maxTokens,
      (thinking.map fun thinking => (Key.thinking, thinking)).toList⟩ = thinking.bind budgetNumber := by
    intro thinking
    cases thinking with
    | none => rfl
    | some thinking => rfl
  have hval : (thinkingOverride req.extra).2.bind budgetNumber = requestedBudget req.extra := by
    unfold thinkingOverride requestedBudget
    cases effortOpt req.extra with
    | some effort =>
      dsimp only
      cases effortBudget effort with
      | none => rfl
      | some budget => exact budgetNumber_enabledThinking budget
    | none =>
      dsimp only
      cases getField req.extra Key.thinking with
      | none => rfl
      | some thinking =>
        rw [Option.bind_some]
        dsimp only
        split
        · rfl
        · rfl
  exact (hresult _).trans hval

/-- The budget fits exactly if the one that the request asks for, where it is a number, leaves room. -/
theorem budgetFits_iff (req : OpenAIRequest) :
    BudgetFits req ↔ ∀ n ∈ requestedBudget req.extra, LeavesRoom (baseMaxTokens req) n := by
  have hbase := baseMaxTokens_le req
  have hmax : (tokenSettings req).maxTokens = effectiveMaxTokens (baseMaxTokens req) (thinkingOverride req.extra).1 := rfl
  unfold BudgetFits
  rw [hmax, budgetTokens_tokenSettings, thinkingOverride_fst]
  cases requestedBudget req.extra with
  | none => simp
  | some n =>
    simp only [Option.mem_def, Option.some.injEq, forall_eq', Option.bind_some]
    unfold LeavesRoom
    generalize baseMaxTokens req = base at *
    cases hu64 : n.asU64 with
    | none => simp [effectiveMaxTokens]
    | some budget =>
      rw [JsonNumber.value_of_asU64 hu64]
      simp only [Option.map_some, Option.getD_some, Nat.cast_lt, effectiveMaxTokens]
      unfold maxU32 at *
      constructor
      · rintro ⟨hroom, hlt⟩
        split at hlt <;> omega
      · rintro ⟨hroom, hpos⟩
        refine ⟨fun _ => by omega, ?_⟩
        split <;> omega

/-- An effort that is the largest number of 32 bits. -/
def largestEffort : OpenAIRequest := ⟨none, [("reasoning_effort".toList, string "4294967295".toList)]⟩

/-- The sum wraps around, and the limit is the default one. -/
theorem budgetFits_largest :
    (thinkingOverride largestEffort.extra).1 = 4294967295 ∧ (tokenSettings largestEffort).maxTokens = 4096 ∧
      ¬ BudgetFits largestEffort := by
  have hoverride : (thinkingOverride largestEffort.extra).1 = 4294967295 := by decide
  refine ⟨hoverride, by decide, fun hfits => ?_⟩
  have hroom := hfits.1
  rw [hoverride] at hroom
  exact absurd (hroom (by decide)) (by decide)

end Anthropic

end OpenProxy
