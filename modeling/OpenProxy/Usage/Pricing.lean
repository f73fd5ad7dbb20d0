import OpenProxy.Text.Basic
import Mathlib.Data.Rat.Defs
import Mathlib.Tactic.FieldSimp
import Mathlib.Tactic.Linarith
import Mathlib.Tactic.Ring

/-!
# The cost of usage rows, recorded and backfilled

`record_row` computes the cost of a request from the price that is known at the time, and `backfill_usage_pricing` goes
over the rows that have no cost or the cost zero and computes it in SQL.  The two formulas differ, and the update does
not look at the status of the request: `backfill_iff` says for which requests and prices both agree.

Prices are rational numbers, and `lookup_with_db` is a parameter: it reads tables that the backfill does not change.
-/

namespace OpenProxy.Usage

inductive PriceKind
  | chat
  | audio
  | image
  | video
  | other
  deriving DecidableEq

structure Price where
  inputPer1m : ℚ
  outputPer1m : ℚ
  kind : PriceKind
  audioPerHour : Option ℚ
  deriving DecidableEq

/-- `UsageInput`, as far as the cost depends on it. -/
structure UsageInput where
  providerId : Text
  upstreamModelId : Text
  promptTokens : Option Nat
  completionTokens : Option Nat
  cachedTokens : Option Nat
  audioMs : Option Nat
  statusCode : Nat
  totalMs : Nat
  deriving DecidableEq

/-- A row of the table `usage`. -/
structure UsageRow extends UsageInput where
  costUsd : Option ℚ
  tokensPerSec : Option ℚ
  deriving DecidableEq

/-! ### Recording -/

/-- The rate of a price for audio. -/
def Price.perHour (p : Price) : ℚ := p.audioPerHour.getD p.inputPer1m

def computeCostOptWithCache (price : Option Price) (promptTokens completionTokens : Nat) (cachedTokens : Option Nat) :
    Option ℚ :=
  match price with
  | none => none
  | some p =>
    match p.kind with
    | .audio => some (p.perHour * (promptTokens / 3600000))
    | .image => some (p.inputPer1m * promptTokens / 1000000)
    | _ =>
      let cached := min (cachedTokens.getD 0) promptTokens
      let nonCached := promptTokens - cached
      let cachedPricePer1m := p.inputPer1m * (1 / 2)
      let inputCost := (p.inputPer1m * nonCached + cachedPricePer1m * cached) / 1000000
      let outputCost := p.outputPer1m * completionTokens / 1000000
      some (inputCost + outputCost)

/-- The request has been answered. -/
def UsageInput.isSuccess (input : UsageInput) : Bool := 200 ≤ input.statusCode && input.statusCode < 400

def compute (price : Option Price) (input : UsageInput) : Option ℚ × Option ℚ :=
  let cost :=
    if input.isSuccess then
      computeCostOptWithCache price (input.promptTokens.getD 0) (input.completionTokens.getD 0) input.cachedTokens
    else some 0
  let tps :=
    match input.completionTokens with
    | some c =>
      if 0 < c ∧ 0 < input.totalMs ∧ input.statusCode < 400 then some ((c : ℚ) * 1000 / input.totalMs) else none
    | none => none
  (cost, tps)

/-- The input from which `record_row` computes the cost. -/
def billable (price : Option Price) (input : UsageInput) : UsageInput :=
  if price.map Price.kind = some .audio then
    { input with promptTokens := some (input.audioMs.getD 0), completionTokens := some 0 }
  else input

/-- The row that `record_row` inserts. -/
def recordRow (price : Option Price) (input : UsageInput) : UsageRow :=
  { input with
    costUsd := (compute price (billable price input)).1
    tokensPerSec := (compute price (billable price input)).2 }

/-! ### Backfilling -/

/-- `column > 0`, which is not true of `NULL`. -/
def positive (column : Option Nat) : Bool := column.any fun n => 0 < n

/-- `cost_usd = 0.0 OR cost_usd IS NULL`. -/
def UsageRow.unpriced (row : UsageRow) : Bool := row.costUsd.all fun cost => cost == 0

/-- `UPDATE usage SET cost_usd = .. WHERE ..`, with the number of the rows that it changes. -/
def updateCost (condition : UsageRow → Bool) (cost : UsageRow → Option ℚ) (rows : List UsageRow) :
    List UsageRow × Nat :=
  (rows.map fun row => if condition row then { row with costUsd := cost row } else row, rows.countP condition)

/-- The part of the `WHERE` that does not depend on the pair. -/
def backfillApplies (price : Option Price) (row : UsageRow) : Bool :=
  match price with
  | some p => positive (if p.kind = .audio then row.audioMs else row.promptTokens) && row.unpriced
  | none => positive row.promptTokens && row.costUsd == some 0

/-- The cost that the update writes. -/
def backfillCost (price : Option Price) (row : UsageRow) : Option ℚ :=
  match price with
  | some p =>
    if p.kind = .audio then row.audioMs.map fun ms => p.perHour * ms / 3600000
    else row.promptTokens.map fun n =>
      p.inputPer1m * n / 1000000 + p.outputPer1m * row.completionTokens.getD 0 / 1000000
  | none => none

/-- The provider and the model of a row. -/
def UsageRow.pair (row : UsageRow) : Text × Text := (row.providerId, row.upstreamModelId)

def updateBackfillPrice (pair : Text × Text) (price : Option Price) (rows : List UsageRow) : List UsageRow × Nat :=
  updateCost (fun row => row.pair == pair && backfillApplies price row) (backfillCost price) rows

/-- `SELECT DISTINCT provider_id, upstream_model_id`; the order does not matter (`backfillUsagePricing_fst`). -/
def unpricedPairs (rows : List UsageRow) : List (Text × Text) :=
  ((rows.filter fun row => (positive row.promptTokens || positive row.audioMs) && row.unpriced).map UsageRow.pair).dedup

def backfillUsagePricing (lookup : Text × Text → Option Price) (rows : List UsageRow) : List UsageRow × Nat :=
  (unpricedPairs rows).foldl (fun state pair =>
    let updated := updateBackfillPrice pair (lookup pair) state.1
    (updated.1, state.2 + updated.2)) (rows, 0)

/-! ### What becomes of one row -/

/-- A row after a backfill at the given price. -/
def backfillRow (price : Option Price) (row : UsageRow) : UsageRow :=
  if backfillApplies price row then { row with costUsd := backfillCost price row } else row

@[simp] theorem backfillRow_pair (price : Option Price) (row : UsageRow) :
    (backfillRow price row).pair = row.pair := by
  unfold backfillRow
  split <;> rfl

/-- One update, seen from a row. -/
private def updateRow (lookup : Text × Text → Option Price) (row : UsageRow) (pair : Text × Text) : UsageRow :=
  if row.pair = pair then backfillRow (lookup pair) row else row

private theorem updateBackfillPrice_fst (lookup : Text × Text → Option Price) (pair : Text × Text)
    (rows : List UsageRow) :
    (updateBackfillPrice pair (lookup pair) rows).1 = rows.map fun row => updateRow lookup row pair := by
  refine List.map_congr_left fun row _ => ?_
  unfold updateRow backfillRow
  by_cases h : row.pair = pair
  · simp [h]
  · simp [h]

private theorem foldl_updateBackfillPrice (lookup : Text × Text → Option Price) (pairs : List (Text × Text))
    (state : List UsageRow × Nat) :
    (pairs.foldl (fun state pair =>
      let updated := updateBackfillPrice pair (lookup pair) state.1
      (updated.1, state.2 + updated.2)) state).1 = state.1.map fun row => pairs.foldl (updateRow lookup) row := by
  induction pairs generalizing state with
  | nil => exact (List.map_id _).symm
  | cons pair pairs ih =>
    rw [List.foldl_cons, ih, updateBackfillPrice_fst, List.map_map]
    rfl

/-- Among distinct pairs the one of the row is met at most once. -/
private theorem foldl_updateRow (lookup : Text × Text → Option Price) {pairs : List (Text × Text)}
    (hpairs : pairs.Nodup) (row : UsageRow) :
    pairs.foldl (updateRow lookup) row = if row.pair ∈ pairs then backfillRow (lookup row.pair) row else row := by
  induction pairs generalizing row with
  | nil => rfl
  | cons pair pairs ih =>
    rw [List.nodup_cons] at hpairs
    rw [List.foldl_cons, ih hpairs.2, updateRow]
    by_cases h : row.pair = pair
    · subst h
      rw [if_pos rfl, backfillRow_pair, if_neg hpairs.1, if_pos List.mem_cons_self]
    · rw [if_neg h]
      simp [h]

/-- A row that an update changes has its pair among those that are looked at. -/
private theorem pair_mem_unpricedPairs {price : Option Price} {rows : List UsageRow} {row : UsageRow}
    (hrow : row ∈ rows) (h : backfillApplies price row = true) : row.pair ∈ unpricedPairs rows := by
  have hselected : ((positive row.promptTokens || positive row.audioMs) && row.unpriced) = true := by
    unfold backfillApplies at h
    split at h
    · rw [Bool.and_eq_true] at h
      rw [h.2, Bool.and_true, Bool.or_eq_true]
      split at h
      · exact Or.inr h.1
      · exact Or.inl h.1
    · rw [Bool.and_eq_true, beq_iff_eq] at h
      rw [h.1, UsageRow.unpriced, h.2]
      rfl
  unfold unpricedPairs
  rw [List.mem_dedup]
  exact List.mem_map_of_mem (List.mem_filter.mpr ⟨hrow, hselected⟩)

/-- The backfill treats every row by itself. -/
theorem backfillUsagePricing_fst (lookup : Text × Text → Option Price) (rows : List UsageRow) :
    (backfillUsagePricing lookup rows).1 = rows.map fun row => backfillRow (lookup row.pair) row := by
  unfold backfillUsagePricing
  rw [foldl_updateBackfillPrice]
  refine List.map_congr_left fun row hrow => ?_
  have hnodup : (unpricedPairs rows).Nodup := List.nodup_dedup _
  rw [foldl_updateRow lookup hnodup]
  by_cases h : row.pair ∈ unpricedPairs rows
  · rw [if_pos h]
  · rw [if_neg h, backfillRow, if_neg fun happlies => h (pair_mem_unpricedPairs hrow happlies)]

/-! ### The two properties -/

/-- A row that was recorded without a price has, after a backfill at the price `p`, the cost that would have been
recorded at this price. -/
def RecoversCost (input : UsageInput) (p : Price) : Prop :=
  ∀ (lookup : Text × Text → Option Price) (before after : List UsageRow),
    lookup (input.providerId, input.upstreamModelId) = some p →
      ((backfillUsagePricing lookup (before ++ recordRow none input :: after)).1[before.length]?).map UsageRow.costUsd =
        some (recordRow (some p) input).costUsd

/-- A row whose cost is the one that is computed at the present price keeps it. -/
def KeepsCost (input : UsageInput) (price : Option Price) : Prop :=
  ∀ (lookup : Text × Text → Option Price) (before after : List UsageRow) (row : UsageRow),
    lookup (input.providerId, input.upstreamModelId) = price → row.toUsageInput = input →
      row.costUsd = (recordRow price input).costUsd →
        ((backfillUsagePricing lookup (before ++ row :: after)).1[before.length]?).map UsageRow.costUsd =
          some row.costUsd

private theorem getElem?_backfillUsagePricing (lookup : Text × Text → Option Price) (before after : List UsageRow)
    (row : UsageRow) :
    ((backfillUsagePricing lookup (before ++ row :: after)).1[before.length]?).map UsageRow.costUsd =
      some (backfillRow (lookup row.pair) row).costUsd := by
  rw [backfillUsagePricing_fst, List.getElem?_map, List.getElem?_append_right (Nat.le_refl _), Nat.sub_self]
  rfl

/-- The update looks at the columns of the input and at the cost. -/
private theorem costUsd_backfillRow_congr (price : Option Price) {row : UsageRow} {input : UsageInput}
    (hinput : row.toUsageInput = input) (hcost : row.costUsd = (recordRow price input).costUsd) :
    (backfillRow price row).costUsd = (backfillRow price (recordRow price input)).costUsd := by
  obtain ⟨input', cost, tps⟩ := row
  obtain rfl := hinput
  dsimp only at hcost
  subst hcost
  have hset : ∀ (condition : Bool) (cost : Option ℚ) (row row' : UsageRow), row.costUsd = row'.costUsd →
      (if condition then { row with costUsd := cost } else row).costUsd =
        (if condition then { row' with costUsd := cost } else row').costUsd := by
    intro condition cost row row' h
    cases condition
    · exact h
    · rfl
  cases price with
  | none => exact hset _ _ _ _ rfl
  | some p => exact hset _ _ _ _ rfl

private theorem recoversCost_iff_row (input : UsageInput) (p : Price) :
    RecoversCost input p ↔
      (backfillRow (some p) (recordRow none input)).costUsd = (recordRow (some p) input).costUsd := by
  constructor
  · intro h
    have hrow := h (fun _ => some p) [] [] rfl
    rw [getElem?_backfillUsagePricing, Option.some.injEq] at hrow
    exact hrow
  · intro h lookup before after hlookup
    rw [getElem?_backfillUsagePricing]
    change some (backfillRow (lookup (input.providerId, input.upstreamModelId)) _).costUsd = _
    rw [hlookup, h]

private theorem keepsCost_iff_row (input : UsageInput) (price : Option Price) :
    KeepsCost input price ↔
      (backfillRow price (recordRow price input)).costUsd = (recordRow price input).costUsd := by
  constructor
  · intro h
    have hrow := h (fun _ => price) [] [] (recordRow price input) rfl rfl rfl
    rw [getElem?_backfillUsagePricing, Option.some.injEq] at hrow
    exact hrow
  · rintro h lookup before after row hlookup rfl hcost
    rw [getElem?_backfillUsagePricing]
    change some (backfillRow (lookup (row.providerId, row.upstreamModelId)) row).costUsd = _
    rw [hlookup, Option.some.injEq, costUsd_backfillRow_congr price rfl hcost, h, hcost]

/-! ### The exact conditions -/

/-- The tokens that are billed at the cached rate. -/
def UsageInput.cachedPart (input : UsageInput) : Nat := min (input.cachedTokens.getD 0) (input.promptTokens.getD 0)

/-- The zero charge of a failed request stays: nothing is billed, or the formula of the update gives zero. -/
def KeepsZero (input : UsageInput) (p : Price) : Prop :=
  if p.kind = .audio then positive input.audioMs = false ∨ p.perHour = 0
  else positive input.promptTokens = false ∨
    p.inputPer1m * input.promptTokens.getD 0 + p.outputPer1m * input.completionTokens.getD 0 = 0

/-- A successful request is billed for something, and no part of the cost is in one of the formulas only. -/
def Recoverable (input : UsageInput) (p : Price) : Prop :=
  if input.isSuccess then
    match p.kind with
    | .audio => positive input.audioMs = true
    | .image => positive input.promptTokens = true ∧ p.outputPer1m * input.completionTokens.getD 0 = 0
    | _ => positive input.promptTokens = true ∧ p.inputPer1m * input.cachedPart = 0
  else KeepsZero input p

/-- A cost other than zero is left alone; where the cost is zero, no part of it is in one of the formulas only. -/
def Stable (input : UsageInput) (price : Option Price) : Prop :=
  match price with
  | none => input.isSuccess = true ∨ positive input.promptTokens = false
  | some p =>
    if input.isSuccess then
      match p.kind with
      | .audio => True
      | .image => positive input.promptTokens = false ∨ (recordRow (some p) input).costUsd ≠ some 0 ∨
          p.outputPer1m * input.completionTokens.getD 0 = 0
      | _ => positive input.promptTokens = false ∨ (recordRow (some p) input).costUsd ≠ some 0 ∨
          p.inputPer1m * input.cachedPart = 0
    else KeepsZero input p

section Costs

variable {input : UsageInput} {p : Price}

private theorem recordRow_of_failed (price : Option Price) (h : input.isSuccess = false) :
    (recordRow price input).costUsd = some 0 := by
  have hbillable : (billable price input).isSuccess = input.isSuccess := by
    unfold billable
    split <;> rfl
  simp only [recordRow, compute, hbillable, h, Bool.false_eq_true, if_false]

private theorem recordRow_of_none (h : input.isSuccess = true) : (recordRow none input).costUsd = none := by
  simp [recordRow, compute, billable, h, computeCostOptWithCache]

private theorem recordRow_of_audio (h : input.isSuccess = true) (hkind : p.kind = .audio) :
    (recordRow (some p) input).costUsd = some (p.perHour * (input.audioMs.getD 0 / 3600000)) := by
  have hsuccess : (billable (some p) input).isSuccess = true := by
    unfold billable
    split <;> exact h
  have hprompt : (billable (some p) input).promptTokens = some (input.audioMs.getD 0) := by
    rw [billable, if_pos (by rw [Option.map_some, hkind])]
  simp only [recordRow, compute, hsuccess, hprompt, if_true, computeCostOptWithCache, hkind, Option.getD_some]

private theorem billable_of_kind (hkind : p.kind ≠ .audio) : billable (some p) input = input := by
  rw [billable, if_neg]
  simpa using hkind

private theorem recordRow_of_image (h : input.isSuccess = true) (hkind : p.kind = .image) :
    (recordRow (some p) input).costUsd = some (p.inputPer1m * input.promptTokens.getD 0 / 1000000) := by
  have hbillable : billable (some p) input = input := billable_of_kind (by rw [hkind]; decide)
  simp only [recordRow, hbillable, compute, h, if_true, computeCostOptWithCache, hkind]

/-- The cost of tokens: what the update computes, less half of the rate for the cached ones. -/
private theorem recordRow_of_tokens (h : input.isSuccess = true) (haudio : p.kind ≠ .audio) (himage : p.kind ≠ .image) :
    (recordRow (some p) input).costUsd =
      some (p.inputPer1m * input.promptTokens.getD 0 / 1000000 +
        p.outputPer1m * input.completionTokens.getD 0 / 1000000 - p.inputPer1m * input.cachedPart / 2000000) := by
  have hcached : ((input.promptTokens.getD 0 - input.cachedPart : Nat) : ℚ) =
      input.promptTokens.getD 0 - input.cachedPart := by
    rw [Nat.cast_sub]
    exact Nat.min_le_right _ _
  have hcost : computeCostOptWithCache (some p) (input.promptTokens.getD 0) (input.completionTokens.getD 0)
      input.cachedTokens =
      some ((p.inputPer1m * (input.promptTokens.getD 0 - input.cachedPart : Nat) +
        p.inputPer1m * (1 / 2) * input.cachedPart) / 1000000 +
          p.outputPer1m * input.completionTokens.getD 0 / 1000000) := by
    unfold computeCostOptWithCache
    cases hkind : p.kind with
    | audio => exact absurd hkind haudio
    | image => exact absurd hkind himage
    | chat => simp only [hkind, UsageInput.cachedPart]
    | video => simp only [hkind, UsageInput.cachedPart]
    | other => simp only [hkind, UsageInput.cachedPart]
  simp only [recordRow, billable_of_kind haudio, compute, h, if_true, hcost, hcached, Option.some.injEq]
  ring

private theorem unpriced_iff {row : UsageRow} : row.unpriced = true ↔ row.costUsd = none ∨ row.costUsd = some 0 := by
  unfold UsageRow.unpriced
  cases row.costUsd with
  | none => simp
  | some cost => simp

private theorem backfillRow_costUsd (price : Option Price) (row : UsageRow) :
    (backfillRow price row).costUsd = if backfillApplies price row then backfillCost price row else row.costUsd := by
  unfold backfillRow
  split <;> rfl

private theorem backfillRow_of_audio {row : UsageRow} (hkind : p.kind = .audio) :
    (backfillRow (some p) row).costUsd =
      if positive row.audioMs = true ∧ row.unpriced = true then some (p.perHour * row.audioMs.getD 0 / 3600000)
      else row.costUsd := by
  rw [backfillRow_costUsd]
  simp only [backfillApplies, backfillCost, hkind, if_true, Bool.and_eq_true]
  cases row.audioMs with
  | none => simp [positive]
  | some ms => rfl

private theorem backfillRow_of_tokens {row : UsageRow} (hkind : p.kind ≠ .audio) :
    (backfillRow (some p) row).costUsd =
      if positive row.promptTokens = true ∧ row.unpriced = true then
        some (p.inputPer1m * row.promptTokens.getD 0 / 1000000 +
          p.outputPer1m * row.completionTokens.getD 0 / 1000000)
      else row.costUsd := by
  rw [backfillRow_costUsd]
  simp only [backfillApplies, backfillCost, hkind, if_false, Bool.and_eq_true]
  cases row.promptTokens with
  | none => simp [positive]
  | some n => rfl

private theorem getD_ne_zero {column : Option Nat} (h : positive column = true) : ((column.getD 0 : Nat) : ℚ) ≠ 0 := by
  cases column with
  | none => cases h
  | some n =>
    have hpos : 0 < n := by simpa [positive] using h
    simpa using hpos.ne'

private theorem not_positive_iff {column : Option Nat} : positive column = false ↔ ¬ positive column = true := by
  rw [Bool.not_eq_true]

/-- A failed request, whatever the price was when it was recorded. -/
private theorem keepsZero_iff (hfailed : input.isSuccess = false) (price : Option Price) (p : Price) :
    (backfillRow (some p) (recordRow price input)).costUsd = some 0 ↔ KeepsZero input p := by
  have hcost := recordRow_of_failed price hfailed
  have hunpriced : (recordRow price input).unpriced = true := unpriced_iff.mpr (Or.inr hcost)
  unfold KeepsZero
  by_cases hkind : p.kind = .audio
  · rw [backfillRow_of_audio hkind, if_pos hkind, hunpriced, hcost]
    change (if positive input.audioMs = true ∧ true = true then some (p.perHour * input.audioMs.getD 0 / 3600000)
      else some 0) = some 0 ↔ _
    by_cases hpos : positive input.audioMs = true
    · have hne := getD_ne_zero hpos
      rw [if_pos ⟨hpos, rfl⟩, not_positive_iff, Option.some.injEq, div_eq_zero_iff, mul_eq_zero]
      constructor
      · rintro ((h | h) | h)
        · exact Or.inr h
        · exact absurd h hne
        · norm_num at h
      · rintro (h | h)
        · exact absurd hpos h
        · exact Or.inl (Or.inl h)
    · rw [if_neg fun h => hpos h.1]
      exact ⟨fun _ => Or.inl (not_positive_iff.mpr hpos), fun _ => rfl⟩
  · rw [backfillRow_of_tokens hkind, if_neg hkind, hunpriced, hcost]
    change (if positive input.promptTokens = true ∧ true = true then
      some (p.inputPer1m * input.promptTokens.getD 0 / 1000000 +
        p.outputPer1m * input.completionTokens.getD 0 / 1000000) else some 0) = some 0 ↔ _
    by_cases hpos : positive input.promptTokens = true
    · rw [if_pos ⟨hpos, rfl⟩, not_positive_iff, Option.some.injEq]
      constructor
      · intro h
        right
        linarith
      · rintro (h | h)
        · exact absurd hpos h
        · linarith
    · rw [if_neg fun h => hpos h.1]
      exact ⟨fun _ => Or.inl (not_positive_iff.mpr hpos), fun _ => rfl⟩

/-- The cost of tokens differs from what the update computes by the discount on the cached ones. -/
private theorem tokens_eq_iff (x : ℚ) :
    some x = (some (x - p.inputPer1m * input.cachedPart / 2000000) : Option ℚ) ↔
      p.inputPer1m * input.cachedPart = 0 := by
  rw [Option.some.injEq]
  constructor
  · intro h
    linarith
  · intro h
    rw [h]
    ring

private theorem image_eq_iff (x y : ℚ) : some (x + y / 1000000) = (some x : Option ℚ) ↔ y = 0 := by
  rw [Option.some.injEq]
  constructor
  · intro h
    linarith
  · intro h
    rw [h]
    ring

private theorem recoversCost_iff (input : UsageInput) (p : Price) : RecoversCost input p ↔ Recoverable input p := by
  rw [recoversCost_iff_row, Recoverable]
  by_cases hsuccess : input.isSuccess = true
  · have hcost := recordRow_of_none hsuccess
    have hunpriced : (recordRow none input).unpriced = true := unpriced_iff.mpr (Or.inl hcost)
    rw [if_pos hsuccess]
    by_cases haudio : p.kind = .audio
    · rw [backfillRow_of_audio haudio, recordRow_of_audio hsuccess haudio, hunpriced, hcost]
      change (if positive input.audioMs = true ∧ true = true then some (p.perHour * input.audioMs.getD 0 / 3600000)
        else none) = _ ↔ _
      simp only [haudio]
      by_cases hpos : positive input.audioMs = true
      · rw [if_pos ⟨hpos, trivial⟩, mul_div_assoc]
        exact ⟨fun _ => hpos, fun _ => rfl⟩
      · rw [if_neg fun h => hpos h.1]
        exact ⟨fun h => absurd h.symm (Option.some_ne_none _), fun h => absurd h hpos⟩
    · rw [backfillRow_of_tokens haudio, hunpriced, hcost]
      change (if positive input.promptTokens = true ∧ true = true then
        some (p.inputPer1m * input.promptTokens.getD 0 / 1000000 +
          p.outputPer1m * input.completionTokens.getD 0 / 1000000) else none) = _ ↔ _
      by_cases hpos : positive input.promptTokens = true
      · rw [if_pos ⟨hpos, rfl⟩]
        by_cases himage : p.kind = .image
        · rw [recordRow_of_image hsuccess himage, image_eq_iff]
          simp only [himage, hpos, true_and]
        · rw [recordRow_of_tokens hsuccess haudio himage, tokens_eq_iff]
          cases hkind : p.kind with
          | audio => exact absurd hkind haudio
          | image => exact absurd hkind himage
          | _ => simp only [hpos, true_and]
      · rw [if_neg fun h => hpos h.1]
        have hright : (recordRow (some p) input).costUsd ≠ none := by
          by_cases himage : p.kind = .image
          · rw [recordRow_of_image hsuccess himage]
            exact Option.some_ne_none _
          · rw [recordRow_of_tokens hsuccess haudio himage]
            exact Option.some_ne_none _
        cases hkind : p.kind with
        | audio => exact absurd hkind haudio
        | _ => exact ⟨fun h => absurd h.symm hright, fun h => absurd h.1 hpos⟩
  · rw [if_neg hsuccess]
    rw [Bool.not_eq_true] at hsuccess
    rw [recordRow_of_failed (some p) hsuccess]
    exact keepsZero_iff hsuccess none p

private theorem keepsCost_iff (input : UsageInput) (price : Option Price) :
    KeepsCost input price ↔ Stable input price := by
  rw [keepsCost_iff_row]
  unfold Stable
  cases price with
  | none =>
    dsimp only
    rw [backfillRow_costUsd]
    by_cases hsuccess : input.isSuccess = true
    · have hcost := recordRow_of_none hsuccess
      have happlies : backfillApplies none (recordRow none input) = false := by
        rw [backfillApplies, hcost]
        exact Bool.and_false _
      rw [happlies]
      exact ⟨fun _ => Or.inl hsuccess, fun _ => rfl⟩
    · have hcost := recordRow_of_failed none (Bool.not_eq_true _ ▸ hsuccess)
      have happlies : backfillApplies none (recordRow none input) = positive input.promptTokens := by
        rw [backfillApplies, hcost]
        exact Bool.and_true _
      rw [happlies, hcost]
      cases positive input.promptTokens with
      | true => simpa [backfillCost] using hsuccess
      | false => simp
  | some p =>
    dsimp only
    by_cases hsuccess : input.isSuccess = true
    · rw [if_pos hsuccess]
      by_cases haudio : p.kind = .audio
      · rw [backfillRow_of_audio haudio, recordRow_of_audio hsuccess haudio]
        simp only [haudio, iff_true]
        split
        · rw [mul_div_assoc]
          rfl
        · rfl
      · rw [backfillRow_of_tokens haudio]
        have hunpriced : (recordRow (some p) input).unpriced = true ↔ (recordRow (some p) input).costUsd = some 0 := by
          rw [unpriced_iff]
          refine or_iff_right ?_
          by_cases himage : p.kind = .image
          · rw [recordRow_of_image hsuccess himage]
            exact Option.some_ne_none _
          · rw [recordRow_of_tokens hsuccess haudio himage]
            exact Option.some_ne_none _
        change (if positive input.promptTokens = true ∧ (recordRow (some p) input).unpriced = true then
          some (p.inputPer1m * input.promptTokens.getD 0 / 1000000 +
            p.outputPer1m * input.completionTokens.getD 0 / 1000000)
          else (recordRow (some p) input).costUsd) = (recordRow (some p) input).costUsd ↔ _
        by_cases happlies : positive input.promptTokens = true ∧ (recordRow (some p) input).unpriced = true
        · rw [if_pos happlies]
          have hzero := hunpriced.mp happlies.2
          by_cases himage : p.kind = .image
          · have hiff : some (p.inputPer1m * input.promptTokens.getD 0 / 1000000 +
                p.outputPer1m * input.completionTokens.getD 0 / 1000000) = (recordRow (some p) input).costUsd ↔
                p.outputPer1m * input.completionTokens.getD 0 = 0 := by
              rw [recordRow_of_image hsuccess himage, image_eq_iff]
            rw [hiff]
            simp only [himage, happlies.1, hzero, not_true, ne_eq, false_or, reduceCtorEq]
          · have hiff : some (p.inputPer1m * input.promptTokens.getD 0 / 1000000 +
                p.outputPer1m * input.completionTokens.getD 0 / 1000000) = (recordRow (some p) input).costUsd ↔
                p.inputPer1m * input.cachedPart = 0 := by
              rw [recordRow_of_tokens hsuccess haudio himage, tokens_eq_iff]
            rw [hiff]
            cases hkind : p.kind with
            | audio => exact absurd hkind haudio
            | image => exact absurd hkind himage
            | _ => simp only [happlies.1, hzero, not_true, ne_eq, false_or, reduceCtorEq]
        · rw [if_neg happlies]
          have hleft : positive input.promptTokens = false ∨ (recordRow (some p) input).costUsd ≠ some 0 := by
            rw [not_and_or] at happlies
            exact happlies.imp not_positive_iff.mpr fun hpriced hzero => hpriced (hunpriced.mpr hzero)
          cases hkind : p.kind with
          | audio => exact absurd hkind haudio
          | _ => exact ⟨fun _ => or_assoc.mp (Or.inl hleft), fun _ => rfl⟩
    · rw [if_neg hsuccess]
      rw [Bool.not_eq_true] at hsuccess
      rw [recordRow_of_failed (some p) hsuccess]
      exact keepsZero_iff hsuccess (some p) p

end Costs

/-- When a later backfill gives a row the cost that would have been recorded, and when it leaves a cost alone that is
the right one already. -/
theorem backfill_iff (input : UsageInput) (p : Price) (price : Option Price) :
    (RecoversCost input p ↔ Recoverable input p) ∧ (KeepsCost input price ↔ Stable input price) :=
  ⟨recoversCost_iff input p, keepsCost_iff input price⟩

/-- A thousand prompt tokens of which half were cached, at one dollar per million. -/
def cachedInput : UsageInput where
  providerId := "openai".toList
  upstreamModelId := "gpt-4o".toList
  promptTokens := some 1000
  completionTokens := some 0
  cachedTokens := some 500
  audioMs := none
  statusCode := 200
  totalMs := 1

/-- The backfill charges the full rate for the cached tokens. -/
theorem not_recoversCost_cached :
    ¬ ∀ (input : UsageInput) (p : Price) (price : Option Price), RecoversCost input p ∧ KeepsCost input price := by
  intro h
  have hrow := (recoversCost_iff_row cachedInput ⟨1, 0, .chat, none⟩).mp (h cachedInput ⟨1, 0, .chat, none⟩ none).1
  exact absurd hrow (by decide +kernel)

end OpenProxy.Usage
