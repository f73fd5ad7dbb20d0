import OpenProxy.Data.Float64
import OpenProxy.Data.Json

/-!
# Quota pools

An account has several pools of quota, each of one source, and a request is paid for by one of them.
`zaiRemainingFraction` tries the sources in a fixed order and answers for the first pool of a source that may serve the
model.  The answer is the best one, and independent of the order of the pools, exactly when the pools of the deciding
source that may serve the model have the same fraction left (`verdict_iff`).

`parse_timestamp` reads dates by means of `chrono`; here it is the parameter `parseTimestamp`, which returns the seconds
of the date.
-/

namespace OpenProxy.Quota

inductive QuotaSource
  | autoclawStarter
  | zcodeStarter
  | codingPlan
  deriving DecidableEq

inductive QuotaPoolStatus
  | active
  | absent
  | exhausted
  | expired
  | unavailable
  deriving DecidableEq

structure QuotaPool where
  source : QuotaSource
  status : QuotaPoolStatus
  used : Option Int
  limit : Option Int
  remaining : Option Int
  expiresAt : Option Text
  startsAt : Option Text
  modelIds : List Text
  fetchError : Option Text
  deriving DecidableEq

/-! ### Reading a time -/

/-- The value of a non-empty sequence of digits. -/
def parseDigits (s : Text) : Option Nat := if !s.isEmpty && s.all Char.isDigit then some (digitsValue s) else none

/-- `parse::<u64>`. -/
def parseU64 (s : Text) : Option Nat :=
  (parseDigits (if s.head? = some '+' then s.tail else s)).filter fun n => n < 2 ^ 64

/-- `parse::<i64>`. -/
def parseI64 (s : Text) : Option Int :=
  if s.head? = some '-' then ((parseDigits s.tail).filter fun n => n ≤ 2 ^ 63).map fun n => -(n : Int)
  else ((parseDigits (if s.head? = some '+' then s.tail else s)).filter fun n => n < 2 ^ 63).map fun n => (n : Int)

/-- `u64::try_from`. -/
def toU64 (secs : Int) : Option Nat := if 0 ≤ secs then some secs.toNat else none

namespace QuotaPool

def matchesModel (pool : QuotaPool) (model : Text) : Bool :=
  if (trim model).isEmpty then false
  else if pool.modelIds.isEmpty then pool.source == .codingPlan
  else pool.modelIds.any fun id => eqIgnoreAsciiCase id (trim model)

def hasKnownExhaustion (pool : QuotaPool) : Bool :=
  (match pool.limit, pool.used with
    | some limit, some used => decide (limit > 0 ∧ used ≥ limit)
    | _, _ => false) ||
  pool.remaining.any fun r => r ≤ 0

def claimsPositiveBudget (pool : QuotaPool) : Bool :=
  if pool.remaining.any fun r => r > 0 then true
  else if (pool.limit.any fun l => l > 0) && pool.used.isSome then true
  else pool.source == .codingPlan

section Times

variable (parseTimestamp : Text → Option Int)

def parseEpoch (raw : Text) : Option Nat :=
  let trimmed := trim raw
  if trimmed.isEmpty then none
  else
    match parseU64 trimmed with
    | some secs => some secs
    | none =>
      match parseI64 trimmed with
      | some secs => toU64 secs
      | none => (parseTimestamp trimmed).bind toU64

def withinValidityWindow (pool : QuotaPool) (nowSecs : Nat) : Bool :=
  (match pool.startsAt with
    | none => true
    | some starts =>
      match parseEpoch parseTimestamp starts with
      | some s => !decide (s > nowSecs)
      | none => false) &&
  match pool.expiresAt with
    | none => true
    | some expires =>
      match parseEpoch parseTimestamp expires with
      | some e => !decide (e ≤ nowSecs)
      | none => false

def isKnownIneligibleForModel (pool : QuotaPool) (nowSecs : Nat) (model : Text) : Bool :=
  if pool.status = .absent ∨ pool.status = .exhausted ∨ pool.status = .expired then true
  else if pool.fetchError.isSome ∨ pool.status = .unavailable then false
  else if pool.source ≠ .codingPlan ∧ pool.modelIds.isEmpty then false
  else if !pool.matchesModel model then true
  else
    match pool.startsAt.map (parseEpoch parseTimestamp), pool.expiresAt.map (parseEpoch parseTimestamp) with
    | some none, _ => false
    | _, some none => false
    | starts, expires =>
      (starts.join.any fun v => decide (v > nowSecs)) || (expires.join.any fun v => decide (v ≤ nowSecs)) ||
        pool.hasKnownExhaustion

def isUsableForModel (pool : QuotaPool) (nowSecs : Nat) (model : Text) : Bool :=
  if !pool.matchesModel model then false
  else if pool.status ≠ .active ∨ pool.fetchError.isSome then false
  else if !pool.withinValidityWindow parseTimestamp nowSecs then false
  else if pool.remaining.any fun r => r ≤ 0 then false
  else if !pool.claimsPositiveBudget then false
  else !pool.hasKnownExhaustion

def reportsExhaustionForModel (pool : QuotaPool) (nowSecs : Nat) (model : Text) : Bool :=
  if !pool.matchesModel model ∨ pool.fetchError.isSome then false
  else
    match pool.status with
    | .absent | .exhausted | .expired => true
    | .active => pool.withinValidityWindow parseTimestamp nowSecs && pool.hasKnownExhaustion
    | .unavailable => false

end Times

/-- `saturating_sub` of `i64`. -/
def saturatingSub (a b : Int) : Int := max (-2 ^ 63) (min (a - b) (2 ^ 63 - 1))

def usableFraction (pool : QuotaPool) : ℚ :=
  match pool.limit.filter fun limit => limit > 0 with
  | none => 1
  | some limit =>
    let remaining :=
      match pool.remaining with
      | some r => r
      | none =>
        match pool.used with
        | some used => max (saturatingSub limit used) 0
        | none => limit
    max 0 (min (toF64 (toF64 (max 0 (min remaining limit) : Int) / toF64 (limit : Int))) 1)

/-- The source could not be read. -/
def isUnreadable (pool : QuotaPool) : Bool := pool.fetchError.isSome || pool.status == .unavailable

end QuotaPool

/-! ### The verdict -/

section Verdict

variable (parseTimestamp : Text → Option Int) (model : Text) (nowSecs : Nat)

open QuotaPool

/-- The pool of the given source may serve the model. -/
def serves (source : QuotaSource) (pool : QuotaPool) : Bool :=
  pool.source == source && pool.isUsableForModel parseTimestamp nowSecs model

/-- The pool is one of the two that are free. -/
def isStarter (pool : QuotaPool) : Bool := pool.source == .autoclawStarter || pool.source == .zcodeStarter

/-- The paid source is not asked: no starter pool is there, or one of them may yet serve the model. -/
def planWithheld (pools : List QuotaPool) : Bool :=
  (!(pools.any fun p => p.source == .autoclawStarter) && !(pools.any fun p => p.source == .zcodeStarter)) ||
    pools.any fun p => isStarter p && !p.isKnownIneligibleForModel parseTimestamp nowSecs model

/-- The last part of `zai_remaining_fraction`, for an account without a pool that may serve the model. -/
def exhaustedFraction (pools : List QuotaPool) : Option ℚ :=
  if pools.any fun p =>
      (p.matchesModel model || (p.source != .codingPlan && p.modelIds.isEmpty)) && p.isUnreadable then none
  else if [QuotaSource.autoclawStarter, .zcodeStarter, .codingPlan].any fun source =>
      pools.any fun p => p.source == source && p.reportsExhaustionForModel parseTimestamp nowSecs model then some 0
  else none

def zaiRemainingFraction (pools : List QuotaPool) : Option ℚ :=
  match pools.find? (serves parseTimestamp model nowSecs .autoclawStarter) with
  | some pool => some (usableFraction pool)
  | none =>
    match pools.find? (serves parseTimestamp model nowSecs .zcodeStarter) with
    | some pool => some (usableFraction pool)
    | none =>
      if planWithheld parseTimestamp model nowSecs pools then none
      else
        match pools.find? (serves parseTimestamp model nowSecs .codingPlan) with
        | some pool => some (usableFraction pool)
        | none => exhaustedFraction parseTimestamp model nowSecs pools

/-- The sources that are tried before a source. -/
def triedBefore : QuotaSource → List QuotaSource
  | .autoclawStarter => []
  | .zcodeStarter => [.autoclawStarter]
  | .codingPlan => [.autoclawStarter, .zcodeStarter]

/-- The first source with a pool that may serve the model. -/
def Deciding (pools : List QuotaPool) (source : QuotaSource) : Prop :=
  (∃ p ∈ pools, serves parseTimestamp model nowSecs source p = true) ∧
    ∀ earlier ∈ triedBefore source, ∀ p ∈ pools, serves parseTimestamp model nowSecs earlier p = false

/-- The verdict does not depend on the order of the pools, it is the best one, and zero is a known negative. -/
structure Verdict (pools : List QuotaPool) : Prop where
  order : ∀ pools' : List QuotaPool, pools'.Perm pools →
    zaiRemainingFraction parseTimestamp model nowSecs pools' = zaiRemainingFraction parseTimestamp model nowSecs pools
  best : ∀ (f : ℚ) (source : QuotaSource), zaiRemainingFraction parseTimestamp model nowSecs pools = some f →
    Deciding parseTimestamp model nowSecs pools source →
      IsGreatest {g | ∃ p ∈ pools, serves parseTimestamp model nowSecs source p = true ∧ p.usableFraction = g} f
  zero : zaiRemainingFraction parseTimestamp model nowSecs pools = some 0 → ∀ p ∈ pools,
    p.isUsableForModel parseTimestamp nowSecs model = false ∧ (p.matchesModel model = true → p.isUnreadable = false)

/-- The pools of the deciding source that may serve the model have the same fraction left. -/
def Uniform (pools : List QuotaPool) : Prop :=
  ∀ source, Deciding parseTimestamp model nowSecs pools source →
    (source = .codingPlan → planWithheld parseTimestamp model nowSecs pools = false) →
      ∀ p ∈ pools, ∀ q ∈ pools, serves parseTimestamp model nowSecs source p = true →
        serves parseTimestamp model nowSecs source q = true → p.usableFraction = q.usableFraction

variable {parseTimestamp model nowSecs} {pools : List QuotaPool} {source : QuotaSource}

/-! ### What decides -/

private theorem find?_of_deciding (h : Deciding parseTimestamp model nowSecs pools source) :
    ∃ p, pools.find? (serves parseTimestamp model nowSecs source) = some p := by
  obtain ⟨p, hp, hserves⟩ := h.1
  rw [← Option.isSome_iff_exists, List.find?_isSome]
  exact ⟨p, hp, hserves⟩

private theorem find?_of_triedBefore (h : Deciding parseTimestamp model nowSecs pools source) (earlier : QuotaSource)
    (hearlier : earlier ∈ triedBefore source) : pools.find? (serves parseTimestamp model nowSecs earlier) = none := by
  rw [List.find?_eq_none]
  intro p hp
  rw [h.2 earlier hearlier p hp]
  exact Bool.false_ne_true

/-- The first pool of the deciding source gives the verdict. -/
theorem zaiRemainingFraction_of_deciding (h : Deciding parseTimestamp model nowSecs pools source)
    (hplan : source = .codingPlan → planWithheld parseTimestamp model nowSecs pools = false) :
    zaiRemainingFraction parseTimestamp model nowSecs pools =
      (pools.find? (serves parseTimestamp model nowSecs source)).map usableFraction := by
  obtain ⟨p, hp⟩ := find?_of_deciding h
  rw [hp, Option.map_some, zaiRemainingFraction]
  cases source with
  | autoclawStarter => rw [hp]
  | zcodeStarter => rw [find?_of_triedBefore h .autoclawStarter (by decide), hp]
  | codingPlan =>
    rw [find?_of_triedBefore h .autoclawStarter (by decide),
      find?_of_triedBefore h .zcodeStarter (by decide), hplan rfl, hp]
    rfl

/-- Where the paid source would decide but is withheld, there is no verdict. -/
theorem zaiRemainingFraction_of_withheld (h : Deciding parseTimestamp model nowSecs pools .codingPlan)
    (hplan : planWithheld parseTimestamp model nowSecs pools = true) :
    zaiRemainingFraction parseTimestamp model nowSecs pools = none := by
  rw [zaiRemainingFraction, find?_of_triedBefore h .autoclawStarter (by decide),
    find?_of_triedBefore h .zcodeStarter (by decide), hplan]
  rfl

/-- Where no pool may serve the model, the verdict is that of the exhausted pools. -/
theorem zaiRemainingFraction_of_none
    (h : ∀ source, ∀ p ∈ pools, serves parseTimestamp model nowSecs source p = false) :
    zaiRemainingFraction parseTimestamp model nowSecs pools =
      if planWithheld parseTimestamp model nowSecs pools then none
      else exhaustedFraction parseTimestamp model nowSecs pools := by
  have hfind : ∀ source, pools.find? (serves parseTimestamp model nowSecs source) = none := by
    intro source
    rw [List.find?_eq_none]
    intro p hp
    rw [h source p hp]
    exact Bool.false_ne_true
  simp only [zaiRemainingFraction, hfind]

private theorem deciding_or_none (parseTimestamp : Text → Option Int) (model : Text) (nowSecs : Nat)
    (pools : List QuotaPool) :
    (∃ source, Deciding parseTimestamp model nowSecs pools source) ∨
      ∀ source, ∀ p ∈ pools, serves parseTimestamp model nowSecs source p = false := by
  have hcases : ∀ source, (∃ p ∈ pools, serves parseTimestamp model nowSecs source p = true) ∨
      ∀ p ∈ pools, serves parseTimestamp model nowSecs source p = false := by
    intro source
    by_cases h : ∃ p ∈ pools, serves parseTimestamp model nowSecs source p = true
    · exact Or.inl h
    · right
      intro p hp
      rw [← Bool.not_eq_true]
      exact fun hserves => h ⟨p, hp, hserves⟩
  rcases hcases .autoclawStarter with h1 | h1
  · exact Or.inl ⟨.autoclawStarter, h1, by simp [triedBefore]⟩
  · rcases hcases .zcodeStarter with h2 | h2
    · exact Or.inl ⟨.zcodeStarter, h2, by simpa [triedBefore] using h1⟩
    · rcases hcases .codingPlan with h3 | h3
      · exact Or.inl ⟨.codingPlan, h3, by simpa [triedBefore] using ⟨h1, h2⟩⟩
      · right
        intro source
        cases source with
        | autoclawStarter => exact h1
        | zcodeStarter => exact h2
        | codingPlan => exact h3

/-! ### The order of the pools -/

private theorem any_perm {pools' : List QuotaPool} (hperm : pools'.Perm pools) (p : QuotaPool → Bool) :
    pools'.any p = pools.any p := by
  rw [Bool.eq_iff_iff, List.any_eq_true, List.any_eq_true]
  exact exists_congr fun x => and_congr_left fun _ => hperm.mem_iff

private theorem planWithheld_perm {pools' : List QuotaPool} (hperm : pools'.Perm pools) :
    planWithheld parseTimestamp model nowSecs pools' = planWithheld parseTimestamp model nowSecs pools := by
  simp only [planWithheld, any_perm hperm]

private theorem exhaustedFraction_perm {pools' : List QuotaPool} (hperm : pools'.Perm pools) :
    exhaustedFraction parseTimestamp model nowSecs pools' = exhaustedFraction parseTimestamp model nowSecs pools := by
  simp only [exhaustedFraction, any_perm hperm]

private theorem Deciding.perm {pools' : List QuotaPool} (hperm : pools'.Perm pools)
    (h : Deciding parseTimestamp model nowSecs pools source) :
    Deciding parseTimestamp model nowSecs pools' source := by
  obtain ⟨⟨p, hp, hserves⟩, hearlier⟩ := h
  refine ⟨⟨p, hperm.mem_iff.mpr hp, hserves⟩, ?_⟩
  intro earlier hmem q hq
  exact hearlier earlier hmem q (hperm.mem_iff.mp hq)

/-! ### The fraction of a pool that may serve the model -/

/-- What is left of a pool that may serve the model, once its limit is known. -/
private theorem remaining_pos {pool : QuotaPool} {limit : Int}
    (h : pool.isUsableForModel parseTimestamp nowSecs model = true) (hlimit : pool.limit = some limit)
    (hpos : 0 < limit) :
    0 < match pool.remaining with
      | some r => r
      | none =>
        match pool.used with
        | some used => max (saturatingSub limit used) 0
        | none => limit := by
  have hexhausted : pool.hasKnownExhaustion = false := by
    unfold isUsableForModel at h
    split at h
    · cases h
    · split at h
      · cases h
      · split at h
        · cases h
        · split at h
          · cases h
          · split at h
            · cases h
            · simpa using h
  unfold hasKnownExhaustion at hexhausted
  rw [Bool.or_eq_false_iff, hlimit] at hexhausted
  obtain ⟨hused, hremaining⟩ := hexhausted
  cases hr : pool.remaining with
  | some r =>
    rw [hr] at hremaining
    simpa using hremaining
  | none =>
    cases hu : pool.used with
    | none => exact hpos
    | some used =>
      rw [hu] at hused
      simp only [decide_eq_false_iff_not, not_and] at hused
      have hlt := hused hpos
      simp only [saturatingSub]
      omega

/-- A pool that may serve the model has something left. -/
theorem usableFraction_pos {pool : QuotaPool} (h : pool.isUsableForModel parseTimestamp nowSecs model = true) :
    0 < pool.usableFraction := by
  unfold usableFraction
  cases hlimit : pool.limit.filter fun limit => decide (limit > 0) with
  | none => exact one_pos
  | some limit =>
    rw [Option.filter_eq_some_iff, decide_eq_true_iff] at hlimit
    have hleft := remaining_pos h hlimit.1 hlimit.2
    dsimp only
    generalize (match pool.remaining with
      | some r => r
      | none =>
        match pool.used with
        | some used => max (saturatingSub limit used) 0
        | none => limit) = remaining at hleft ⊢
    have hclamped : (0 : ℚ) < (max 0 (min remaining limit) : Int) := by
      have hint : 0 < max 0 (min remaining limit) := by omega
      exact_mod_cast hint
    have hquotient : 0 < toF64 (toF64 (max 0 (min remaining limit) : Int) / toF64 (limit : Int)) :=
      toF64_pos (div_pos (toF64_pos hclamped) (toF64_pos (by exact_mod_cast hlimit.2)))
    exact lt_max_of_lt_right (lt_min hquotient one_pos)

/-! ### The exact condition -/

private theorem exhaustedFraction_eq_zero (h : exhaustedFraction parseTimestamp model nowSecs pools = some 0) :
    ∀ p ∈ pools, p.matchesModel model = true → p.isUnreadable = false := by
  intro p hp hmatches
  unfold exhaustedFraction at h
  split at h
  · cases h
  · rename_i hany
    rw [Bool.not_eq_true, List.any_eq_false] at hany
    have hnot := hany p hp
    rw [hmatches] at hnot
    simpa using hnot

/-- Zero is a known negative, whatever the pools are. -/
theorem zaiRemainingFraction_eq_zero (h : zaiRemainingFraction parseTimestamp model nowSecs pools = some 0) :
    ∀ p ∈ pools, p.isUsableForModel parseTimestamp nowSecs model = false ∧
      (p.matchesModel model = true → p.isUnreadable = false) := by
  rcases deciding_or_none parseTimestamp model nowSecs pools with ⟨source, hsource⟩ | hnone
  · exfalso
    by_cases hplan : source = .codingPlan → planWithheld parseTimestamp model nowSecs pools = false
    · obtain ⟨q, hq⟩ := find?_of_deciding hsource
      rw [zaiRemainingFraction_of_deciding hsource hplan, hq, Option.map_some, Option.some.injEq] at h
      have hserves := List.find?_some hq
      rw [serves, Bool.and_eq_true] at hserves
      exact (usableFraction_pos hserves.2).ne' h
    · rw [Classical.not_imp, Bool.not_eq_false] at hplan
      obtain ⟨rfl, hwithheld⟩ := hplan
      rw [zaiRemainingFraction_of_withheld hsource hwithheld] at h
      cases h
  · rw [zaiRemainingFraction_of_none hnone] at h
    intro p hp
    constructor
    · have hserves := hnone p.source p hp
      rw [serves, beq_self_eq_true, Bool.true_and] at hserves
      exact hserves
    · split at h
      · cases h
      · exact exhaustedFraction_eq_zero h p hp

/-- Pools of the same fraction give the same verdict in every order. -/
private theorem zaiRemainingFraction_perm (h : Uniform parseTimestamp model nowSecs pools) {pools' : List QuotaPool}
    (hperm : pools'.Perm pools) :
    zaiRemainingFraction parseTimestamp model nowSecs pools' =
      zaiRemainingFraction parseTimestamp model nowSecs pools := by
  rcases deciding_or_none parseTimestamp model nowSecs pools with ⟨source, hsource⟩ | hnone
  · have hsource' := hsource.perm hperm
    by_cases hplan : source = .codingPlan → planWithheld parseTimestamp model nowSecs pools = false
    · obtain ⟨p, hp⟩ := find?_of_deciding hsource
      obtain ⟨p', hp'⟩ := find?_of_deciding hsource'
      have hfraction := h source hsource hplan p' (hperm.mem_iff.mp (List.mem_of_find?_eq_some hp')) p
        (List.mem_of_find?_eq_some hp) (List.find?_some hp') (List.find?_some hp)
      rw [zaiRemainingFraction_of_deciding hsource hplan, hp,
        zaiRemainingFraction_of_deciding hsource' (by rwa [planWithheld_perm hperm]), hp', Option.map_some, hfraction,
        Option.map_some]
    · rw [Classical.not_imp, Bool.not_eq_false] at hplan
      obtain ⟨rfl, hwithheld⟩ := hplan
      rw [zaiRemainingFraction_of_withheld hsource hwithheld,
        zaiRemainingFraction_of_withheld hsource' (by rwa [planWithheld_perm hperm])]
  · have hnone' : ∀ source, ∀ p ∈ pools', serves parseTimestamp model nowSecs source p = false :=
      fun source p hp => hnone source p (hperm.mem_iff.mp hp)
    rw [zaiRemainingFraction_of_none hnone, zaiRemainingFraction_of_none hnone', planWithheld_perm hperm,
      exhaustedFraction_perm hperm]

private theorem isGreatest_of_uniform (h : Uniform parseTimestamp model nowSecs pools) {f : ℚ}
    (hf : zaiRemainingFraction parseTimestamp model nowSecs pools = some f)
    (hsource : Deciding parseTimestamp model nowSecs pools source) :
    IsGreatest {g | ∃ p ∈ pools, serves parseTimestamp model nowSecs source p = true ∧ p.usableFraction = g} f := by
  have hplan : source = .codingPlan → planWithheld parseTimestamp model nowSecs pools = false := by
    rintro rfl
    by_contra hwithheld
    rw [Bool.not_eq_false] at hwithheld
    rw [zaiRemainingFraction_of_withheld hsource hwithheld] at hf
    cases hf
  obtain ⟨p, hp⟩ := find?_of_deciding hsource
  rw [zaiRemainingFraction_of_deciding hsource hplan, hp, Option.map_some, Option.some.injEq] at hf
  subst hf
  constructor
  · exact ⟨p, List.mem_of_find?_eq_some hp, List.find?_some hp, rfl⟩
  · rintro g ⟨q, hq, hserves, rfl⟩
    exact (h source hsource hplan q hq p (List.mem_of_find?_eq_some hp) hserves (List.find?_some hp)).le

/-- With a pool in front that serves the model, the verdict is its fraction. -/
private theorem zaiRemainingFraction_of_front (hsource : Deciding parseTimestamp model nowSecs pools source)
    (hplan : source = .codingPlan → planWithheld parseTimestamp model nowSecs pools = false) {p : QuotaPool}
    (hp : p ∈ pools) (hserves : serves parseTimestamp model nowSecs source p = true) :
    zaiRemainingFraction parseTimestamp model nowSecs (p :: pools.erase p) = some p.usableFraction := by
  have hperm : (p :: pools.erase p).Perm pools := (List.perm_cons_erase hp).symm
  rw [zaiRemainingFraction_of_deciding (hsource.perm hperm) (by rwa [planWithheld_perm hperm]),
    List.find?_cons_of_pos hserves, Option.map_some]

/-- The verdict is independent of the order of the pools and is the best one if and only if the pools of the deciding
source that may serve the model have the same fraction left. -/
theorem verdict_iff (parseTimestamp : Text → Option Int) (model : Text) (nowSecs : Nat) (pools : List QuotaPool) :
    Verdict parseTimestamp model nowSecs pools ↔ Uniform parseTimestamp model nowSecs pools := by
  constructor
  · intro h source hsource hplan p hp q hq hpserves hqserves
    -- Each of the two pools is put in front of the others.
    have hfirst := h.order _ (List.perm_cons_erase hp).symm
    have hsecond := h.order _ (List.perm_cons_erase hq).symm
    rw [zaiRemainingFraction_of_front hsource hplan hp hpserves] at hfirst
    rw [zaiRemainingFraction_of_front hsource hplan hq hqserves, ← hfirst, Option.some.injEq] at hsecond
    exact hsecond.symm
  · intro h
    constructor
    · intro pools' hperm
      exact zaiRemainingFraction_perm h hperm
    · intro f source hf hsource
      exact isGreatest_of_uniform h hf hsource
    · exact zaiRemainingFraction_eq_zero

end Verdict

/-- A starter pool with a limit and what is left of it. -/
def starterPool (limit remaining : Int) : QuotaPool where
  source := .zcodeStarter
  status := .active
  used := none
  limit := some limit
  remaining := some remaining
  expiresAt := none
  startsAt := none
  modelIds := ["glm-4.6".toList]
  fetchError := none

/-- Two starter pools for one model with a tenth and nine tenths of their limits left: the first one decides. -/
theorem not_verdict_starterPools :
    ¬ ∀ (model : Text) (nowSecs : Nat) (pools : List QuotaPool), Verdict (fun _ => none) model nowSecs pools := by
  intro h
  have horder := (h "glm-4.6".toList 0 [starterPool 100 10, starterPool 100 90]).order
    [starterPool 100 90, starterPool 100 10] (List.Perm.swap _ _ _)
  exact absurd horder (by decide +kernel)

end OpenProxy.Quota
