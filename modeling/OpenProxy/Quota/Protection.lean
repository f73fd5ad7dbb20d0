import OpenProxy.Data.JsonText
import OpenProxy.Models.Normalize
import OpenProxy.Quota.Merge

/-!
# Protecting the quota of an account

`evaluate_account_quota` says whether an account may serve a request: it is exhausted when one of its counters has reached
its limit, and protected when the fraction that is left is at or below the threshold.  The fraction is the least one among
the credit balance, the month, and the session; the week counts only where the session has no limit
(`evaluateAccountQuota_windows`).

Numbers with a fraction are rational numbers here.  `parse_timestamp` is a parameter, as for the pools, and so is the time.
-/

namespace OpenProxy.Quota

open Models (normalizeModelId)

inductive QuotaStatus
  | available
  | isProtected
  | exhausted
  deriving DecidableEq

structure ModelQuotaDetail where
  modelId : Text
  sessionUsed : Int
  sessionLimit : Int
  remainingFraction : ℚ
  deriving DecidableEq

/-- `Account`, as far as its quota depends on it. -/
structure Account where
  providerId : Text
  quotaSessionUsed : Option Int
  quotaSessionLimit : Option Int
  quotaWeeklyUsed : Option Int
  quotaWeeklyLimit : Option Int
  quotaModelDetails : Option (List ModelQuotaDetail)
  quotaPools : Option (List SnapshotPool)
  oauthProviderSpecific : Option Text
  extraConfigJson : Option Text
  deriving DecidableEq

/-! ### The detail of a model -/

/-- `find_model_quota_detail`: the candidates by name, and then by normal form. -/
def findModelQuotaDetail (account : Account) (candidates : List Text) : Option ModelQuotaDetail :=
  account.quotaModelDetails.bind fun details =>
    (candidates.findSome? fun candidate => details.find? fun d => eqIgnoreAsciiCase candidate d.modelId).or
      (candidates.findSome? fun candidate =>
        details.find? fun d => eqIgnoreAsciiCase (normalizeModelId candidate) (normalizeModelId d.modelId))

def monthlyWindowDetail (details : List ModelQuotaDetail) : Option ModelQuotaDetail :=
  details.find? fun d => d.modelId = "Monthly Limit".toList ∨ d.modelId = "Monthly Window".toList

def isMonthlyWindowExhausted (account : Account) : Bool :=
  match account.quotaModelDetails with
  | none => false
  | some details =>
    (monthlyWindowDetail details).any fun d =>
      d.remainingFraction ≤ 0 || (d.sessionLimit > 0 && d.sessionUsed ≥ d.sessionLimit)

/-! ### The credit balance -/

/-- The exponent of a number, which may be missing. -/
def parseExponent (s : Text) : Option Int :=
  match s with
  | [] => some 0
  | e :: s =>
    let digits := if s.head? = some '+' ∨ s.head? = some '-' then s.tail else s
    if (e = 'e' ∨ e = 'E') ∧ digits ≠ [] ∧ digits.all Char.isDigit then
      some (if s.head? = some '-' then -(digitsValue digits : Int) else digitsValue digits)
    else none

/-- `parse::<f64>`, without rounding and without the values that are not rational. -/
def parseF64 (s : Text) : Option ℚ :=
  let unsigned := if s.head? = some '+' ∨ s.head? = some '-' then s.tail else s
  let int := unsigned.takeWhile Char.isDigit
  let rest := unsigned.dropWhile Char.isDigit
  let frac := if rest.head? = some '.' then rest.tail.takeWhile Char.isDigit else []
  let rest := if rest.head? = some '.' then rest.tail.dropWhile Char.isDigit else rest
  if int ++ frac = [] then none
  else
    (parseExponent rest).map fun (e : Int) =>
      (if s.head? = some '-' then -1 else 1) * (digitsValue (int ++ frac) : ℚ) * 10 ^ (e - frac.length : Int)

example : parseF64 "-12.5e1".toList = some (-125) := by decide +kernel

def parseNumberValue (val : Json) : Option ℚ :=
  match val with
  | .number n => parseF64 n.digits
  | .string s => parseF64 ((trim s).filter fun c => c ≠ ',')
  | _ => none

def parseCreditsAndTotalFromJson (raw : Text) : Option (ℚ × Option ℚ) :=
  (fromStr raw).bind fun v =>
    let remVal :=
      (v.get "credit_balance".toList).or <| (v.get "credits".toList).or <| (v.get "op_credit_balance".toList).or <|
        (v.get "remains".toList).or <| (v.get "remaining_amount".toList).or <| v.get "total_remaining_amount".toList
    let totalVal :=
      (v.get "total_amount".toList).or <| (v.get "total_credits".toList).or <| (v.get "initial_credits".toList).or <|
        (v.get "credit_limit".toList).or <| (v.get "total_limit".toList).or <| v.get "total".toList
    (remVal.bind parseNumberValue).map fun rem => (rem, totalVal.bind parseNumberValue)

def getCreditBalanceInfo (account : Account) : Option (ℚ × Option ℚ) :=
  (account.oauthProviderSpecific.bind parseCreditsAndTotalFromJson).or
    (account.extraConfigJson.bind parseCreditsAndTotalFromJson)

def minimaxDefaultCreditBaseline : ℚ := 1000000

/-- `f64::clamp`. -/
def clamp (lower upper x : ℚ) : ℚ := max lower (min x upper)

def getCreditBalanceFraction (account : Account) : Option ℚ :=
  (getCreditBalanceInfo account).bind fun (rem, totalOpt) =>
    if rem ≤ 0 then some 0
    else
      match totalOpt.filter fun total => 0 < total with
      | some total => some (clamp 0 1 (rem / total))
      | none =>
        match account.quotaSessionLimit.filter fun limit => 0 < limit with
        | some limit => some (clamp 0 1 (rem / limit))
        | none =>
          if eqIgnoreAsciiCase account.providerId "minimax".toList then
            some (clamp 0 1 (rem / minimaxDefaultCreditBaseline))
          else if rem ≤ 1 then some (clamp 0 1 rem)
          else none

def isCreditBalanceExhausted (account : Account) : Bool := (getCreditBalanceInfo account).any fun (rem, _) => rem ≤ 0

/-! ### The windows -/

def quotaWindowExhausted (used limit : Option Int) : Bool :=
  match used, limit with
  | some used, some limit => used ≥ limit
  | _, _ => false

def checkQuotaWindowsExhausted (account : Account) (candidates : List Text) : Bool :=
  if (findModelQuotaDetail account candidates).isSome then isCreditBalanceExhausted account
  else
    let sessionExhausted := quotaWindowExhausted account.quotaSessionUsed account.quotaSessionLimit
    let weeklyExhausted := quotaWindowExhausted account.quotaWeeklyUsed account.quotaWeeklyLimit
    sessionExhausted || weeklyExhausted || isMonthlyWindowExhausted account || isCreditBalanceExhausted account

def calculateRemainingFraction (used limit : Option Int) : Option ℚ :=
  used.bind fun used => limit.bind fun limit =>
    if limit > 0 then some ((QuotaPool.saturatingSub limit used : ℚ) / limit) else none

section Account

variable (parseTimestamp : Text → Option Int) (now : Nat)

def getAccountRemainingFraction (account : Account) (candidates : List Text) : ℚ :=
  match account.quotaPools.filter fun _ => account.providerId = "zai".toList with
  | some pools =>
    (zaiRemainingFraction parseTimestamp (candidates.headD []) now (pools.map SnapshotPool.toQuotaPool)).getD 1
  | none =>
    if isCreditBalanceExhausted account then 0
    else
      match findModelQuotaDetail account candidates with
      | some detail => min detail.remainingFraction ((getCreditBalanceFraction account).getD 1)
      | none =>
        let sessionOrWeekly :=
          (calculateRemainingFraction account.quotaSessionUsed account.quotaSessionLimit).or
            (calculateRemainingFraction account.quotaWeeklyUsed account.quotaWeeklyLimit)
        let monthly := (account.quotaModelDetails.bind monthlyWindowDetail).map ModelQuotaDetail.remainingFraction
        (([getCreditBalanceFraction account, sessionOrWeekly, monthly].filterMap id).min?).getD 1

/-- The counters are too old, or one of the two sources is missing. -/
def staleZaiPools (pools : List SnapshotPool) : Bool :=
  !(pools.any fun p => p.source == .zcodeStarter) || !(pools.any fun p => p.source == .codingPlan) ||
    pools.any fun pool =>
      match parseU64 pool.lastFetchedAt with
      | some fetched => fetched > now || now - fetched > 60
      | none => true

def evaluateAccountQuota (quotaProtectionEnabled : Bool) (thresholdPercentage : Nat) (account : Account)
    (candidates : List Text) : QuotaStatus :=
  if account.providerId = "zai".toList then
    match account.quotaPools.filter fun p => p ≠ [] with
    | none => .available
    | some pools =>
      if staleZaiPools now pools then .available
      else
        match zaiRemainingFraction parseTimestamp (candidates.headD []) now (pools.map SnapshotPool.toQuotaPool) with
        | some value =>
          if value ≤ 0 then .exhausted
          else if quotaProtectionEnabled ∧ value ≤ (thresholdPercentage : ℚ) / 100 then .isProtected
          else .available
        | none => .available
  else if checkQuotaWindowsExhausted account candidates then .exhausted
  else
    let remaining := getAccountRemainingFraction parseTimestamp now account candidates
    if remaining ≤ 0 then .exhausted
    else if quotaProtectionEnabled ∧ remaining ≤ (thresholdPercentage : ℚ) / 100 then .isProtected
    else .available

end Account

/-! ### The windows that count -/

def Account.sessionFraction (account : Account) : Option ℚ :=
  calculateRemainingFraction account.quotaSessionUsed account.quotaSessionLimit

def Account.weeklyFraction (account : Account) : Option ℚ :=
  calculateRemainingFraction account.quotaWeeklyUsed account.quotaWeeklyLimit

def Account.monthlyFraction (account : Account) : Option ℚ :=
  (account.quotaModelDetails.bind monthlyWindowDetail).map ModelQuotaDetail.remainingFraction

/-- The fraction of a window that the account publishes and that the code looks at. -/
def Account.Counts (account : Account) (f : ℚ) : Prop :=
  getCreditBalanceFraction account = some f ∨ account.sessionFraction = some f ∨
    (account.sessionFraction = none ∧ account.weeklyFraction = some f) ∨ account.monthlyFraction = some f

/-- The used count has reached the limit, in the session or in the week. -/
def Account.ReachesLimit (account : Account) : Prop :=
  (∃ used limit, account.quotaSessionUsed = some used ∧ account.quotaSessionLimit = some limit ∧ limit ≤ used) ∨
    ∃ used limit, account.quotaWeeklyUsed = some used ∧ account.quotaWeeklyLimit = some limit ∧ limit ≤ used

theorem quotaWindowExhausted_iff {used limit : Option Int} :
    quotaWindowExhausted used limit = true ↔ ∃ u l, used = some u ∧ limit = some l ∧ l ≤ u := by
  unfold quotaWindowExhausted
  split
  · simp
  · rename_i hnone
    simp only [Bool.false_eq_true, false_iff]
    rintro ⟨u, l, rfl, rfl, -⟩
    exact hnone u l rfl rfl

/-- A limit that is zero or missing gives no fraction. -/
theorem calculateRemainingFraction_eq_none {used limit : Option Int} (h : limit = none ∨ limit = some 0) :
    calculateRemainingFraction used limit = none := by
  unfold calculateRemainingFraction
  cases used with
  | none => rfl
  | some used => rcases h with rfl | rfl <;> rfl

section Aggregate

variable {parseTimestamp : Text → Option Int} {now : Nat} {account : Account} {candidates : List Text}

theorem mem_counted_iff {f : ℚ} :
    f ∈ [getCreditBalanceFraction account, account.sessionFraction.or account.weeklyFraction,
        account.monthlyFraction].filterMap id ↔ account.Counts f := by
  have hwindow : account.sessionFraction.or account.weeklyFraction = some f ↔
      account.sessionFraction = some f ∨ (account.sessionFraction = none ∧ account.weeklyFraction = some f) := by
    cases account.sessionFraction with
    | none => simp
    | some g => simp
  unfold Account.Counts
  simp only [List.mem_filterMap, List.mem_cons, List.not_mem_nil, or_false, id, exists_eq_right]
  rw [eq_comm, eq_comm (a := some f) (b := account.sessionFraction.or account.weeklyFraction), hwindow,
    eq_comm (a := some f), or_assoc]

/-- The fraction that is left, for an account whose counters count. -/
theorem getAccountRemainingFraction_eq (hzai : account.providerId ≠ "zai".toList)
    (hdetail : findModelQuotaDetail account candidates = none) :
    getAccountRemainingFraction parseTimestamp now account candidates =
      if isCreditBalanceExhausted account then 0
      else (([getCreditBalanceFraction account, account.sessionFraction.or account.weeklyFraction,
        account.monthlyFraction].filterMap id).min?).getD 1 := by
  have hpools : (account.quotaPools.filter fun _ => decide (account.providerId = "zai".toList)) = none := by
    rw [decide_eq_false hzai]
    cases account.quotaPools with
    | none => rfl
    | some pools => rfl
  unfold getAccountRemainingFraction
  rw [hpools, hdetail]
  rfl

theorem remainingFraction_le (hzai : account.providerId ≠ "zai".toList)
    (hdetail : findModelQuotaDetail account candidates = none) (hcredit : isCreditBalanceExhausted account = false)
    {f : ℚ} (hf : account.Counts f) : getAccountRemainingFraction parseTimestamp now account candidates ≤ f := by
  rw [getAccountRemainingFraction_eq hzai hdetail, if_neg (by simp [hcredit])]
  have hmem := mem_counted_iff.2 hf
  cases hmin : ([getCreditBalanceFraction account, account.sessionFraction.or account.weeklyFraction,
      account.monthlyFraction].filterMap id).min? with
  | none =>
    rw [List.min?_eq_none_iff] at hmin
    rw [hmin] at hmem
    cases hmem
  | some least => exact (List.min?_eq_some_iff.1 hmin).2 f hmem

theorem checkQuotaWindowsExhausted_iff (hdetail : findModelQuotaDetail account candidates = none) :
    checkQuotaWindowsExhausted account candidates = true ↔
      account.ReachesLimit ∨ isMonthlyWindowExhausted account = true ∨ isCreditBalanceExhausted account = true := by
  unfold checkQuotaWindowsExhausted Account.ReachesLimit
  rw [hdetail]
  simp only [Option.isSome_none, Bool.false_eq_true, if_false, Bool.or_eq_true, quotaWindowExhausted_iff, or_assoc]

/-- The verdict on an account of another provider, branch by branch. -/
theorem evaluateAccountQuota_eq (hzai : account.providerId ≠ "zai".toList) (enabled : Bool) (threshold : Nat) :
    evaluateAccountQuota parseTimestamp now enabled threshold account candidates =
      if checkQuotaWindowsExhausted account candidates then .exhausted
      else if getAccountRemainingFraction parseTimestamp now account candidates ≤ 0 then .exhausted
      else if enabled ∧ getAccountRemainingFraction parseTimestamp now account candidates ≤ (threshold : ℚ) / 100 then
        .isProtected
      else .available := by
  unfold evaluateAccountQuota
  rw [if_neg hzai]

theorem lt_of_available (hzai : account.providerId ≠ "zai".toList)
    (hdetail : findModelQuotaDetail account candidates = none) {threshold : Nat}
    (h : evaluateAccountQuota parseTimestamp now true threshold account candidates = .available) {f : ℚ}
    (hf : account.Counts f) : (threshold : ℚ) / 100 < f := by
  rw [evaluateAccountQuota_eq hzai] at h
  split at h
  · cases h
  · rename_i hcheck
    split at h
    · cases h
    · split at h
      · cases h
      · rename_i hthreshold
        have hcredit : isCreditBalanceExhausted account = false := by
          rw [checkQuotaWindowsExhausted_iff hdetail] at hcheck
          simpa using (not_or.1 (not_or.1 hcheck).2).2
        have hlt : (threshold : ℚ) / 100 < getAccountRemainingFraction parseTimestamp now account candidates := by
          simpa using hthreshold
        exact lt_of_lt_of_le hlt (remainingFraction_le hzai hdetail hcredit hf)

/-- An account without limits is exhausted by the counters that have reached the limit zero. -/
theorem exhausted_iff_of_noLimits (hzai : account.providerId ≠ "zai".toList)
    (hdetail : findModelQuotaDetail account candidates = none)
    (hsession : account.quotaSessionLimit = none ∨ account.quotaSessionLimit = some 0)
    (hweekly : account.quotaWeeklyLimit = none ∨ account.quotaWeeklyLimit = some 0)
    (hmonthly : account.quotaModelDetails.bind monthlyWindowDetail = none)
    (hcredit : getCreditBalanceInfo account = none) (enabled : Bool) (threshold : Nat) :
    evaluateAccountQuota parseTimestamp now enabled threshold account candidates = .exhausted ↔
      account.ReachesLimit := by
  have hbalance : isCreditBalanceExhausted account = false := by simp [isCreditBalanceExhausted, hcredit]
  have hmonth : isMonthlyWindowExhausted account = false := by
    unfold isMonthlyWindowExhausted
    cases hdetails : account.quotaModelDetails with
    | none => rfl
    | some details =>
      rw [hdetails, Option.bind_some] at hmonthly
      simp [hmonthly]
  have hremaining : getAccountRemainingFraction parseTimestamp now account candidates = 1 := by
    have hfraction : getCreditBalanceFraction account = none := by rw [getCreditBalanceFraction, hcredit, Option.bind_none]
    have hs : account.sessionFraction = none := calculateRemainingFraction_eq_none hsession
    have hw : account.weeklyFraction = none := calculateRemainingFraction_eq_none hweekly
    have hm : account.monthlyFraction = none := by rw [Account.monthlyFraction, hmonthly, Option.map_none]
    rw [getAccountRemainingFraction_eq hzai hdetail, hbalance, hfraction, hs, hw, hm]
    rfl
  have hcheck := checkQuotaWindowsExhausted_iff hdetail
  rw [hbalance, hmonth] at hcheck
  rw [evaluateAccountQuota_eq hzai, hremaining]
  by_cases h : checkQuotaWindowsExhausted account candidates = true
  · rw [if_pos h]
    simpa using hcheck.1 h
  · have hnot : ¬ account.ReachesLimit := fun hr => h (hcheck.2 (.inl hr))
    rw [if_neg h, if_neg (by norm_num)]
    split <;> simp [hnot]

/-- What bounds the fraction that is left, and what an account that is available or has no limits is known of. -/
theorem evaluateAccountQuota_windows (hzai : account.providerId ≠ "zai".toList)
    (hdetail : findModelQuotaDetail account candidates = none) :
    (isCreditBalanceExhausted account = true →
      getAccountRemainingFraction parseTimestamp now account candidates = 0 ∧
        ∀ enabled threshold,
          evaluateAccountQuota parseTimestamp now enabled threshold account candidates = .exhausted) ∧
    (isCreditBalanceExhausted account = false → ∀ f, account.Counts f →
      getAccountRemainingFraction parseTimestamp now account candidates ≤ f) ∧
    (∀ threshold, evaluateAccountQuota parseTimestamp now true threshold account candidates = .available →
      ¬ account.ReachesLimit ∧ ∀ f, account.Counts f → (threshold : ℚ) / 100 < f) ∧
    ((account.quotaSessionLimit = none ∨ account.quotaSessionLimit = some 0) →
      (account.quotaWeeklyLimit = none ∨ account.quotaWeeklyLimit = some 0) →
      account.quotaModelDetails.bind monthlyWindowDetail = none → getCreditBalanceInfo account = none →
      ∀ enabled threshold, evaluateAccountQuota parseTimestamp now enabled threshold account candidates = .exhausted ↔
        account.ReachesLimit) := by
  refine ⟨?_, fun hcredit f hf => remainingFraction_le hzai hdetail hcredit hf, ?_, ?_⟩
  · intro hcredit
    constructor
    · rw [getAccountRemainingFraction_eq hzai hdetail, if_pos hcredit]
    · intro enabled threshold
      have hcheck := (checkQuotaWindowsExhausted_iff hdetail).2 (.inr (.inr hcredit))
      rw [evaluateAccountQuota_eq hzai, if_pos hcheck]
  · intro threshold h
    refine ⟨?_, fun f hf => lt_of_available hzai hdetail h hf⟩
    intro hreach
    have hcheck := (checkQuotaWindowsExhausted_iff hdetail).2 (.inl hreach)
    rw [evaluateAccountQuota_eq hzai, if_pos hcheck] at h
    cases h
  · intro hsession hweekly hmonthly hcredit enabled threshold
    exact exhausted_iff_of_noLimits hzai hdetail hsession hweekly hmonthly hcredit enabled threshold

end Aggregate

/-! ### Two accounts -/

/-- An account with a session and a week. -/
def windowsAccount (sessionUsed sessionLimit weeklyUsed weeklyLimit : Option Int) : Account where
  providerId := ['p']
  quotaSessionUsed := sessionUsed
  quotaSessionLimit := sessionLimit
  quotaWeeklyUsed := weeklyUsed
  quotaWeeklyLimit := weeklyLimit
  quotaModelDetails := none
  quotaPools := none
  oauthProviderSpecific := none
  extraConfigJson := none

theorem evaluateAccountQuota_windows_week :
    (5 : ℚ) / 100 < 1 / 2 :=
  ((@evaluateAccountQuota_windows (fun _ => none) 0 (windowsAccount none none (some 5) (some 10)) [] (by decide)
    (by decide)).2.2.1 5
      (by decide +kernel)).2 (1 / 2) (.inr (.inr (.inl (by decide +kernel))))

/-- The week is nearly used up, but only the session counts; nothing of a limit of zero is used; and the session is
overdrawn by more than the missing balance says. -/
theorem evaluateAccountQuota_unseen :
    let weekly := windowsAccount (some 0) (some 1000) (some 995) (some 1000)
    let zero := windowsAccount (some 0) (some 0) none none
    let overdrawn := { windowsAccount (some 150) (some 100) none none with
      oauthProviderSpecific := some "\x7b\"credits\":0\x7d".toList }
    weekly.weeklyFraction = some (5 / 1000) ∧
      getAccountRemainingFraction (fun _ => none) 0 weekly [] = 1 ∧
      evaluateAccountQuota (fun _ => none) 0 true 10 weekly [] = .available ∧
      evaluateAccountQuota (fun _ => none) 0 true 10 zero [] = .exhausted ∧
      overdrawn.sessionFraction = some (-1 / 2) ∧
      getAccountRemainingFraction (fun _ => none) 0 overdrawn [] = 0 := by
  intro weekly zero overdrawn
  decide +kernel

end OpenProxy.Quota
