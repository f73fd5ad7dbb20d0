import OpenProxy.Routing.Database

/-!
# Rotation over the accounts of a provider

`expand_single_target_rotation` replaces a target without an account by one copy for each account that may be used, the
healthy accounts first.  Of the accounts of one health class those that are rate limited are left out if the provider has
others in the class.  Whether the target may use these others is looked at after that, so that a class can come to nothing
although it has accounts for the target (`completeRotation_iff`).
-/

namespace OpenProxy.Combos

open Routing

/-! ### Accounts -/

/-- `accounts.health_status`. -/
inductive HealthStatus
  | healthy
  | degraded
  | unhealthy
  deriving DecidableEq, Repr

/-- The columns of `accounts` that the rotation reads. -/
structure RotationAccount where
  id : Int
  providerId : Text
  active : Bool
  healthStatus : HealthStatus
  rateLimitedUntil : Option Timestamp
  priority : Int
  deriving DecidableEq

/-- The table, with its key. -/
structure RotationAccounts where
  rows : List RotationAccount
  ids : (rows.map (·.id)).Nodup

/-- `ORDER BY priority ASC, id ASC`. -/
def byAccountPriority (a b : RotationAccount) : Prop := a.priority < b.priority ∨ a.priority = b.priority ∧ a.id ≤ b.id

instance instDecidableRelByAccountPriority : DecidableRel byAccountPriority :=
  fun _ _ => inferInstanceAs (Decidable (_ ∨ _))

/-- `rate_limited_until IS NULL OR datetime(rate_limited_until) <= datetime('now')`. -/
def notRateLimited (now : Timestamp) (a : RotationAccount) : Bool :=
  a.rateLimitedUntil.isNone || a.rateLimitedUntil.any (·.datetimeLe now)

/-! ### The rotation -/

/-- `query_accounts_by_health`, with the rows for their ids. -/
def queryAccountsByHealth (accounts : RotationAccounts) (now : Timestamp) (providerId : Text)
    (healthStatus : HealthStatus) (checkRateLimit : Bool) : List RotationAccount :=
  (accounts.rows.filter fun a => decide (a.providerId = providerId) && a.active &&
    decide (a.healthStatus = healthStatus) && (!checkRateLimit || notRateLimited now a)).insertionSort byAccountPriority

/-- The accounts of one class in `fetch_accounts_by_health_priority`. -/
def fetchAccountsOfClass (accounts : RotationAccounts) (now : Timestamp) (providerId : Text)
    (healthStatus : HealthStatus) : List RotationAccount :=
  let rows := queryAccountsByHealth accounts now providerId healthStatus true
  if rows = [] then queryAccountsByHealth accounts now providerId healthStatus false else rows

/-- `fetch_accounts_by_health_priority`. -/
def fetchAccountsByHealthPriority (accounts : RotationAccounts) (now : Timestamp) (providerId : Text) :
    List RotationAccount :=
  fetchAccountsOfClass accounts now providerId .healthy ++ fetchAccountsOfClass accounts now providerId .degraded ++
    fetchAccountsOfClass accounts now providerId .unhealthy

/-- `expand_single_target_rotation`, with the targets that it adds. -/
def expandSingleTargetRotation (accounts : RotationAccounts) (now : Timestamp) (target : ComboTarget) :
    List ComboTarget :=
  if target.subComboId.isSome then [target]
  else
    match target.accountId with
    | some aid =>
      if ((accounts.rows.find? fun a => a.id = aid).map (·.active)).getD true then [target] else []
    | none =>
      let prioritizedAccounts := fetchAccountsByHealthPriority accounts now target.providerId
      let candidateAccounts : List RotationAccount :=
        match target.selectedAccounts with
        | some allowed => if allowed = [] then [] else prioritizedAccounts.filter fun a => allowed.contains a.id
        | none => prioritizedAccounts
      if candidateAccounts = [] then
        if target.selectedAccounts.isSome then []
        else if accounts.rows.any fun a => a.providerId = target.providerId then []
        else [target]
      else candidateAccounts.map fun a => { target with accountId := some a.id }

/-- `expand_account_rotation`. -/
def expandAccountRotation (accounts : RotationAccounts) (now : Timestamp) (targets : List ComboTarget) :
    List ComboTarget :=
  targets.flatMap (expandSingleTargetRotation accounts now)

/-! ### What a rotation should be -/

/-- The target may use the account. -/
def isAllowed (target : ComboTarget) (a : RotationAccount) : Bool :=
  target.selectedAccounts.all fun allowed => allowed.contains a.id

/-- The account is of the provider of the target, active, and allowed to it. -/
def isEligible (target : ComboTarget) (a : RotationAccount) : Bool :=
  decide (a.providerId = target.providerId) && a.active && isAllowed target a

/-- The place of a health class. -/
def HealthStatus.rank : HealthStatus → Nat
  | healthy => 0
  | degraded => 1
  | unhealthy => 2

/-- The order of accounts: by health class, then priority and id. -/
def byHealthPriority (a b : RotationAccount) : Prop :=
  a.healthStatus.rank < b.healthStatus.rank ∨ a.healthStatus = b.healthStatus ∧ byAccountPriority a b

/-- The targets are the copies for the accounts, each once and in order, which are all eligible; or there is no account of
the provider at all, and the target itself. -/
structure OrderedRotation (accounts : RotationAccounts) (target : ComboTarget) (emitted : List RotationAccount)
    (targets : List ComboTarget) : Prop where
  copies : targets = emitted.map (fun a => { target with accountId := some a.id }) ∨
    targets = [target] ∧ emitted = [] ∧ target.selectedAccounts = none ∧
      ∀ a ∈ accounts.rows, a.providerId ≠ target.providerId
  nodup : (emitted.map (·.id)).Nodup
  eligible : ∀ a ∈ emitted, a ∈ accounts.rows ∧ isEligible target a = true
  ordered : emitted.Pairwise byHealthPriority

/-- The rotation also leaves no class out that has an eligible account, and falls back to the rate-limited ones where all
eligible accounts of the class are. -/
def CompleteRotation (accounts : RotationAccounts) (now : Timestamp) (target : ComboTarget) : Prop :=
  ∃ emitted, OrderedRotation accounts target emitted (expandSingleTargetRotation accounts now target) ∧
    ∀ status, (∃ a ∈ accounts.rows, isEligible target a = true ∧ a.healthStatus = status) →
      (∃ a ∈ emitted, a.healthStatus = status) ∧
      ((∀ a ∈ accounts.rows, isEligible target a = true → a.healthStatus = status → notRateLimited now a = false) →
        ∀ a ∈ accounts.rows, isEligible target a = true → a.healthStatus = status → a ∈ emitted)

/-! ### The accounts of a class -/

section

variable {accounts : RotationAccounts} {now : Timestamp} {providerId : Text} {healthStatus : HealthStatus}
  {target : ComboTarget}

theorem byAccountPriority_total (a b : RotationAccount) : byAccountPriority a b ∨ byAccountPriority b a := by
  unfold byAccountPriority
  omega

theorem byAccountPriority_trans (a b c : RotationAccount) (hab : byAccountPriority a b) (hbc : byAccountPriority b c) :
    byAccountPriority a c := by
  unfold byAccountPriority at *
  omega

theorem sorted_queryAccountsByHealth (checkRateLimit : Bool) :
    (queryAccountsByHealth accounts now providerId healthStatus checkRateLimit).Pairwise byAccountPriority := by
  have : Std.Total byAccountPriority := ⟨byAccountPriority_total⟩
  have : IsTrans RotationAccount byAccountPriority := ⟨byAccountPriority_trans⟩
  exact List.pairwise_insertionSort byAccountPriority _

theorem mem_queryAccountsByHealth {checkRateLimit : Bool} {a : RotationAccount} :
    a ∈ queryAccountsByHealth accounts now providerId healthStatus checkRateLimit ↔
      a ∈ accounts.rows ∧ a.providerId = providerId ∧ a.active = true ∧ a.healthStatus = healthStatus ∧
        (checkRateLimit = true → notRateLimited now a = true) := by
  unfold queryAccountsByHealth
  rw [(List.perm_insertionSort byAccountPriority _).mem_iff, List.mem_filter]
  cases checkRateLimit <;> simp [and_assoc]

theorem nodup_queryAccountsByHealth (checkRateLimit : Bool) :
    ((queryAccountsByHealth accounts now providerId healthStatus checkRateLimit).map (·.id)).Nodup := by
  have hperm := (List.perm_insertionSort byAccountPriority (accounts.rows.filter fun a =>
    decide (a.providerId = providerId) && a.active && decide (a.healthStatus = healthStatus) &&
      (!checkRateLimit || notRateLimited now a))).map (·.id)
  exact hperm.nodup_iff.2 (accounts.ids.sublist (List.filter_sublist.map _))

/-- The accounts of a class are those that are not rate limited, or all of them if there is no such one. -/
theorem mem_fetchAccountsOfClass {a : RotationAccount} :
    a ∈ fetchAccountsOfClass accounts now providerId healthStatus ↔
      a ∈ accounts.rows ∧ a.providerId = providerId ∧ a.active = true ∧ a.healthStatus = healthStatus ∧
        (notRateLimited now a = true ∨ ∀ b ∈ accounts.rows, b.providerId = providerId → b.active = true →
          b.healthStatus = healthStatus → notRateLimited now b = false) := by
  unfold fetchAccountsOfClass
  dsimp only
  split
  · rename_i hnone
    have hall : ∀ b ∈ accounts.rows, b.providerId = providerId → b.active = true → b.healthStatus = healthStatus →
        notRateLimited now b = false := by
      intro b hb hprovider hactive hstatus
      rw [← Bool.not_eq_true]
      intro hfree
      have hmem : b ∈ queryAccountsByHealth accounts now providerId healthStatus true :=
        mem_queryAccountsByHealth.2 ⟨hb, hprovider, hactive, hstatus, fun _ => hfree⟩
      rw [hnone] at hmem
      exact List.not_mem_nil hmem
    rw [mem_queryAccountsByHealth]
    constructor
    · rintro ⟨hrow, hprovider, hactive, hstatus, -⟩
      exact ⟨hrow, hprovider, hactive, hstatus, Or.inr hall⟩
    · rintro ⟨hrow, hprovider, hactive, hstatus, -⟩
      exact ⟨hrow, hprovider, hactive, hstatus, fun h => absurd h (by decide)⟩
  · rename_i hsome
    obtain ⟨b, hb⟩ := List.exists_mem_of_ne_nil _ hsome
    obtain ⟨hb, hprovider, hactive, hstatus, hfree⟩ := mem_queryAccountsByHealth.1 hb
    have hnot : ¬ ∀ b ∈ accounts.rows, b.providerId = providerId → b.active = true → b.healthStatus = healthStatus →
        notRateLimited now b = false := by
      intro hall
      have hlimited := hall b hb hprovider hactive hstatus
      rw [hfree rfl] at hlimited
      cases hlimited
    rw [mem_queryAccountsByHealth]
    simp [hnot]

theorem sorted_fetchAccountsOfClass :
    (fetchAccountsOfClass accounts now providerId healthStatus).Pairwise byHealthPriority := by
  have hquery : ∀ checkRateLimit,
      (queryAccountsByHealth accounts now providerId healthStatus checkRateLimit).Pairwise byHealthPriority := by
    intro checkRateLimit
    refine (sorted_queryAccountsByHealth checkRateLimit).imp_of_mem fun ha hb hab => Or.inr ⟨?_, hab⟩
    rw [(mem_queryAccountsByHealth.1 ha).2.2.2.1, (mem_queryAccountsByHealth.1 hb).2.2.2.1]
  unfold fetchAccountsOfClass
  dsimp only
  split
  · exact hquery false
  · exact hquery true

theorem nodup_fetchAccountsOfClass :
    ((fetchAccountsOfClass accounts now providerId healthStatus).map (·.id)).Nodup := by
  unfold fetchAccountsOfClass
  dsimp only
  split
  · exact nodup_queryAccountsByHealth false
  · exact nodup_queryAccountsByHealth true

/-! ### All accounts -/

theorem mem_fetchAccountsByHealthPriority {a : RotationAccount} :
    a ∈ fetchAccountsByHealthPriority accounts now providerId ↔
      a ∈ accounts.rows ∧ a.providerId = providerId ∧ a.active = true ∧
        (notRateLimited now a = true ∨ ∀ b ∈ accounts.rows, b.providerId = providerId → b.active = true →
          b.healthStatus = a.healthStatus → notRateLimited now b = false) := by
  unfold fetchAccountsByHealthPriority
  rw [List.mem_append, List.mem_append, mem_fetchAccountsOfClass, mem_fetchAccountsOfClass, mem_fetchAccountsOfClass]
  cases hstatus : a.healthStatus <;> simp

/-- Two accounts of the table with one id are the same. -/
private theorem eq_of_id {a b : RotationAccount} (ha : a ∈ accounts.rows) (hb : b ∈ accounts.rows) (h : a.id = b.id) :
    a = b := List.inj_on_of_nodup_map accounts.ids ha hb h

theorem sorted_fetchAccountsByHealthPriority :
    (fetchAccountsByHealthPriority accounts now providerId).Pairwise byHealthPriority := by
  have hrank : ∀ {status status' : HealthStatus}, status.rank < status'.rank →
      ∀ a ∈ fetchAccountsOfClass accounts now providerId status,
        ∀ b ∈ fetchAccountsOfClass accounts now providerId status', byHealthPriority a b := by
    intro status status' hlt a ha b hb
    have hsa := (mem_fetchAccountsOfClass.1 ha).2.2.2.1
    have hsb := (mem_fetchAccountsOfClass.1 hb).2.2.2.1
    exact Or.inl (by rwa [hsa, hsb])
  unfold fetchAccountsByHealthPriority
  refine List.pairwise_append.2 ⟨List.pairwise_append.2 ⟨sorted_fetchAccountsOfClass, sorted_fetchAccountsOfClass,
    hrank (by decide)⟩, sorted_fetchAccountsOfClass, fun a ha b hb => ?_⟩
  rcases List.mem_append.1 ha with ha | ha
  · exact hrank (by decide) a ha b hb
  · exact hrank (by decide) a ha b hb

theorem nodup_fetchAccountsByHealthPriority :
    ((fetchAccountsByHealthPriority accounts now providerId).map (·.id)).Nodup := by
  have hdisjoint : ∀ {status status' : HealthStatus}, status ≠ status' →
      ∀ a ∈ fetchAccountsOfClass accounts now providerId status,
        ∀ b ∈ fetchAccountsOfClass accounts now providerId status', a.id ≠ b.id := by
    intro status status' hne a ha b hb hid
    obtain ⟨hra, -, -, hsa, -⟩ := mem_fetchAccountsOfClass.1 ha
    obtain ⟨hrb, -, -, hsb, -⟩ := mem_fetchAccountsOfClass.1 hb
    rw [eq_of_id hra hrb hid] at hsa
    exact hne (hsa.symm.trans hsb)
  have hmap : ∀ {l l' : List RotationAccount}, (∀ a ∈ l, ∀ b ∈ l', a.id ≠ b.id) →
      ∀ i ∈ l.map (·.id), ∀ j ∈ l'.map (·.id), i ≠ j := by
    intro l l' h i hi j hj
    obtain ⟨a, ha, rfl⟩ := List.mem_map.1 hi
    obtain ⟨b, hb, rfl⟩ := List.mem_map.1 hj
    exact h a ha b hb
  unfold fetchAccountsByHealthPriority
  rw [List.map_append, List.map_append]
  refine List.nodup_append.2 ⟨List.nodup_append.2 ⟨nodup_fetchAccountsOfClass, nodup_fetchAccountsOfClass,
    hmap (hdisjoint (by decide))⟩, nodup_fetchAccountsOfClass, ?_⟩
  rw [← List.map_append]
  refine hmap fun a ha b hb => ?_
  rcases List.mem_append.1 ha with ha | ha
  · exact hdisjoint (by decide) a ha b hb
  · exact hdisjoint (by decide) a ha b hb

/-! ### The result -/

/-- The accounts that a target is copied for. -/
def candidates (accounts : RotationAccounts) (now : Timestamp) (target : ComboTarget) : List RotationAccount :=
  (fetchAccountsByHealthPriority accounts now target.providerId).filter (isAllowed target)

theorem expandSingleTargetRotation_flat (hsub : target.subComboId = none) (haccount : target.accountId = none) :
    expandSingleTargetRotation accounts now target =
      if candidates accounts now target = [] ∧ target.selectedAccounts = none ∧
        ∀ a ∈ accounts.rows, a.providerId ≠ target.providerId then [target]
      else (candidates accounts now target).map fun a => { target with accountId := some a.id } := by
  unfold expandSingleTargetRotation
  rw [hsub, haccount]
  simp only [Option.isSome_none, Bool.false_eq_true, if_false]
  cases hselected : target.selectedAccounts with
  | none =>
    have hcandidates : candidates accounts now target = fetchAccountsByHealthPriority accounts now target.providerId := by
      unfold candidates
      rw [List.filter_eq_self]
      intro a _
      simp [isAllowed, hselected]
    rw [hcandidates]
    by_cases hempty : fetchAccountsByHealthPriority accounts now target.providerId = []
    · simp only [hempty, if_true, Option.isSome_none, Bool.false_eq_true, if_false, List.map_nil, true_and]
      by_cases hany : ∀ a ∈ accounts.rows, a.providerId ≠ target.providerId
      · rw [if_pos hany, if_neg]
        simpa using hany
      · rw [if_neg hany, if_pos]
        simpa using hany
    · simp [hempty]
  | some allowed =>
    have hcandidates : candidates accounts now target = if allowed = [] then []
        else (fetchAccountsByHealthPriority accounts now target.providerId).filter fun a => allowed.contains a.id := by
      unfold candidates isAllowed
      rw [hselected]
      split
      · rename_i hnil
        rw [hnil]
        exact List.filter_eq_nil_iff.2 fun a _ => by simp
      · rfl
    simp only [← hcandidates, Option.isSome_some, if_true, reduceCtorEq, false_and, and_false, if_false]
    split
    · rename_i hnil
      rw [hnil, List.map_nil]
    · rfl

theorem mem_candidates {a : RotationAccount} : a ∈ candidates accounts now target ↔
    a ∈ accounts.rows ∧ isEligible target a = true ∧ (notRateLimited now a = true ∨
      ∀ b ∈ accounts.rows, b.providerId = target.providerId → b.active = true → b.healthStatus = a.healthStatus →
        notRateLimited now b = false) := by
  unfold candidates isEligible
  rw [List.mem_filter, mem_fetchAccountsByHealthPriority]
  simp only [Bool.and_eq_true, decide_eq_true_eq]
  constructor
  · rintro ⟨⟨hrow, hprovider, hactive, hlimit⟩, hallowed⟩
    exact ⟨hrow, ⟨⟨hprovider, hactive⟩, hallowed⟩, hlimit⟩
  · rintro ⟨hrow, ⟨⟨hprovider, hactive⟩, hallowed⟩, hlimit⟩
    exact ⟨⟨hrow, hprovider, hactive, hlimit⟩, hallowed⟩

/-- Whatever the accounts are, the copies are in order and for eligible accounts. -/
theorem orderedRotation_candidates (hsub : target.subComboId = none) (haccount : target.accountId = none) :
    OrderedRotation accounts target (candidates accounts now target)
      (expandSingleTargetRotation accounts now target) where
  copies := by
    rw [expandSingleTargetRotation_flat hsub haccount]
    split
    · rename_i h
      exact Or.inr ⟨rfl, h.1, h.2.1, h.2.2⟩
    · exact Or.inl rfl
  nodup := nodup_fetchAccountsByHealthPriority.sublist (List.filter_sublist.map _)
  eligible a ha := ⟨(mem_candidates.1 ha).1, (mem_candidates.1 ha).2.1⟩
  ordered := sorted_fetchAccountsByHealthPriority.filter _

/-- The accounts can be read off the copies. -/
theorem OrderedRotation.eq_candidates {emitted : List RotationAccount} (hsub : target.subComboId = none)
    (haccount : target.accountId = none)
    (h : OrderedRotation accounts target emitted (expandSingleTargetRotation accounts now target)) :
    emitted = candidates accounts now target := by
  have hids : ∀ l : List RotationAccount,
      (l.map fun a => { target with accountId := some a.id }).map (·.accountId) = l.map fun a => some a.id := by
    intro l
    rw [List.map_map]
    rfl
  have hcand := @orderedRotation_candidates accounts now target hsub haccount
  have heq : emitted.map (fun a => some a.id) = (candidates accounts now target).map fun a => some a.id := by
    rcases h.copies with h1 | ⟨h1, h2, h3, h4⟩
    · rcases hcand.copies with h2 | ⟨h2, h3, h4, h5⟩
      · rw [← hids, ← hids, ← h1, ← h2]
      · have hself := congrArg (List.map (·.accountId)) (h1.symm.trans h2)
        rw [hids, List.map_singleton, haccount] at hself
        obtain ⟨a, -, ha⟩ := List.mem_map.1 (hself ▸ List.mem_singleton_self none :
          (none : Option Int) ∈ emitted.map fun a => some a.id)
        cases ha
    · rcases hcand.copies with h5 | ⟨h5, h6, -⟩
      · have hself := congrArg (List.map (·.accountId)) (h5.symm.trans h1)
        rw [hids, List.map_singleton, haccount] at hself
        obtain ⟨a, -, ha⟩ := List.mem_map.1 (hself ▸ List.mem_singleton_self none :
          (none : Option Int) ∈ (candidates accounts now target).map fun a => some a.id)
        cases ha
      · rw [h2, h6]
  have hinj : ∀ l l' : List RotationAccount, (∀ a ∈ l, a ∈ accounts.rows) → (∀ a ∈ l', a ∈ accounts.rows) →
      l.map (fun a => some a.id) = l'.map (fun a => some a.id) → l = l' := by
    intro l
    induction l with
    | nil =>
      intro l' _ _ h
      exact (List.map_eq_nil_iff.1 h.symm).symm
    | cons a l ih =>
      intro l' hl hl' h
      cases l' with
      | nil => cases h
      | cons b l' =>
        injection h with hab hrest
        rw [eq_of_id (hl a List.mem_cons_self) (hl' b List.mem_cons_self) (Option.some_inj.1 hab),
          ih l' (fun x hx => hl x (List.mem_cons_of_mem _ hx)) (fun x hx => hl' x (List.mem_cons_of_mem _ hx)) hrest]
  exact hinj _ _ (fun a ha => (h.eligible a ha).1) (fun a ha => (hcand.eligible a ha).1) heq

/-- The rotation of a target without an account is complete exactly where each class with an eligible account has an
eligible one that is not rate limited, or where all active accounts of the provider in the class are rate limited. -/
theorem completeRotation_iff (accounts : RotationAccounts) (now : Timestamp) (target : ComboTarget)
    (hsub : target.subComboId = none) (haccount : target.accountId = none) :
    CompleteRotation accounts now target ↔
      ∀ status, (∃ a ∈ accounts.rows, isEligible target a = true ∧ a.healthStatus = status) →
        (∃ a ∈ accounts.rows, isEligible target a = true ∧ a.healthStatus = status ∧ notRateLimited now a = true) ∨
        ∀ a ∈ accounts.rows, a.providerId = target.providerId → a.active = true → a.healthStatus = status →
          notRateLimited now a = false := by
  constructor
  · rintro ⟨emitted, hordered, hclass⟩ status hstatus
    obtain ⟨⟨a, ha, rfl⟩, -⟩ := hclass status hstatus
    rw [hordered.eq_candidates hsub haccount] at ha
    obtain ⟨hrow, heligible, hfree | hall⟩ := mem_candidates.1 ha
    · exact Or.inl ⟨a, hrow, heligible, rfl, hfree⟩
    · exact Or.inr hall
  · intro h
    refine ⟨candidates accounts now target, orderedRotation_candidates hsub haccount, fun status hstatus => ?_⟩
    rcases h status hstatus with ⟨a, hrow, heligible, hastatus, hfree⟩ | hall
    · refine ⟨⟨a, mem_candidates.2 ⟨hrow, heligible, Or.inl hfree⟩, hastatus⟩, fun hlimited => ?_⟩
      have hcontra := hlimited a hrow heligible hastatus
      rw [hfree] at hcontra
      cases hcontra
    · have hemitted : ∀ a ∈ accounts.rows, isEligible target a = true → a.healthStatus = status →
          a ∈ candidates accounts now target := by
        intro a hrow heligible hastatus
        refine mem_candidates.2 ⟨hrow, heligible, Or.inr ?_⟩
        rw [hastatus]
        exact hall
      obtain ⟨a, hrow, heligible, hastatus⟩ := hstatus
      exact ⟨⟨a, hemitted a hrow heligible hastatus, hastatus⟩, fun _ => hemitted⟩

end

/-- A rate-limited account and one that is not. -/
def twoAccounts : RotationAccounts where
  rows := [⟨1, ['p'], true, .healthy, some ⟨2999, 1, 1, 0, 0, 0, 0, by decide⟩, 10⟩, ⟨2, ['p'], true, .healthy, none, 20⟩]
  ids := by decide

/-- A target with the accounts that it may use. -/
def selectingTarget (selectedAccounts : Option (List Int)) : ComboTarget :=
  { id := 1, comboId := 1, providerId := ['p'], accountId := none, modelRowId := some 1, subComboId := none
    priorityOrder := 1, weight := 1, active := true, rateLimitScope := .account, cooldownMode := none
    cooldownBaseSecs := none, cooldownMaxSecs := none, cooldownFactor := none, thinkingEffort := none
    description := none, selectedAccounts := selectedAccounts, clientProfile := none, inheritedTargetId := none }

theorem completeRotation_twoAccounts :
    CompleteRotation twoAccounts ⟨2026, 1, 1, 0, 0, 0, 0, by decide⟩ (selectingTarget none) := by
  refine (completeRotation_iff twoAccounts ⟨2026, 1, 1, 0, 0, 0, 0, by decide⟩ (selectingTarget none) rfl rfl).2 ?_
  rintro status ⟨a, ha, -, rfl⟩
  have hfree : ∀ a ∈ twoAccounts.rows, ∃ b ∈ twoAccounts.rows, isEligible (selectingTarget none) b = true ∧
      b.healthStatus = a.healthStatus ∧ notRateLimited ⟨2026, 1, 1, 0, 0, 0, 0, by decide⟩ b = true := by decide
  exact Or.inl (hfree a ha)

/-- The only account that the target may use is rate limited, and another one of the provider keeps it from being used. -/
theorem completeRotation_selected : ¬ ∀ accounts now target, target.subComboId = none → target.accountId = none →
    CompleteRotation accounts now target := by
  intro h
  obtain ⟨emitted, hordered, hclass⟩ :=
    h twoAccounts ⟨2026, 1, 1, 0, 0, 0, 0, by decide⟩ (selectingTarget (some [1])) rfl rfl
  have hnone : candidates twoAccounts ⟨2026, 1, 1, 0, 0, 0, 0, by decide⟩ (selectingTarget (some [1])) = [] := by
    decide +kernel
  obtain ⟨⟨a, ha, -⟩, -⟩ := hclass .healthy (by decide)
  rw [hordered.eq_candidates rfl rfl, hnone] at ha
  exact List.not_mem_nil ha

end OpenProxy.Combos
