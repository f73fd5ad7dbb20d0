import OpenProxy.Limits.CircuitBreaker

/-!
# The lazy expiry of the circuit breaker

The breaker differs from the reference breaker only in entries whose unhealthy time is over and that have not been asked
for since.  A query or a success resets such an entry, and `force_unhealthy` overwrites it; only a failure is counted in
the old state.  So the results are those of the reference breaker if and only if no failure is recorded there.
-/

namespace OpenProxy.Limits

namespace AccountBreaker

variable {b : AccountBreaker} {t t' : Nat}

theorem isExpired_iff : b.isExpired t = true ↔ b.state = .unhealthy ∧ ∃ until' ∈ b.unhealthyUntil, until' ≤ t := by
  unfold isExpired
  cases b.unhealthyUntil <;> simp

@[simp] theorem isExpired_fresh (t : Nat) : fresh.isExpired t = false := rfl

@[simp] theorem expire_fresh (t : Nat) : fresh.expire t = fresh := rfl

theorem isExpired_mono (h : b.isExpired t = true) (hle : t ≤ t') : b.isExpired t' = true := by
  rw [isExpired_iff] at h ⊢
  obtain ⟨hstate, until', hmem, huntil⟩ := h
  exact ⟨hstate, until', hmem, huntil.trans hle⟩

theorem expire_of_not (h : b.isExpired t = false) : b.expire t = b := by simp [expire, h]

theorem expire_of_isExpired (h : b.isExpired t = true) : b.expire t = fresh := by simp [expire, h]

theorem expire_expire (hle : t ≤ t') : (b.expire t).expire t' = b.expire t' := by
  cases h : b.isExpired t with
  | true => rw [expire_of_isExpired h, expire_of_isExpired (isExpired_mono h hle), expire_fresh]
  | false => rw [expire_of_not h]

theorem isExpired_expire (b : AccountBreaker) (t : Nat) : (b.expire t).isExpired t = false := by
  cases h : b.isExpired t with
  | true => rw [expire_of_isExpired h, isExpired_fresh]
  | false => rw [expire_of_not h, h]

theorem isExpired_forced (threshold : UInt8) {duration : Nat} (h : 0 < duration) (t : Nat) :
    (forced threshold duration t).isExpired t = false := by
  rw [← Bool.not_eq_true, isExpired_iff]
  rintro ⟨-, until', hmem, hle⟩
  cases hmem
  omega

theorem isExpired_countFailure (threshold : UInt8) {duration : Nat} (h : 0 < duration)
    (hb : b.isExpired t = false) : (b.countFailure threshold duration t).2.isExpired t = false := by
  unfold countFailure
  dsimp only
  split
  · exact isExpired_forced _ h t
  · exact hb

/-- A failure that comes too late is counted in an open breaker, but the reference breaker is closed. -/
theorem countFailure_of_isExpired (threshold : UInt8) (duration : Nat) (h : b.isExpired t = true) :
    (b.countFailure threshold duration t).1 ≠ (fresh.countFailure threshold duration t).1 := by
  have hstate : b.state = .unhealthy := (isExpired_iff.mp h).1
  have hlate : (b.countFailure threshold duration t).1.health = .unhealthy ∧
      (b.countFailure threshold duration t).1.justOpened = false := by
    simp [countFailure, hstate]
  intro heq
  rw [heq] at hlate
  obtain ⟨hhealth, hopened⟩ := hlate
  have hclosed : ¬ threshold ≤ saturatingSucc fresh.consecutiveFailures := by
    intro hle
    simp only [countFailure, decide_eq_false_iff_not] at hopened
    exact hopened ⟨hle, by decide⟩
  have : ¬ (threshold ≤ saturatingSucc fresh.consecutiveFailures ∧ fresh.state ≠ .unhealthy) := fun h => hclosed h.1
  simp only [countFailure, if_neg this] at hhealth
  exact absurd hhealth (by decide)

end AccountBreaker

namespace CircuitBreakerRegistry

variable {r r' : CircuitBreakerRegistry} {ref : ReferenceBreaker} {c : TimedCall}

/-- The entry of a key. -/
def entry (r : CircuitBreakerRegistry) (key : CircuitBreakerKey) : AccountBreaker := (r.inner.lookup key).getD .fresh

theorem entry_set (r : CircuitBreakerRegistry) (key key' : CircuitBreakerKey) (b : AccountBreaker) :
    (r.set key b).entry key' = if key' = key then b else r.entry key' := by
  unfold entry set
  rw [Table.lookup_insert_eq]
  split <;> rfl

/-- The entry that an operation acts on: all but the count of a failure notice the end of the unhealthy time. -/
def noticed (r : CircuitBreakerRegistry) (c : TimedCall) : AccountBreaker :=
  if c.call = .recordFailureOutcome then r.entry c.key else (r.entry c.key).expire c.now

theorem isHealthy_spec (r : CircuitBreakerRegistry) (key : CircuitBreakerKey) (now : Nat) :
    (r.isHealthy key now).2 = ((r.entry key).expire now).state ∧
      ∀ key', (r.isHealthy key now).1.entry key' = if key' = key then (r.entry key).expire now else r.entry key' := by
  have hsame : (r.entry key).expire now = r.entry key →
      ∀ key', r.entry key' = if key' = key then (r.entry key).expire now else r.entry key' := by
    intro h key'
    split
    · rename_i hkey
      rw [h, hkey]
    · rfl
  unfold isHealthy
  cases hlook : r.inner.lookup key with
  | none =>
    have hentry : r.entry key = .fresh := by simp [entry, hlook]
    refine ⟨by rw [hentry]; rfl, hsame (by rw [hentry]; rfl)⟩
  | some b =>
    have hentry : r.entry key = b := by simp [entry, hlook]
    dsimp only
    split
    · rename_i hhealthy
      have hnot : b.isExpired now = false := by simp [AccountBreaker.isExpired, hhealthy]
      rw [hentry, AccountBreaker.expire_of_not hnot] at hsame ⊢
      exact ⟨hhealthy.symm, hsame rfl⟩
    · split
      · rename_i hexp
        rw [hentry, AccountBreaker.expire_of_isExpired hexp]
        exact ⟨rfl, fun key' => entry_set _ _ _ _⟩
      · rename_i hexp
        rw [Bool.not_eq_true] at hexp
        rw [hentry, AccountBreaker.expire_of_not hexp] at hsame ⊢
        exact ⟨rfl, hsame rfl⟩

theorem recordSuccess_spec (r : CircuitBreakerRegistry) (key key' : CircuitBreakerKey) :
    (r.recordSuccess key).entry key' = if key' = key then .fresh else r.entry key' := by
  unfold recordSuccess
  cases hlook : r.inner.lookup key with
  | none =>
    dsimp only
    split
    · rename_i hkey
      rw [hkey, entry, hlook]
      rfl
    · rfl
  | some b => exact entry_set _ _ _ _

theorem step_spec (r : CircuitBreakerRegistry) (c : TimedCall) :
    (r.step c).2 = ((r.noticed c).act r.threshold r.unhealthyDuration c.now c.call).2 ∧
      ∀ key, (r.step c).1.entry key = if key = c.key then
        ((r.noticed c).act r.threshold r.unhealthyDuration c.now c.call).1 else r.entry key := by
  unfold step noticed
  cases c.call with
  | isHealthy =>
    obtain ⟨hres, hentry⟩ := isHealthy_spec r c.key c.now
    exact ⟨by rw [hres]; rfl, hentry⟩
  | recordSuccess => exact ⟨rfl, recordSuccess_spec r c.key⟩
  | recordFailureOutcome => exact ⟨rfl, fun key => entry_set _ _ _ _⟩
  | forceUnhealthy => exact ⟨rfl, fun key => entry_set _ _ _ _⟩

theorem step_parameters (r : CircuitBreakerRegistry) (c : TimedCall) :
    (r.step c).1.threshold = r.threshold ∧ (r.step c).1.unhealthyDuration = r.unhealthyDuration := by
  unfold step isHealthy recordSuccess
  cases c.call with
  | isHealthy =>
    dsimp only
    split
    · exact ⟨rfl, rfl⟩
    · split
      · exact ⟨rfl, rfl⟩
      · split <;> exact ⟨rfl, rfl⟩
  | recordSuccess =>
    dsimp only
    split <;> exact ⟨rfl, rfl⟩
  | recordFailureOutcome => exact ⟨rfl, rfl⟩
  | forceUnhealthy => exact ⟨rfl, rfl⟩

/-- No failure is recorded in an entry whose unhealthy time is over. -/
def OnTime (r : CircuitBreakerRegistry) (c : TimedCall) : Prop :=
  c.call = .recordFailureOutcome → (r.entry c.key).isExpired c.now = false

instance (r : CircuitBreakerRegistry) (c : TimedCall) : Decidable (OnTime r c) := inferInstanceAs (Decidable (_ → _))

/-! ### The reference breaker -/

/-- The registry is the reference breaker up to the entries that are over. -/
structure Agrees (now : Nat) (r : CircuitBreakerRegistry) (ref : ReferenceBreaker) : Prop where
  entry : ∀ key, (r.entry key).expire now = ref.entry key
  threshold : ref.threshold = r.threshold
  duration : ref.unhealthyDuration = r.unhealthyDuration

theorem new_agrees (threshold : UInt8) (duration : Nat) :
    Agrees 0 (new threshold duration) (.new threshold duration) := ⟨fun _ => rfl, rfl, rfl⟩

/-- What is done to a breaker that is up to date is not over at once. -/
theorem isExpired_act {b : AccountBreaker} {now : Nat} (threshold : UInt8) {duration : Nat} (hdur : 0 < duration)
    (h : b.isExpired now = false) (call : BreakerCall) : (b.act threshold duration now call).1.isExpired now = false := by
  cases call with
  | isHealthy => exact h
  | recordSuccess => rfl
  | recordFailureOutcome => exact AccountBreaker.isExpired_countFailure threshold hdur h
  | forceUnhealthy => exact AccountBreaker.isExpired_forced threshold hdur now

theorem noticed_of_onTime (h : OnTime r c) : r.noticed c = (r.entry c.key).expire c.now := by
  unfold noticed
  split
  · rename_i hcall
    rw [AccountBreaker.expire_of_not (h hcall)]
  · rfl

/-- A step that is on time. -/
theorem Agrees.step {now : Nat} (h : Agrees now r ref) (hle : now ≤ c.now) (hdur : 0 < r.unhealthyDuration)
    (htime : OnTime r c) : (r.step c).2 = (ref.step c).2 ∧ Agrees c.now (r.step c).1 (ref.step c).1 := by
  have hentry : ∀ key, (ref.entry key).expire c.now = (r.entry key).expire c.now := by
    intro key
    rw [← h.entry, AccountBreaker.expire_expire hle]
  obtain ⟨hres, hupd⟩ := step_spec r c
  obtain ⟨hthr, hdur'⟩ := step_parameters r c
  rw [noticed_of_onTime htime] at hres hupd
  have hdone : ((ref.entry c.key).expire c.now).act ref.threshold ref.unhealthyDuration c.now c.call =
      ((r.entry c.key).expire c.now).act r.threshold r.unhealthyDuration c.now c.call := by
    rw [hentry, h.threshold, h.duration]
  refine ⟨?_, ⟨fun key => ?_, ?_, ?_⟩⟩
  · rw [hres, ← hdone]
    rfl
  · rw [hupd]
    show _ = if key = c.key then _ else _
    split
    · rw [hdone, AccountBreaker.expire_of_not]
      exact isExpired_act _ hdur (AccountBreaker.isExpired_expire _ _) _
    · exact (hentry key).symm
  · rw [hthr]
    exact h.threshold
  · rw [hdur']
    exact h.duration

/-- A failure that is recorded too late. -/
theorem Agrees.late {now : Nat} (h : Agrees now r ref) (hle : now ≤ c.now) (htime : ¬ OnTime r c) :
    (r.step c).2 ≠ (ref.step c).2 := by
  unfold OnTime at htime
  rw [Classical.not_imp, Bool.not_eq_false] at htime
  obtain ⟨hcall, hexp⟩ := htime
  have hfresh : (ref.entry c.key).expire c.now = .fresh := by
    rw [← h.entry, AccountBreaker.expire_expire hle, AccountBreaker.expire_of_isExpired hexp]
  have hres : (r.step c).2 =
      .failure ((r.entry c.key).countFailure r.threshold r.unhealthyDuration c.now).1 := by
    rw [(step_spec r c).1, noticed, if_pos hcall, hcall]
    rfl
  have hres' : (ref.step c).2 = .failure (AccountBreaker.fresh.countFailure r.threshold r.unhealthyDuration c.now).1 := by
    unfold ReferenceBreaker.step
    rw [hfresh, hcall, h.threshold, h.duration]
    rfl
  rw [hres, hres']
  intro heq
  exact AccountBreaker.countFailure_of_isExpired _ _ hexp (BreakerResult.failure.inj heq)

theorem outputs_eq_iff_allSteps {now : Nat} {calls : List TimedCall} (h : Agrees now r ref)
    (hdur : 0 < r.unhealthyDuration) (hfrom : ∀ c ∈ calls, now ≤ c.now)
    (hsorted : calls.Pairwise fun a b => a.now ≤ b.now) :
    outputs CircuitBreakerRegistry.step r calls = outputs ReferenceBreaker.step ref calls ↔
      AllSteps CircuitBreakerRegistry.step OnTime r calls := by
  induction calls generalizing r ref now with
  | nil => simp [outputs, AllSteps]
  | cons c calls ih =>
    have hle : now ≤ c.now := hfrom c List.mem_cons_self
    rw [List.pairwise_cons] at hsorted
    simp only [outputs, AllSteps, List.cons.injEq]
    by_cases htime : OnTime r c
    · obtain ⟨hres, hagrees⟩ := h.step hle hdur htime
      have hdur' : 0 < (r.step c).1.unhealthyDuration := by
        rw [(step_parameters r c).2]
        exact hdur
      rw [ih hagrees hdur' hsorted.1 hsorted.2]
      exact and_congr_left fun _ => iff_of_true hres htime
    · exact iff_of_false (fun heq => h.late hle htime heq.1) fun hall => htime hall.1

/-! ### Another query -/

/-- Some entries that are over have been reset. -/
def Ahead (now : Nat) (r' r : CircuitBreakerRegistry) : Prop :=
  (∀ key, r'.entry key = r.entry key ∨ ((r.entry key).isExpired now = true ∧ r'.entry key = .fresh)) ∧
    r'.threshold = r.threshold ∧ r'.unhealthyDuration = r.unhealthyDuration

theorem Ahead.step {now : Nat} (h : Ahead now r' r) (hle : now ≤ c.now) (htime : OnTime r c) :
    (r'.step c).2 = (r.step c).2 ∧ Ahead c.now (r'.step c).1 (r.step c).1 := by
  obtain ⟨hentry, hthr, hdur⟩ := h
  obtain ⟨hres, hupd⟩ := step_spec r c
  obtain ⟨hres', hupd'⟩ := step_spec r' c
  have hnoticed : r'.noticed c = r.noticed c := by
    unfold noticed
    rcases hentry c.key with heq | ⟨hexp, heq⟩
    · rw [heq]
    · have hlate := AccountBreaker.isExpired_mono hexp hle
      split
      · rename_i hcall
        rw [htime hcall] at hlate
        exact absurd hlate (by simp)
      · rw [heq, AccountBreaker.expire_fresh, AccountBreaker.expire_of_isExpired hlate]
  rw [hnoticed, hthr, hdur] at hres' hupd'
  refine ⟨hres'.trans hres.symm, fun key => ?_, ?_, ?_⟩
  · rw [hupd, hupd']
    split
    · exact .inl rfl
    · rcases hentry key with heq | ⟨hexp, heq⟩
      · exact .inl heq
      · exact .inr ⟨AccountBreaker.isExpired_mono hexp hle, heq⟩
  · rw [(step_parameters r' c).1, (step_parameters r c).1, hthr]
  · rw [(step_parameters r' c).2, (step_parameters r c).2, hdur]

theorem Ahead.outputs {now : Nat} {calls : List TimedCall} (h : Ahead now r' r) (hfrom : ∀ c ∈ calls, now ≤ c.now)
    (hsorted : calls.Pairwise fun a b => a.now ≤ b.now) (hall : AllSteps CircuitBreakerRegistry.step OnTime r calls) :
    outputs CircuitBreakerRegistry.step r' calls = outputs CircuitBreakerRegistry.step r calls := by
  induction calls generalizing r r' now with
  | nil => rfl
  | cons c calls ih =>
    rw [List.pairwise_cons] at hsorted
    obtain ⟨hres, hahead⟩ := h.step (hfrom c List.mem_cons_self) hall.1
    simp only [OpenProxy.outputs, hres, ih hahead hsorted.1 hsorted.2 hall.2]

theorem isHealthy_ahead (hcall : c.call = .isHealthy) : Ahead c.now (r.step c).1 r := by
  obtain ⟨-, hupd⟩ := step_spec r c
  obtain ⟨hthr, hdur⟩ := step_parameters r c
  refine ⟨fun key => ?_, hthr, hdur⟩
  rw [hupd]
  split
  · rename_i hkey
    have hsame : ((r.noticed c).act r.threshold r.unhealthyDuration c.now c.call).1 = (r.entry c.key).expire c.now := by
      simp [noticed, hcall, AccountBreaker.act]
    rw [hkey, hsame]
    cases hexp : (r.entry c.key).isExpired c.now with
    | true => exact .inr ⟨rfl, AccountBreaker.expire_of_isExpired hexp⟩
    | false => exact .inl (AccountBreaker.expire_of_not hexp)
  · exact .inl rfl

/-- The results are those of the reference breaker, and a query that is inserted anywhere changes no later result. -/
def Unobservable (threshold : UInt8) (unhealthyDuration : Nat) (calls : List TimedCall) : Prop :=
  outputs step (new threshold unhealthyDuration) calls =
      outputs ReferenceBreaker.step (.new threshold unhealthyDuration) calls ∧
    ∀ before after query, calls = before ++ after → query.call = .isHealthy →
      (∀ c ∈ before, c.now ≤ query.now) → (∀ c ∈ after, query.now ≤ c.now) →
      (outputs step (new threshold unhealthyDuration) (before ++ query :: after)).drop (before.length + 1) =
        (outputs step (new threshold unhealthyDuration) calls).drop before.length

/-- The lazy expiry is unobservable exactly if no failure is recorded in an entry whose unhealthy time is over. -/
theorem unobservable_iff (threshold : UInt8) (unhealthyDuration : Nat) (hdur : 0 < unhealthyDuration)
    (calls : List TimedCall) (hsorted : calls.Pairwise fun a b => a.now ≤ b.now) :
    Unobservable threshold unhealthyDuration calls ↔
      AllSteps step OnTime (new threshold unhealthyDuration) calls := by
  have hiff := outputs_eq_iff_allSteps (new_agrees threshold unhealthyDuration) hdur (fun _ _ => Nat.zero_le _) hsorted
  constructor
  · intro h
    exact hiff.mp h.1
  · intro hall
    refine ⟨hiff.mpr hall, ?_⟩
    rintro before after query rfl hcall - hafter
    rw [List.pairwise_append] at hsorted
    have hrest := (allSteps_append.mp hall).2
    have hlen : (outputs step (new threshold unhealthyDuration) before).length = before.length := length_outputs _ _
    rw [outputs_append, outputs_append, ← hlen, List.drop_left, List.drop_length_add_append]
    exact (isHealthy_ahead hcall).outputs hafter hsorted.2.1 hrest

/-- The calls of a breaker that is asked for its health before the next failure. -/
theorem unobservable_asked :
    Unobservable 2 10 [⟨0, .account 1, .recordFailureOutcome⟩, ⟨1, .account 1, .recordFailureOutcome⟩,
      ⟨11, .account 1, .isHealthy⟩, ⟨12, .account 1, .recordFailureOutcome⟩] := by
  refine (unobservable_iff 2 10 (by decide) _ (by decide)).mpr ?_
  simp only [AllSteps]
  decide

/-- A failure after the end of the unhealthy time is counted in the open breaker. -/
theorem unobservable_late :
    ¬ Unobservable 2 10 [⟨0, .account 1, .forceUnhealthy⟩, ⟨10, .account 1, .recordFailureOutcome⟩] := by
  intro h
  have : outputs step (new 2 10) [⟨0, .account 1, .forceUnhealthy⟩, ⟨10, .account 1, .recordFailureOutcome⟩] ≠
      outputs ReferenceBreaker.step (.new 2 10)
        [⟨0, .account 1, .forceUnhealthy⟩, ⟨10, .account 1, .recordFailureOutcome⟩] := by decide
  exact this h.1

end CircuitBreakerRegistry

end OpenProxy.Limits
