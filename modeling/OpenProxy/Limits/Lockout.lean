import OpenProxy.Limits.Probe

/-!
# No target is locked out

A key that is open or half open admits a request at the latest when the lease of its probe is over.  A closed key admits
one in its next window, if its burst is not zero by then: the burst of a window in which requests were counted grows, and
so does, after a while, that of a key that was rate limited once.  A burst of zero without either stays zero.
-/

namespace OpenProxy.Limits

namespace TargetPredictiveState

variable {s : TargetPredictiveState} {now t : Nat}

/-- A closed key whose burst stays zero. -/
def Locked (s : TargetPredictiveState) : Prop :=
  s.state = .closed ∧ s.learnedBurst = 0 ∧ s.windowCount = 0 ∧ s.last429AtMs = 0

instance (s : TargetPredictiveState) : Decidable s.Locked := inferInstanceAs (Decidable (_ ∧ _))

/-- What holds of a key at a time. -/
structure Ok (now : Nat) (s : TargetPredictiveState) : Prop where
  windowStart : s.windowStartMs ≤ now
  duration : s.windowDurationMs ≤ maxU32
  reset : s.resetAtMs ≤ now + maxOpenPenaltyMs
  last429 : s.last429AtMs ≤ now
  burst : s.learnedBurst ≤ maxU16
  count : s.windowCount ≤ maxU16
  streak : s.successStreak < probeSuccessThreshold
  alive : ¬ s.Locked

theorem default_ok (now : Nat) : Ok now default where
  windowStart := Nat.zero_le _
  duration := by decide
  reset := Nat.zero_le _
  last429 := Nat.zero_le _
  burst := by decide
  count := by decide
  streak := by decide
  alive := by decide

/-! ### The passage of time -/

theorem locked_startWindow (h : (s.startWindow now).Locked) : s.Locked := by
  unfold startWindow at h
  split at h
  · exact h
  · exact h

theorem locked_renewWindow (h : (s.renewWindow now).Locked) : s.Locked := by
  obtain ⟨hstate, hburst, -, h429⟩ := h
  have hstate' : s.state = .closed := hstate
  have hburst' : (if s.state = .closed ∧ 0 < s.windowCount ∧ s.learnedBurst < defaultBurstCapacity then
      min (s.learnedBurst + 2) defaultBurstCapacity else s.learnedBurst) = 0 := hburst
  split at hburst'
  · unfold defaultBurstCapacity at hburst'
    omega
  · rename_i hgrow
    rw [hburst'] at hgrow
    refine ⟨hstate', hburst', ?_, h429⟩
    by_contra hcount
    exact hgrow ⟨hstate', by omega, by decide⟩

theorem locked_memoryDecay (h : (s.applyMemoryDecayIfIdle now).Locked) : s.Locked := by
  unfold applyMemoryDecayIfIdle at h
  split at h
  · have hburst : min (s.learnedBurst + 5) defaultBurstCapacity = 0 := h.2.1
    unfold defaultBurstCapacity at hburst
    omega
  · exact h

theorem Ok.mono (h : Ok now s) (hle : now ≤ t) : Ok t s where
  windowStart := Nat.le_trans h.windowStart hle
  duration := h.duration
  reset := Nat.le_trans h.reset (Nat.add_le_add_right hle _)
  last429 := Nat.le_trans h.last429 hle
  burst := h.burst
  count := h.count
  streak := h.streak
  alive := h.alive

theorem Ok.startWindow (h : Ok now s) : Ok now (s.startWindow now) := by
  have halive : ¬ (s.startWindow now).Locked := fun hl => h.alive (locked_startWindow hl)
  unfold TargetPredictiveState.startWindow at halive ⊢
  split at halive
  · rename_i h0
    rw [if_pos h0]
    exact ⟨Nat.le_refl _, h.duration, h.reset, h.last429, h.burst, h.count, h.streak, halive⟩
  · rename_i h0
    rw [if_neg h0]
    exact h

theorem Ok.renewWindow (h : Ok now s) : Ok now (s.renewWindow now) where
  windowStart := Nat.le_refl _
  duration := h.duration
  reset := h.reset
  last429 := h.last429
  burst := by
    unfold TargetPredictiveState.renewWindow
    dsimp only
    split
    · exact Nat.le_trans (Nat.min_le_right _ _) (by decide)
    · exact h.burst
  count := Nat.zero_le _
  streak := h.streak
  alive := fun hl => h.alive (locked_renewWindow hl)

theorem Ok.advanceWindow (h : Ok now s) : Ok now (s.advanceWindowIfExpired now) := by
  rw [advanceWindowIfExpired_eq]
  split
  · exact h.startWindow.renewWindow
  · exact h.startWindow

theorem Ok.tryTransition (h : Ok now s) : Ok now (s.tryTransitionHalfOpen now) := by
  unfold tryTransitionHalfOpen
  split
  · exact ⟨h.windowStart, h.duration, h.reset, h.last429, h.burst, Nat.zero_le _, h.streak,
      fun hl => absurd hl.1 (by simp)⟩
  · exact h

theorem Ok.memoryDecay (h : Ok now s) : Ok now (s.applyMemoryDecayIfIdle now) := by
  have halive : ¬ (s.applyMemoryDecayIfIdle now).Locked := fun hl => h.alive (locked_memoryDecay hl)
  unfold applyMemoryDecayIfIdle at halive ⊢
  split at halive
  · rename_i hidle
    rw [if_pos hidle]
    exact ⟨h.windowStart, h.duration, h.reset, Nat.le_refl _, Nat.le_trans (Nat.min_le_right _ _) (by decide), h.count,
      h.streak, halive⟩
  · rename_i hidle
    rw [if_neg hidle]
    exact h

theorem Ok.refresh (h : Ok now s) (hle : now ≤ t) : Ok t (s.refresh t) :=
  (h.mono hle).advanceWindow.tryTransition.memoryDecay

/-! ### The reports -/

theorem Ok.reportRateLimited (h : Ok now s) (retryAfterSecs : Option Nat) (hnow : now + maxOpenPenaltyMs ≤ maxU64) :
    now + rateLimitedPenaltyMs retryAfterSecs ≤ maxU64 ∧ Ok now (s.reportRateLimited retryAfterSecs now) := by
  have hpenalty : rateLimitedPenaltyMs retryAfterSecs ≤ maxOpenPenaltyMs := by
    unfold rateLimitedPenaltyMs
    split
    · decide
    · exact Nat.min_le_right _ _
  have hcount := h.count
  refine ⟨by omega, h.windowStart, h.duration, ?_, Nat.le_refl _, ?_, h.count, Nat.zero_lt_two,
    fun hl => TargetRateState.noConfusion hl.1⟩
  · show (now + rateLimitedPenaltyMs retryAfterSecs) % (maxU64 + 1) ≤ now + maxOpenPenaltyMs
    rw [Nat.mod_eq_of_lt (by omega)]
    omega
  · show max 1 (s.windowCount - 1) ≤ maxU16
    unfold maxU16 at *
    omega

theorem Ok.reportUpstreamError (h : Ok now s) (fingerprint : Nat) (hnow : now + maxOpenPenaltyMs ≤ maxU64) :
    now + errorPenaltyMs (min (s.consecutiveFailures + 1) maxU8) ≤ maxU64 ∧
      Ok now (s.reportUpstreamError fingerprint now) := by
  have hpenalty : errorPenaltyMs (min (s.consecutiveFailures + 1) maxU8) ≤ maxOpenPenaltyMs :=
    Nat.le_trans (Nat.min_le_right _ _) (by decide)
  refine ⟨by omega, h.windowStart, h.duration, ?_, h.last429, h.burst, h.count, Nat.zero_lt_two,
    fun hl => TargetRateState.noConfusion hl.1⟩
  show (now + errorPenaltyMs (min (s.consecutiveFailures + 1) maxU8)) % (maxU64 + 1) ≤ now + maxOpenPenaltyMs
  rw [Nat.mod_eq_of_lt (by omega)]
  omega

theorem Ok.recoverFromSuccess (h : Ok now s) : Ok now s.recoverFromSuccess := by
  have hburst := h.burst
  have hcount := h.count
  unfold TargetPredictiveState.recoverFromSuccess
  split
  · exact h
  · refine ⟨h.windowStart, h.duration, Nat.zero_le _, h.last429, ?_, h.count, h.streak, fun hl => ?_⟩
    · show max (max s.learnedBurst s.windowCount) minRecoveredBurst ≤ maxU16
      rw [Nat.max_le, Nat.max_le]
      exact ⟨⟨hburst, hcount⟩, by decide⟩
    · have hzero : max (max s.learnedBurst s.windowCount) minRecoveredBurst = 0 := hl.2.1
      have := Nat.le_max_right (max s.learnedBurst s.windowCount) minRecoveredBurst
      unfold minRecoveredBurst at *
      omega

theorem Ok.updateWindowDuration (h : Ok now s) (resetWindowSecs : Option Nat) :
    Ok now (s.updateWindowDuration resetWindowSecs) := by
  unfold TargetPredictiveState.updateWindowDuration
  cases resetWindowSecs with
  | none => exact h
  | some resetS =>
    refine ⟨h.windowStart, ?_, h.reset, h.last429, h.burst, h.count, h.streak, h.alive⟩
    show max (min (resetS * 1000) maxU64 % (maxU32 + 1)) 1000 ≤ maxU32
    rw [Nat.max_le]
    exact ⟨Nat.le_of_lt_succ (Nat.mod_lt _ (Nat.succ_pos _)), by decide⟩

/-- The burst and the streak after a success. -/
theorem Ok.calibrate (h : Ok now s) (remainingHeader : Option Nat)
    (hzero : remainingHeader = some 0 → 0 < s.windowCount ∨ 0 < s.last429AtMs ∨ 0 < s.successStreak) :
    Ok now (s.calibrateFromRemainingHeader remainingHeader).advanceElasticStreak := by
  -- the burst that the header gives, and whether it can be zero for ever
  have hcalibrated : (s.calibrateFromRemainingHeader remainingHeader).learnedBurst ≤ maxU16 ∧
      ((s.calibrateFromRemainingHeader remainingHeader).Locked → 0 < s.successStreak) := by
    have hcount := h.count
    have hburst := h.burst
    unfold calibrateFromRemainingHeader
    match remainingHeader with
    | none => exact ⟨h.burst, fun hl => absurd hl h.alive⟩
    | some 0 =>
      refine ⟨h.count, fun hl => ?_⟩
      have hlocked : s.windowCount = 0 ∧ s.last429AtMs = 0 := ⟨hl.2.2.1, hl.2.2.2⟩
      rcases hzero rfl with h0 | h0 | h0
      · omega
      · omega
      · exact h0
    | some (rem + 1) =>
      refine ⟨?_, fun hl => ?_⟩
      · show max s.learnedBurst (min (s.windowCount + min (rem + 1) maxU16) maxU16) ≤ maxU16
        rw [Nat.max_le]
        exact ⟨hburst, Nat.min_le_right _ _⟩
      · have hmax : max s.learnedBurst (min (s.windowCount + min (rem + 1) maxU16) maxU16) = 0 := hl.2.1
        have := Nat.le_max_right s.learnedBurst (min (s.windowCount + min (rem + 1) maxU16) maxU16)
        unfold maxU16 at *
        omega
  have hsame : (s.calibrateFromRemainingHeader remainingHeader).successStreak = s.successStreak ∧
      (s.calibrateFromRemainingHeader remainingHeader).windowStartMs = s.windowStartMs ∧
      (s.calibrateFromRemainingHeader remainingHeader).windowDurationMs = s.windowDurationMs ∧
      (s.calibrateFromRemainingHeader remainingHeader).resetAtMs = s.resetAtMs ∧
      (s.calibrateFromRemainingHeader remainingHeader).last429AtMs = s.last429AtMs ∧
      (s.calibrateFromRemainingHeader remainingHeader).windowCount = s.windowCount := by
    unfold calibrateFromRemainingHeader
    match remainingHeader with
    | none => exact ⟨rfl, rfl, rfl, rfl, rfl, rfl⟩
    | some 0 => exact ⟨rfl, rfl, rfl, rfl, rfl, rfl⟩
    | some (rem + 1) => exact ⟨rfl, rfl, rfl, rfl, rfl, rfl⟩
  generalize s.calibrateFromRemainingHeader remainingHeader = s' at hcalibrated hsame
  obtain ⟨hstreak, hstart, hduration, hreset, h429, hcount⟩ := hsame
  have hlt := h.streak
  have hone : (s'.successStreak + 1) % (maxU16 + 1) = s'.successStreak + 1 := by
    refine Nat.mod_eq_of_lt ?_
    unfold probeSuccessThreshold maxU16 at *
    omega
  unfold advanceElasticStreak
  dsimp only
  rw [hone]
  split
  · refine ⟨hstart ▸ h.windowStart, hduration ▸ h.duration, hreset ▸ h.reset, h429 ▸ h.last429, Nat.min_le_right _ _,
      hcount ▸ h.count, Nat.zero_lt_two, fun hl => ?_⟩
    have hburst : min (s'.learnedBurst + 1) maxU16 = 0 := hl.2.1
    have hpos : 0 < min (s'.learnedBurst + 1) maxU16 := Nat.lt_min.mpr ⟨Nat.succ_pos _, by decide⟩
    rw [hburst] at hpos
    exact Nat.lt_irrefl 0 hpos
  · rename_i hshort
    refine ⟨hstart ▸ h.windowStart, hduration ▸ h.duration, hreset ▸ h.reset, h429 ▸ h.last429, hcalibrated.1,
      hcount ▸ h.count, Nat.lt_of_not_le hshort, fun hl => ?_⟩
    have hpos := hcalibrated.2 hl
    unfold probeSuccessThreshold at hshort
    omega

/-- A success that reports that nothing remains must find a request in the window, a rate limit in the past, or the
other success of a streak. -/
theorem Ok.applySuccess (h : Ok now s) (remainingHeader resetWindowSecs : Option Nat)
    (hzero : remainingHeader = some 0 → 0 < s.windowCount ∨ 0 < s.last429AtMs ∨ 0 < s.successStreak) :
    s.successStreak + 1 ≤ maxU16 ∧ Ok now (s.applySuccess remainingHeader resetWindowSecs now) := by
  have hstreak := h.streak
  refine ⟨?_, ?_⟩
  · unfold probeSuccessThreshold maxU16 at *
    omega
  · have hfirst : Ok now { s with
        inFlight := s.inFlight - 1
        lastSuccessAtMs := now
        consecutiveFailures := 0
        consecutiveSameFingerprint := 0
        lastErrorFingerprint := 0 } :=
      ⟨h.windowStart, h.duration, h.reset, h.last429, h.burst, h.count, h.streak, h.alive⟩
    refine (hfirst.recoverFromSuccess.updateWindowDuration resetWindowSecs).calibrate remainingHeader ?_
    have hkeep : ∀ s : TargetPredictiveState,
        (s.recoverFromSuccess.updateWindowDuration resetWindowSecs).windowCount = s.windowCount ∧
        (s.recoverFromSuccess.updateWindowDuration resetWindowSecs).last429AtMs = s.last429AtMs ∧
        (s.recoverFromSuccess.updateWindowDuration resetWindowSecs).successStreak = s.successStreak := by
      intro s
      unfold TargetPredictiveState.recoverFromSuccess TargetPredictiveState.updateWindowDuration
      cases resetWindowSecs <;> dsimp only <;> split <;> exact ⟨rfl, rfl, rfl⟩
    obtain ⟨hcount, h429, hstreak⟩ := hkeep { s with
        inFlight := s.inFlight - 1
        lastSuccessAtMs := now
        consecutiveFailures := 0
        consecutiveSameFingerprint := 0
        lastErrorFingerprint := 0 }
    rw [hcount, h429, hstreak]
    exact hzero

/-! ### The next request -/

theorem Ok.takeSlot (h : Ok now s) (hcount : s.windowCount < maxU16) : Ok now s.takeSlot := by
  have hone : (s.windowCount + 1) % (maxU16 + 1) = s.windowCount + 1 := Nat.mod_eq_of_lt (by omega)
  refine ⟨h.windowStart, h.duration, h.reset, h.last429, h.burst, ?_, h.streak, ?_⟩
  · show (s.windowCount + 1) % (maxU16 + 1) ≤ maxU16
    omega
  · intro hl
    have : (s.windowCount + 1) % (maxU16 + 1) = 0 := hl.2.2.1
    omega

/-- A key that is not closed admits a request when the lease is over. -/
theorem Ok.admits_probe (h : Ok now s) (hstate : s.state ≠ .closed)
    (ht : now + maxOpenPenaltyMs + probeLeaseMs ≤ t) : (s.refresh t).admits t = true := by
  have hreset := h.reset
  have hhalf : (s.refresh t).state = .halfOpen := by
    rw [refresh_state]
    cases hs : s.state with
    | closed => exact absurd hs hstate
    | «open» => rw [if_pos ⟨rfl, by omega⟩]
    | halfOpen => rw [if_neg (by simp)]
  have hfree : (s.refresh t).probeLeaseFree t = true := by
    rw [probeLeaseFree_iff, probeDeadline, (s.refresh_frame t).resetAtMs]
    exact .inr (Nat.le_trans (Nat.min_le_left _ _) (by omega))
  simp [admits, hhalf, hfree]

/-- A closed key that has had a window admits a request in the next one. -/
theorem Ok.admits_next (h : Ok now s) (hstate : s.state = .closed) (hstart : s.windowStartMs ≠ 0)
    (ht : now + maxU32 + memoryDecayIdleMs + 1 ≤ t) (hmax : t ≤ maxU64) : (s.refresh t).admits t = true := by
  have hwindow := h.windowStart
  have hduration := h.duration
  have h429 := h.last429
  have hsame : s.startWindow t = s := if_neg hstart
  have hexpired : (s.windowStartMs + s.windowDurationMs) % (maxU64 + 1) ≤ t := by
    rw [Nat.mod_eq_of_lt (by omega)]
    omega
  have hadvance : s.advanceWindowIfExpired t = s.renewWindow t := by
    rw [advanceWindowIfExpired_eq, hsame, if_pos hexpired]
  have hclosed : (s.renewWindow t).state = .closed := hstate
  have htransition : (s.renewWindow t).tryTransitionHalfOpen t = s.renewWindow t := by
    unfold tryTransitionHalfOpen
    rw [hclosed]
    exact if_neg (by simp)
  unfold TargetPredictiveState.refresh
  rw [hadvance, htransition]
  have halive : ¬ (s.renewWindow t).Locked := fun hl => h.alive (locked_renewWindow hl)
  have hlast : (s.renewWindow t).last429AtMs = s.last429AtMs := rfl
  have hcount : (s.renewWindow t).windowCount = 0 := rfl
  generalize s.renewWindow t = s' at hclosed halive hlast hcount
  unfold applyMemoryDecayIfIdle
  split
  · -- the burst has grown because of the long idle time
    have : 0 < min (s'.learnedBurst + 5) defaultBurstCapacity := by
      unfold defaultBurstCapacity
      omega
    simp only [admits, hclosed, hcount]
    exact decide_eq_true this
  · rename_i hidle
    have hpos : 0 < s'.learnedBurst := by
      by_contra hzero
      have hburst : s'.learnedBurst = 0 := by omega
      refine halive ⟨hclosed, hburst, hcount, ?_⟩
      by_contra h0
      refine hidle ⟨by omega, hclosed, by rw [hburst]; decide, by omega⟩
    simp only [admits, hclosed, hcount]
    exact decide_eq_true hpos

end TargetPredictiveState

namespace LimiterEntry

open TargetPredictiveState

variable {e : LimiterEntry} {c : TimedLimiterCall} {now : Nat}

/-- The addition of `advance_window_if_expired`. -/
def windowEnd (s : TargetPredictiveState) (now : Nat) : Nat :=
  (s.startWindow now).windowStartMs + (s.startWindow now).windowDurationMs

/-- The additions of an operation that are not guarded against overflow, each with the bound of its type. -/
def additions (e : LimiterEntry) (c : TimedLimiterCall) : List (Nat × Nat) :=
  let s := orDefault e
  match c.call with
  | .acquire =>
    let s' := s.refresh c.now
    (windowEnd s c.now, maxU64) ::
      if s'.admits c.now then [(s'.inFlight + 1, maxU16), (s'.windowCount + 1, maxU16)] else []
  | .evaluate => if e.isSome then [(windowEnd s c.now, maxU64)] else []
  | .shouldRetry _ _ => [(windowEnd s c.now, maxU64)]
  | .release => []
  | .reportSuccess _ _ => [(s.successStreak + 1, maxU16)]
  | .reportRateLimited retryAfterSecs => [(c.now + rateLimitedPenaltyMs retryAfterSecs, maxU64)]
  | .reportUpstreamError _ => [(c.now + errorPenaltyMs (min (s.consecutiveFailures + 1) maxU8), maxU64)]

def NoOverflow (e : LimiterEntry) (c : TimedLimiterCall) : Prop := ∀ a ∈ additions e c, a.1 ≤ a.2

/-- Some later attempt is admitted, and nothing is reported until then. -/
def Recovers (e : LimiterEntry) (now : Nat) : Prop :=
  ∃ attempts : List Nat, attempts.Pairwise (· ≤ ·) ∧ (∀ t ∈ attempts, now ≤ t ∧ t ≤ maxU64) ∧
    (outputs step e (attempts.map fun t => ⟨t, .acquire⟩)).getLast? = some (.admitted true)

/-- How far the clock is from its last value. -/
def clockMarginMs : Nat := 8589934592

/-- An operation that does not lead to the defects: the clock is not at its end, the counters of an admitted request are
not at theirs, and a success that reports that nothing remains does not leave a burst of zero for ever. -/
def Allowed (e : LimiterEntry) (c : TimedLimiterCall) : Prop :=
  c.now + clockMarginMs ≤ maxU64 ∧
    match c.call with
    | .acquire =>
      let s := (orDefault e).refresh c.now
      s.admits c.now = true → s.inFlight < maxU16 ∧ (s.state = .halfOpen → s.windowCount < maxU16)
    | .reportSuccess (some 0) _ =>
      let s := orDefault e
      0 < s.windowCount ∨ 0 < s.last429AtMs ∨ 0 < s.successStreak
    | _ => True

instance (e : LimiterEntry) (c : TimedLimiterCall) : Decidable (Allowed e c) := by
  unfold Allowed
  split <;> infer_instance

theorem windowEnd_le {s : TargetPredictiveState} (h : Ok now s) (hnow : now + clockMarginMs ≤ maxU64) :
    windowEnd s now ≤ maxU64 := by
  have hstart := h.startWindow.windowStart
  have hduration := h.startWindow.duration
  unfold windowEnd
  unfold clockMarginMs maxU64 maxU32 at *
  omega

/-- In a closed key the window is not full. -/
theorem count_lt_of_admits {s : TargetPredictiveState} (h : Ok now s) (hadmits : s.admits now = true)
    (hhalf : s.state = .halfOpen → s.windowCount < maxU16) : s.windowCount < maxU16 := by
  have hburst := h.burst
  unfold admits at hadmits
  cases hstate : s.state with
  | closed =>
    rw [hstate] at hadmits
    have : s.windowCount < s.learnedBurst := of_decide_eq_true hadmits
    omega
  | «open» =>
    rw [hstate] at hadmits
    exact absurd hadmits (by simp)
  | halfOpen => exact hhalf hstate

/-- One operation. -/
theorem Allowed.step (h : Ok now (orDefault e)) (hle : now ≤ c.now) (hallowed : Allowed e c) :
    NoOverflow e c ∧ Ok c.now (orDefault (step e c).1) := by
  have hok := h.mono hle
  have hrefresh := h.refresh hle
  obtain ⟨hclock, hcall⟩ := hallowed
  have hend := windowEnd_le hok hclock
  have hpenalty : c.now + maxOpenPenaltyMs ≤ maxU64 :=
    Nat.le_trans (Nat.add_le_add_left (by decide) _) hclock
  unfold NoOverflow additions LimiterEntry.step
  cases hc : c.call with
  | acquire =>
    rw [hc] at hcall
    dsimp only at hcall ⊢
    rw [acquireKey_eq]
    unfold tryAcquire
    cases hadmits : ((orDefault e).refresh c.now).admits c.now with
    | false =>
      refine ⟨fun a ha => ?_, hrefresh⟩
      simp only [Bool.false_eq_true, ↓reduceIte, List.mem_singleton] at ha
      rw [ha]
      exact hend
    | true =>
      obtain ⟨hflight, hhalf⟩ := hcall hadmits
      have hcount := count_lt_of_admits hrefresh hadmits hhalf
      refine ⟨fun a ha => ?_, hrefresh.takeSlot hcount⟩
      simp only [↓reduceIte, List.mem_cons, List.not_mem_nil, or_false] at ha
      rcases ha with rfl | rfl | rfl
      · exact hend
      · exact hflight
      · exact hcount
  | evaluate =>
    refine ⟨fun a ha => ?_, hok⟩
    dsimp only at ha
    split at ha
    · rw [List.mem_singleton.mp ha]
      exact hend
    · simp at ha
  | shouldRetry fingerprint count =>
    refine ⟨fun a ha => ?_, hrefresh⟩
    rw [List.mem_singleton.mp ha]
    exact hend
  | release =>
    refine ⟨by simp, ?_⟩
    cases e with
    | none => exact default_ok _
    | some s => exact ⟨hok.windowStart, hok.duration, hok.reset, hok.last429, hok.burst, hok.count, hok.streak, hok.alive⟩
  | reportSuccess remaining reset =>
    rw [hc] at hcall
    have hzero : remaining = some 0 → 0 < (orDefault e).windowCount ∨ 0 < (orDefault e).last429AtMs ∨
        0 < (orDefault e).successStreak := by
      rintro rfl
      exact hcall
    obtain ⟨hstreak, hafter⟩ := hok.applySuccess remaining reset hzero
    refine ⟨fun a ha => ?_, hafter⟩
    rw [List.mem_singleton.mp ha]
    exact hstreak
  | reportRateLimited retryAfter =>
    obtain ⟨hsum, hafter⟩ := hok.reportRateLimited retryAfter hpenalty
    refine ⟨fun a ha => ?_, hafter⟩
    rw [List.mem_singleton.mp ha]
    exact hsum
  | reportUpstreamError fingerprint =>
    obtain ⟨hsum, hafter⟩ := hok.reportUpstreamError fingerprint hpenalty
    refine ⟨fun a ha => ?_, hafter⟩
    rw [List.mem_singleton.mp ha]
    exact hsum

theorem windowStart_refresh_pos {s : TargetPredictiveState} {t : Nat} (ht : 0 < t) : (s.refresh t).windowStartMs ≠ 0 := by
  have hstart : (s.startWindow t).windowStartMs ≠ 0 := by
    unfold startWindow
    split
    · exact Nat.ne_of_gt ht
    · assumption
  have hadvance : (s.advanceWindowIfExpired t).windowStartMs ≠ 0 := by
    rw [advanceWindowIfExpired_eq]
    split
    · exact Nat.ne_of_gt ht
    · exact hstart
  have htransition : ∀ s : TargetPredictiveState, (s.tryTransitionHalfOpen t).windowStartMs = s.windowStartMs := by
    intro s
    unfold tryTransitionHalfOpen
    split <;> rfl
  have hdecay : ∀ s : TargetPredictiveState, (s.applyMemoryDecayIfIdle t).windowStartMs = s.windowStartMs := by
    intro s
    unfold applyMemoryDecayIfIdle
    split <;> rfl
  unfold refresh
  rw [hdecay, htransition]
  exact hadvance

/-- An attempt, by whether the refreshed key admits it. -/
theorem step_acquire (e : LimiterEntry) (t : Nat) :
    step e ⟨t, .acquire⟩ = if ((orDefault e).refresh t).admits t then
      (some ((orDefault e).refresh t).takeSlot, .admitted true) else (some ((orDefault e).refresh t), .admitted false) := by
  show ((acquireKey e t).1, LimiterResult.admitted (acquireKey e t).2) = _
  rw [acquireKey_eq]
  unfold tryAcquire
  split <;> rfl

theorem recovers_of_admits {t : Nat} (hle : now ≤ t) (hmax : t ≤ maxU64)
    (h : ((orDefault e).refresh t).admits t = true) : Recovers e now := by
  refine ⟨[t], List.pairwise_singleton _ _, by simpa using ⟨hle, hmax⟩, ?_⟩
  simp [outputs, step_acquire, h]

/-- Every key that is not locked admits a request at a later time. -/
theorem recovers_of_ok (h : Ok now (orDefault e)) (hnow : now + clockMarginMs ≤ maxU64) : Recovers e now := by
  have hmargin : maxOpenPenaltyMs + probeLeaseMs + 1 + (maxU32 + memoryDecayIdleMs + 1) ≤ clockMarginMs := by decide
  -- the first attempt begins a window if the key has none
  obtain ⟨t, ht⟩ : ∃ t, t = now + maxOpenPenaltyMs + probeLeaseMs + 1 := ⟨_, rfl⟩
  have hpos : 0 < t := by omega
  cases hadmits : ((orDefault e).refresh t).admits t with
  | true => exact recovers_of_admits (by omega) (by omega) hadmits
  | false =>
    have hclosed : (orDefault e).state = .closed := by
      by_contra hstate
      rw [h.admits_probe hstate (by omega)] at hadmits
      exact absurd hadmits (by simp)
    have hok := h.refresh (show now ≤ t by omega)
    have hclosed' : ((orDefault e).refresh t).state = .closed := by
      rw [refresh_state, hclosed]
      simp
    obtain ⟨t', ht'⟩ : ∃ t', t' = t + maxU32 + memoryDecayIdleMs + 1 := ⟨_, rfl⟩
    have hsecond := hok.admits_next hclosed' (windowStart_refresh_pos hpos) (Nat.le_of_eq ht'.symm) (by omega)
    refine ⟨[t, t'], ?_, ?_, ?_⟩
    · simp only [List.pairwise_cons, List.mem_singleton, forall_eq, List.not_mem_nil, false_imp_iff, implies_true,
        List.Pairwise.nil, and_true]
      omega
    · intro x hx
      simp only [List.mem_cons, List.not_mem_nil, or_false] at hx
      rcases hx with rfl | rfl <;> omega
    · have hfirst : step e ⟨t, .acquire⟩ = (some ((orDefault e).refresh t), .admitted false) := by
        rw [step_acquire, hadmits]
        rfl
      have hlast : (step (some ((orDefault e).refresh t)) ⟨t', .acquire⟩).2 = .admitted true := by
        rw [step_acquire, orDefault, Option.getD_some, if_pos hsecond]
      simp [outputs, hfirst, hlast]

/-- In every run all of whose operations are allowed, no addition overflows and every state that is reached admits a
request at a later time without a report. -/
theorem run_recovers (calls : List TimedLimiterCall) (hsorted : calls.Pairwise fun a b => a.now ≤ b.now)
    (hallowed : AllSteps step Allowed none calls) :
    Recovers none 0 ∧ AllSteps step (fun e c => NoOverflow e c ∧ Recovers (step e c).1 c.now) none calls := by
  have hrun : ∀ (calls : List TimedLimiterCall) (e : LimiterEntry) (now : Nat), Ok now (orDefault e) →
      (∀ c ∈ calls, now ≤ c.now) → (calls.Pairwise fun a b => a.now ≤ b.now) → AllSteps step Allowed e calls →
      AllSteps step (fun e c => NoOverflow e c ∧ Recovers (step e c).1 c.now) e calls := by
    intro calls
    induction calls with
    | nil => exact fun _ _ _ _ _ _ => trivial
    | cons c calls ih =>
      intro e now hok hfrom hsorted hallowed
      rw [List.pairwise_cons] at hsorted
      obtain ⟨hover, hafter⟩ := hallowed.1.step hok (hfrom c List.mem_cons_self)
      exact ⟨⟨hover, recovers_of_ok hafter hallowed.1.1⟩, ih _ c.now hafter hsorted.1 hsorted.2 hallowed.2⟩
  exact ⟨recovers_of_ok (default_ok 0) (by decide),
    hrun calls none 0 (default_ok 0) (fun _ _ => Nat.zero_le _) hsorted hallowed⟩

/-- A run with every kind of report. -/
theorem run_recovers_reports :
    Recovers none 0 ∧ AllSteps step (fun e c => NoOverflow e c ∧ Recovers (step e c).1 c.now) none
      [⟨1, .acquire⟩, ⟨2, .reportSuccess (some 0) (some 1)⟩, ⟨3, .acquire⟩, ⟨4, .reportUpstreamError 7⟩, ⟨15004, .acquire⟩,
        ⟨15005, .reportRateLimited (some 3)⟩, ⟨20000, .shouldRetry 7 1⟩, ⟨20000, .release⟩] := by
  refine run_recovers _ (by decide) ?_
  simp only [AllSteps]
  decide

theorem locked_kept {s : TargetPredictiveState} (h : s.Locked) (t : Nat) :
    (s.refresh t).Locked ∧ (s.refresh t).admits t = false := by
  have hrenew : ∀ s : TargetPredictiveState, s.Locked → (s.renewWindow t).Locked := by
    rintro s ⟨hstate, hburst, hcount, h429⟩
    refine ⟨hstate, ?_, rfl, h429⟩
    show (if s.state = .closed ∧ 0 < s.windowCount ∧ _ then _ else s.learnedBurst) = 0
    rw [if_neg (by simp [hcount]), hburst]
  have hadvance : (s.advanceWindowIfExpired t).Locked := by
    have hstart : (s.startWindow t).Locked := by
      unfold startWindow
      split
      · exact h
      · exact h
    rw [advanceWindowIfExpired_eq]
    split
    · exact hrenew _ hstart
    · exact hstart
  have hrefresh : (s.refresh t).Locked := by
    have htransition : (s.advanceWindowIfExpired t).tryTransitionHalfOpen t = s.advanceWindowIfExpired t :=
      if_neg (by simp [hadvance.1])
    unfold refresh
    rw [htransition]
    unfold applyMemoryDecayIfIdle
    rw [if_neg (by simp [hadvance.2.2.2])]
    exact hadvance
  refine ⟨hrefresh, ?_⟩
  obtain ⟨hstate, hburst, hcount, -⟩ := hrefresh
  simp [admits, hstate, hburst]

/-- A locked key admits no request at any later time. -/
theorem not_recovers_of_locked (h : (orDefault e).Locked) (now : Nat) : ¬ Recovers e now := by
  have hall : ∀ (attempts : List Nat) (e : LimiterEntry), (orDefault e).Locked →
      ∀ r ∈ outputs step e (attempts.map fun t => ⟨t, .acquire⟩), r = .admitted false := by
    intro attempts
    induction attempts with
    | nil => simp [outputs]
    | cons t attempts ih =>
      intro e he r hr
      obtain ⟨hlocked, hdenied⟩ := locked_kept he t
      have hstep : step e ⟨t, .acquire⟩ = (some ((orDefault e).refresh t), .admitted false) := by
        rw [step_acquire, hdenied]
        rfl
      simp only [List.map_cons, outputs, hstep, List.mem_cons] at hr
      rcases hr with rfl | hr
      · rfl
      · exact ih (some _) hlocked r hr
  rintro ⟨attempts, -, -, hlast⟩
  have := hall attempts e h _ (List.mem_of_getLast? hlast)
  exact absurd this (by decide)

/-- The success of a request from before the trip, with nothing remaining, after the window was reset by a rejected
probe. -/
theorem run_locked :
    ¬ Recovers (runState step none [⟨1, .acquire⟩, ⟨2, .acquire⟩, ⟨3, .reportUpstreamError 0⟩, ⟨15003, .acquire⟩,
      ⟨15004, .reportSuccess (some 0) none⟩]) 15004 :=
  not_recovers_of_locked (by decide) 15004

end LimiterEntry

end OpenProxy.Limits
