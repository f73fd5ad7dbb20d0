import OpenProxy.Limits.Predictive

/-!
# One probe at a time

A key that is half open admits a request only if none is in flight, until the lease of the probe is over.  So between two
probes that are admitted before the end of the lease, a request has been released or a result has been reported.
-/

namespace OpenProxy.Limits

namespace TargetPredictiveState

variable {s : TargetPredictiveState} {now : Nat}

/-- The time at which the slot of the probe is free again whatever is in flight. -/
def probeDeadline (s : TargetPredictiveState) : Nat := min (s.resetAtMs + probeLeaseMs) maxU64

/-- What `refresh` leaves alone. -/
structure SameSlots (s s' : TargetPredictiveState) : Prop where
  inFlight : s'.inFlight = s.inFlight
  resetAtMs : s'.resetAtMs = s.resetAtMs
  windowDurationMs : s'.windowDurationMs = s.windowDurationMs
  successStreak : s'.successStreak = s.successStreak

theorem SameSlots.refl (s : TargetPredictiveState) : SameSlots s s := ⟨rfl, rfl, rfl, rfl⟩

theorem SameSlots.trans {s₁ s₂ s₃ : TargetPredictiveState} (h : SameSlots s₁ s₂) (h' : SameSlots s₂ s₃) :
    SameSlots s₁ s₃ :=
  ⟨h'.inFlight.trans h.inFlight, h'.resetAtMs.trans h.resetAtMs, h'.windowDurationMs.trans h.windowDurationMs,
    h'.successStreak.trans h.successStreak⟩

/-- The beginning of the first window. -/
def startWindow (s : TargetPredictiveState) (now : Nat) : TargetPredictiveState :=
  if s.windowStartMs = 0 then { s with windowStartMs := now } else s

/-- The window is over. -/
def renewWindow (s : TargetPredictiveState) (now : Nat) : TargetPredictiveState :=
  { s with
    learnedBurst := if s.state = .closed ∧ 0 < s.windowCount ∧ s.learnedBurst < defaultBurstCapacity then
      min (s.learnedBurst + 2) defaultBurstCapacity else s.learnedBurst
    windowStartMs := now
    windowCount := 0 }

theorem advanceWindowIfExpired_eq (s : TargetPredictiveState) (now : Nat) :
    s.advanceWindowIfExpired now =
      if ((s.startWindow now).windowStartMs + (s.startWindow now).windowDurationMs) % (maxU64 + 1) ≤ now then
        (s.startWindow now).renewWindow now else s.startWindow now := rfl

theorem startWindow_frame (s : TargetPredictiveState) (now : Nat) :
    SameSlots s (s.startWindow now) ∧ (s.startWindow now).state = s.state := by
  unfold startWindow
  split
  · exact ⟨⟨rfl, rfl, rfl, rfl⟩, rfl⟩
  · exact ⟨.refl _, rfl⟩

theorem advanceWindowIfExpired_frame (s : TargetPredictiveState) (now : Nat) :
    SameSlots s (s.advanceWindowIfExpired now) ∧ (s.advanceWindowIfExpired now).state = s.state := by
  obtain ⟨hslots, hstate⟩ := s.startWindow_frame now
  rw [advanceWindowIfExpired_eq]
  split
  · exact ⟨hslots.trans ⟨rfl, rfl, rfl, rfl⟩, hstate⟩
  · exact ⟨hslots, hstate⟩

theorem tryTransitionHalfOpen_frame (s : TargetPredictiveState) (now : Nat) :
    SameSlots s (s.tryTransitionHalfOpen now) := by
  unfold tryTransitionHalfOpen
  split
  · exact ⟨rfl, rfl, rfl, rfl⟩
  · exact .refl _

theorem applyMemoryDecayIfIdle_frame (s : TargetPredictiveState) (now : Nat) :
    SameSlots s (s.applyMemoryDecayIfIdle now) ∧ (s.applyMemoryDecayIfIdle now).state = s.state := by
  unfold applyMemoryDecayIfIdle
  split
  · exact ⟨⟨rfl, rfl, rfl, rfl⟩, rfl⟩
  · exact ⟨.refl _, rfl⟩

theorem refresh_frame (s : TargetPredictiveState) (now : Nat) : SameSlots s (s.refresh now) :=
  ((s.advanceWindowIfExpired_frame now).1.trans (tryTransitionHalfOpen_frame _ now)).trans
    (applyMemoryDecayIfIdle_frame _ now).1

/-- A key changes its state by the passage of time only from open to half open. -/
theorem refresh_state (s : TargetPredictiveState) (now : Nat) :
    (s.refresh now).state = if s.state = .open ∧ s.resetAtMs ≤ now then .halfOpen else s.state := by
  obtain ⟨hslots, hstate⟩ := s.advanceWindowIfExpired_frame now
  unfold refresh
  rw [(applyMemoryDecayIfIdle_frame _ now).2]
  unfold tryTransitionHalfOpen
  rw [hstate, hslots.resetAtMs]
  split
  · rfl
  · exact hstate

theorem probeLeaseFree_iff : s.probeLeaseFree now = true ↔ s.inFlight = 0 ∨ s.probeDeadline ≤ now := by
  simp [probeLeaseFree, probeDeadline]

end TargetPredictiveState

namespace LimiterEntry

variable {e : LimiterEntry} {c : TimedLimiterCall}

/-- The call is a request that is admitted as a probe before the end of the lease. -/
def admitsProbe (e : LimiterEntry) (c : TimedLimiterCall) : Bool :=
  match c.call with
  | .acquire =>
    let s := (orDefault e).refresh c.now
    s.state == .halfOpen && decide (c.now < s.probeDeadline) && (acquireKey e c.now).2
  | _ => false

/-- The number of probes that are admitted before the end of the lease. -/
def probes : LimiterEntry → List TimedLimiterCall → Nat
  | _, [] => 0
  | e, c :: cs => (if admitsProbe e c then 1 else 0) + probes (step e c).1 cs

/-- The calls that neither release a request nor report a result. -/
def isQuiet : LimiterCall → Bool
  | .acquire => true
  | .evaluate => true
  | .shouldRetry _ _ => true
  | _ => false

/-- The probe is in flight, or its lease is over. -/
def ProbeOut (now : Nat) (e : LimiterEntry) : Prop :=
  (orDefault e).state = .halfOpen ∧ ((orDefault e).inFlight ≠ 0 ∨ (orDefault e).probeDeadline ≤ now)

theorem ProbeOut.refresh {now now' : Nat} (h : ProbeOut now e) (hle : now ≤ now') :
    ((orDefault e).refresh now').state = .halfOpen ∧
      (((orDefault e).refresh now').inFlight ≠ 0 ∨ ((orDefault e).refresh now').probeDeadline ≤ now') := by
  obtain ⟨hstate, hslot⟩ := h
  have hframe := (orDefault e).refresh_frame now'
  refine ⟨by rw [TargetPredictiveState.refresh_state, hstate]; simp, ?_⟩
  rw [hframe.inFlight, TargetPredictiveState.probeDeadline, hframe.resetAtMs]
  exact hslot.imp id fun h => Nat.le_trans h hle

theorem acquireKey_eq (e : LimiterEntry) (now : Nat) :
    acquireKey e now = (some (((orDefault e).refresh now).tryAcquire now).1,
      (((orDefault e).refresh now).tryAcquire now).2) := rfl

/-- While the probe is out, no other is admitted before the end of the lease. -/
theorem ProbeOut.step {now : Nat} (h : ProbeOut now e) (hle : now ≤ c.now) (hquiet : isQuiet c.call = true) :
    admitsProbe e c = false ∧ ProbeOut c.now (step e c).1 := by
  obtain ⟨hstate, hslot⟩ := h.refresh hle
  unfold admitsProbe LimiterEntry.step
  cases hcall : c.call with
  | acquire =>
    dsimp only
    rw [acquireKey_eq]
    generalize hs : (orDefault e).refresh c.now = s at hstate hslot
    have hadmits : s.admits c.now = s.probeLeaseFree c.now := by simp [TargetPredictiveState.admits, hstate]
    unfold TargetPredictiveState.tryAcquire
    rw [hadmits]
    cases hfree : s.probeLeaseFree c.now with
    | false => exact ⟨by simp, hstate, hslot⟩
    | true =>
      have hover : s.probeDeadline ≤ c.now := by
        rcases TargetPredictiveState.probeLeaseFree_iff.mp hfree with h0 | h0
        · exact hslot.resolve_left (fun hne => hne h0)
        · exact h0
      refine ⟨?_, hstate, .inr hover⟩
      simp only [Bool.and_eq_false_iff, decide_eq_false_iff_not]
      exact .inl (.inr (by omega))
  | evaluate => exact ⟨rfl, h.1, h.2.imp id fun h => Nat.le_trans h hle⟩
  | shouldRetry fingerprint count => exact ⟨rfl, hstate, hslot⟩
  | release => simp [hcall, isQuiet] at hquiet
  | reportSuccess remaining reset => simp [hcall, isQuiet] at hquiet
  | reportRateLimited retryAfter => simp [hcall, isQuiet] at hquiet
  | reportUpstreamError fingerprint => simp [hcall, isQuiet] at hquiet

theorem ProbeOut.probes {now : Nat} {cs : List TimedLimiterCall} (h : ProbeOut now e) (hfrom : ∀ c ∈ cs, now ≤ c.now)
    (hsorted : cs.Pairwise fun a b => a.now ≤ b.now) (hquiet : ∀ c ∈ cs, isQuiet c.call = true) : probes e cs = 0 := by
  induction cs generalizing e now with
  | nil => rfl
  | cons c cs ih =>
    rw [List.pairwise_cons] at hsorted
    obtain ⟨hnot, hout⟩ := h.step (hfrom c List.mem_cons_self) (hquiet c List.mem_cons_self)
    rw [LimiterEntry.probes, hnot, ih hout hsorted.1 hsorted.2 fun c hc => hquiet c (List.mem_cons_of_mem _ hc)]
    rfl

/-- The probe that is admitted is out. -/
theorem probeOut_of_admitsProbe (h : admitsProbe e c = true) : ProbeOut c.now (step e c).1 := by
  unfold admitsProbe at h
  unfold LimiterEntry.step
  cases hcall : c.call with
  | acquire =>
    rw [hcall] at h
    dsimp only at h ⊢
    rw [acquireKey_eq] at h ⊢
    generalize (orDefault e).refresh c.now = s at h
    simp only [Bool.and_eq_true, beq_iff_eq, decide_eq_true_eq] at h
    obtain ⟨⟨hstate, htime⟩, hadmitted⟩ := h
    unfold TargetPredictiveState.tryAcquire at hadmitted ⊢
    cases hfree : s.admits c.now with
    | false => simp [hfree] at hadmitted
    | true =>
      have hzero : s.inFlight = 0 := by
        have : s.probeLeaseFree c.now = true := by simpa [TargetPredictiveState.admits, hstate] using hfree
        rcases TargetPredictiveState.probeLeaseFree_iff.mp this with h0 | h0
        · exact h0
        · omega
      refine ⟨hstate, .inl ?_⟩
      simp [orDefault, TargetPredictiveState.takeSlot, hzero, maxU16]
  | _ => simp [hcall] at h

theorem probes_le_one {cs : List TimedLimiterCall} (hsorted : cs.Pairwise fun a b => a.now ≤ b.now)
    (hquiet : ∀ c ∈ cs, isQuiet c.call = true) : probes e cs ≤ 1 := by
  induction cs generalizing e with
  | nil => exact Nat.zero_le _
  | cons c cs ih =>
    rw [List.pairwise_cons] at hsorted
    have hquiet' : ∀ c ∈ cs, isQuiet c.call = true := fun c hc => hquiet c (List.mem_cons_of_mem _ hc)
    unfold probes
    split
    · rename_i hadmits
      have hnone := (probeOut_of_admitsProbe hadmits).probes hsorted.1 hsorted.2 hquiet'
      omega
    · rw [Nat.zero_add]
      exact ih hsorted.2 hquiet'

/-- Exclusivity of the probe: in any run, between two calls that release a request or report a result, at most one probe is
admitted before the end of its lease. -/
theorem probe_exclusive (before segment : List TimedLimiterCall)
    (hsorted : (before ++ segment).Pairwise fun a b => a.now ≤ b.now)
    (hquiet : ∀ c ∈ segment, isQuiet c.call = true) : probes (runState step none before) segment ≤ 1 :=
  probes_le_one (List.pairwise_append.mp hsorted).2.1 hquiet

/-- A probe that is not answered keeps its slot. -/
theorem probe_exclusive_kept :
    probes (runState step none [⟨1, .reportRateLimited (some 3)⟩])
      [⟨3001, .acquire⟩, ⟨3001, .shouldRetry 0 0⟩, ⟨3002, .acquire⟩, ⟨33000, .acquire⟩] ≤ 1 :=
  probe_exclusive [⟨1, .reportRateLimited (some 3)⟩]
    [⟨3001, .acquire⟩, ⟨3001, .shouldRetry 0 0⟩, ⟨3002, .acquire⟩, ⟨33000, .acquire⟩] (by decide) (by decide)

/-- A probe that is released makes room for another one in the same millisecond. -/
theorem probe_released :
    outputs step none [⟨1, .reportRateLimited (some 3)⟩, ⟨3001, .acquire⟩, ⟨3001, .release⟩, ⟨3001, .acquire⟩] =
        [.unit, .admitted true, .unit, .admitted true] ∧
      (orDefault (runState step none [⟨1, .reportRateLimited (some 3)⟩, ⟨3001, .acquire⟩])).state = .halfOpen ∧
      (orDefault (runState step none
        [⟨1, .reportRateLimited (some 3)⟩, ⟨3001, .acquire⟩, ⟨3001, .release⟩, ⟨3001, .acquire⟩])).state = .halfOpen := by
  decide

end LimiterEntry

end OpenProxy.Limits
