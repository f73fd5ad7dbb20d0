import OpenProxy.Data.Machine
import Mathlib.Algebra.Order.Ring.Nat

/-!
# The predictive rate limiter

The model of `predictive_rate_limit.rs` for one key.  Times are in milliseconds.  The additions that the source does not
guard wrap around, as they do in a build without overflow checks; `additions` lists them, each with the width of its type.
-/

namespace OpenProxy.Limits

def defaultBurstCapacity : Nat := 1000

def defaultWindowDurationMs : Nat := 60000

def probeSuccessThreshold : Nat := 2

def minRecoveredBurst : Nat := 2

def memoryDecayIdleMs : Nat := 15 * 60 * 1000

def maxOpenPenaltyMs : Nat := 10 * 60 * 1000

def minRateLimitedPenaltyMs : Nat := 3000

def probeLeaseMs : Nat := 30000

/-- The bounds of `u8`, `u16`, `u32` and `u64`. -/
def maxU8 : Nat := 255

def maxU16 : Nat := 65535

def maxU32 : Nat := 4294967295

def maxU64 : Nat := 18446744073709551615

/-- `TargetRateState`. -/
inductive TargetRateState
  | closed
  | open
  | halfOpen
  deriving DecidableEq, Repr

/-- `TargetPredictiveState`. -/
structure TargetPredictiveState where
  windowStartMs : Nat
  resetAtMs : Nat
  last429AtMs : Nat
  lastSuccessAtMs : Nat
  lastErrorFingerprint : Nat
  windowDurationMs : Nat
  learnedBurst : Nat
  windowCount : Nat
  inFlight : Nat
  successStreak : Nat
  consecutiveFailures : Nat
  consecutiveSameFingerprint : Nat
  state : TargetRateState
  deriving DecidableEq, Repr

/-- `TargetReadiness`. -/
inductive TargetReadiness
  | ready
  | probe
  | saturated (learnedBurst windowCount resetInMs : Nat)
  deriving DecidableEq, Repr

namespace TargetPredictiveState

/-- `default`. -/
def default : TargetPredictiveState where
  windowStartMs := 0
  resetAtMs := 0
  last429AtMs := 0
  lastSuccessAtMs := 0
  lastErrorFingerprint := 0
  windowDurationMs := defaultWindowDurationMs
  learnedBurst := defaultBurstCapacity
  windowCount := 0
  inFlight := 0
  successStreak := 0
  consecutiveFailures := 0
  consecutiveSameFingerprint := 0
  state := .closed

variable (s : TargetPredictiveState)

/-- `advance_window_if_expired`. -/
def advanceWindowIfExpired (now : Nat) : TargetPredictiveState :=
  let s := if s.windowStartMs = 0 then { s with windowStartMs := now } else s
  if (s.windowStartMs + s.windowDurationMs) % (maxU64 + 1) ≤ now then
    { s with
      learnedBurst := if s.state = .closed ∧ 0 < s.windowCount ∧ s.learnedBurst < defaultBurstCapacity then
        min (s.learnedBurst + 2) defaultBurstCapacity else s.learnedBurst
      windowStartMs := now
      windowCount := 0 }
  else s

/-- `try_transition_half_open`. -/
def tryTransitionHalfOpen (now : Nat) : TargetPredictiveState :=
  if s.state = .open ∧ s.resetAtMs ≤ now then { s with state := .halfOpen, windowCount := 0 } else s

/-- `apply_memory_decay_if_idle`. -/
def applyMemoryDecayIfIdle (now : Nat) : TargetPredictiveState :=
  if 0 < s.last429AtMs ∧ s.state = .closed ∧ s.learnedBurst < defaultBurstCapacity ∧
      memoryDecayIdleMs < now - s.last429AtMs then
    { s with learnedBurst := min (s.learnedBurst + 5) defaultBurstCapacity, last429AtMs := now }
  else s

/-- `refresh`. -/
def refresh (now : Nat) : TargetPredictiveState :=
  ((s.advanceWindowIfExpired now).tryTransitionHalfOpen now).applyMemoryDecayIfIdle now

/-- `probe_lease_free`. -/
def probeLeaseFree (now : Nat) : Bool :=
  s.inFlight = 0 || min (s.resetAtMs + probeLeaseMs) maxU64 ≤ now

def saturatedReadiness (resetInMs : Nat) : TargetReadiness :=
  .saturated s.learnedBurst s.windowCount resetInMs

/-- `evaluate`. -/
def evaluate (now : Nat) : TargetReadiness :=
  match s.state with
  | .open => s.saturatedReadiness (s.resetAtMs - now)
  | .halfOpen => if s.probeLeaseFree now then .probe else s.saturatedReadiness (s.resetAtMs - now)
  | .closed =>
    if s.learnedBurst ≤ s.windowCount then
      s.saturatedReadiness ((s.windowStartMs + s.windowDurationMs) % (maxU64 + 1) - now)
    else .ready

/-- The two counters of an admitted request. -/
def takeSlot : TargetPredictiveState :=
  { s with inFlight := (s.inFlight + 1) % (maxU16 + 1), windowCount := (s.windowCount + 1) % (maxU16 + 1) }

/-- Whether `try_acquire` admits a request. -/
def admits (now : Nat) : Bool :=
  match s.state with
  | .open => false
  | .halfOpen => s.probeLeaseFree now
  | .closed => s.windowCount < s.learnedBurst

/-- `try_acquire`. -/
def tryAcquire (now : Nat) : TargetPredictiveState × Bool :=
  if s.admits now then (s.takeSlot, true) else (s, false)

/-- `recover_from_success`. -/
def recoverFromSuccess : TargetPredictiveState :=
  if s.state = .closed then s
  else { s with
    state := .closed
    resetAtMs := 0
    learnedBurst := max (max s.learnedBurst s.windowCount) minRecoveredBurst }

/-- `update_window_duration`; the product is cut to 32 bits. -/
def updateWindowDuration (resetWindowSecs : Option Nat) : TargetPredictiveState :=
  match resetWindowSecs with
  | some resetS => { s with windowDurationMs := max (min (resetS * 1000) maxU64 % (maxU32 + 1)) 1000 }
  | none => s

/-- `calibrate_from_remaining_header`. -/
def calibrateFromRemainingHeader (remainingHeader : Option Nat) : TargetPredictiveState :=
  match remainingHeader with
  | some 0 => { s with learnedBurst := s.windowCount }
  | some rem => { s with learnedBurst := max s.learnedBurst (min (s.windowCount + min rem maxU16) maxU16) }
  | none => s

/-- `advance_elastic_streak`. -/
def advanceElasticStreak : TargetPredictiveState :=
  let s := { s with successStreak := (s.successStreak + 1) % (maxU16 + 1) }
  if probeSuccessThreshold ≤ s.successStreak then
    { s with learnedBurst := min (s.learnedBurst + 1) maxU16, successStreak := 0 }
  else s

/-- `apply_success`. -/
def applySuccess (remainingHeader resetWindowSecs : Option Nat) (now : Nat) : TargetPredictiveState :=
  let s := { s with
    inFlight := s.inFlight - 1
    lastSuccessAtMs := now
    consecutiveFailures := 0
    consecutiveSameFingerprint := 0
    lastErrorFingerprint := 0 }
  ((s.recoverFromSuccess.updateWindowDuration resetWindowSecs).calibrateFromRemainingHeader
    remainingHeader).advanceElasticStreak

/-- `should_retry`. -/
def shouldRetry (fingerprint localRetryCount : Nat) : Bool :=
  if s.state = .open then false
  else if 1 ≤ localRetryCount ∧ fingerprint ≠ 0 ∧ fingerprint = s.lastErrorFingerprint then false
  else if 2 ≤ s.consecutiveFailures ∧ 1 ≤ localRetryCount then false
  else true

/-- The penalty after a number of failures in a row. -/
def errorPenaltyMs (consecutiveFailures : Nat) : Nat :=
  min (15000 * 2 ^ min (min consecutiveFailures 8 - 1) 3) 120000

/-- `report_upstream_error_with_fingerprint`. -/
def reportUpstreamError (fingerprint now : Nat) : TargetPredictiveState :=
  let failures := min (s.consecutiveFailures + 1) maxU8
  { s with
    inFlight := s.inFlight - 1
    successStreak := 0
    state := .open
    consecutiveFailures := failures
    consecutiveSameFingerprint :=
      if fingerprint ≠ 0 ∧ fingerprint = s.lastErrorFingerprint then min (s.consecutiveSameFingerprint + 1) maxU8 else 1
    lastErrorFingerprint :=
      if fingerprint ≠ 0 ∧ fingerprint = s.lastErrorFingerprint then s.lastErrorFingerprint else fingerprint
    resetAtMs := (now + errorPenaltyMs failures) % (maxU64 + 1) }

/-- The penalty for a `Retry-After` header. -/
def rateLimitedPenaltyMs (retryAfterSecs : Option Nat) : Nat :=
  match retryAfterSecs with
  | none => defaultWindowDurationMs
  | some secs => min (max (min (secs * 1000) maxU64) minRateLimitedPenaltyMs) maxOpenPenaltyMs

/-- The body of `report_rate_limited_key`. -/
def reportRateLimited (retryAfterSecs : Option Nat) (now : Nat) : TargetPredictiveState :=
  { s with
    inFlight := s.inFlight - 1
    last429AtMs := now
    successStreak := 0
    consecutiveFailures := min (s.consecutiveFailures + 1) maxU8
    learnedBurst := max 1 (s.windowCount - 1)
    state := .open
    resetAtMs := (now + rateLimitedPenaltyMs retryAfterSecs) % (maxU64 + 1) }

end TargetPredictiveState

/-! ### The operations on a key -/

/-- The operations of the limiter on a key. -/
inductive LimiterCall
  | acquire
  | evaluate
  | shouldRetry (fingerprint localRetryCount : Nat)
  | release
  | reportSuccess (remainingHeader resetWindowSecs : Option Nat)
  | reportRateLimited (retryAfterSecs : Option Nat)
  | reportUpstreamError (fingerprint : Nat)
  deriving DecidableEq, Repr

/-- An operation at a time. -/
structure TimedLimiterCall where
  now : Nat
  call : LimiterCall
  deriving DecidableEq, Repr

/-- What an operation returns. -/
inductive LimiterResult
  | admitted (b : Bool)
  | readiness (r : TargetReadiness)
  | retry (b : Bool)
  | unit
  deriving DecidableEq, Repr

/-- The entry of the key in the map of its shard. -/
abbrev LimiterEntry := Option TargetPredictiveState

namespace LimiterEntry

/-- `entry(key).or_default()`. -/
def orDefault (e : LimiterEntry) : TargetPredictiveState := e.getD .default

/-- `acquire_key`. -/
def acquireKey (e : LimiterEntry) (now : Nat) : LimiterEntry × Bool :=
  let (s, admitted) := ((orDefault e).refresh now).tryAcquire now
  (some s, admitted)

/-- `evaluate_key`. -/
def evaluateKey (e : LimiterEntry) (now : Nat) : TargetReadiness :=
  match e with
  | some s => (s.refresh now).evaluate now
  | none => .ready

/-- `should_retry_key`. -/
def shouldRetryKey (e : LimiterEntry) (fingerprint localRetryCount now : Nat) : LimiterEntry × Bool :=
  let s := (orDefault e).refresh now
  (some s, s.shouldRetry fingerprint localRetryCount)

/-- `release_in_flight_key`. -/
def releaseInFlightKey (e : LimiterEntry) : LimiterEntry :=
  e.map fun s => { s with inFlight := s.inFlight - 1 }

def step (e : LimiterEntry) (c : TimedLimiterCall) : LimiterEntry × LimiterResult :=
  match c.call with
  | .acquire => ((acquireKey e c.now).1, .admitted (acquireKey e c.now).2)
  | .evaluate => (e, .readiness (evaluateKey e c.now))
  | .shouldRetry fingerprint localRetryCount =>
    ((shouldRetryKey e fingerprint localRetryCount c.now).1,
      .retry (shouldRetryKey e fingerprint localRetryCount c.now).2)
  | .release => (releaseInFlightKey e, .unit)
  | .reportSuccess remainingHeader resetWindowSecs =>
    (some ((orDefault e).applySuccess remainingHeader resetWindowSecs c.now), .unit)
  | .reportRateLimited retryAfterSecs => (some ((orDefault e).reportRateLimited retryAfterSecs c.now), .unit)
  | .reportUpstreamError fingerprint => (some ((orDefault e).reportUpstreamError fingerprint c.now), .unit)

end LimiterEntry

end OpenProxy.Limits
