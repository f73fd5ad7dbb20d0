import OpenProxy.Data.Machine
import OpenProxy.Data.Table

/-!
# The circuit breaker

The model of `circuit_breaker.rs`.  An account (or a model of an account) is unhealthy for a time after too many failures
in a row; the breaker notices the end of this time only when it is asked for the health of the account.  The reference
breaker resets itself at the end of the time.
-/

namespace OpenProxy.Limits

/-- `CircuitBreakerKey`. -/
inductive CircuitBreakerKey
  | account (account : Int)
  | model (account modelRow : Int)
  deriving DecidableEq, Repr

/-- `Health`. -/
inductive Health
  | healthy
  | degraded
  | unhealthy
  deriving DecidableEq, Repr

/-- `AccountBreaker`; an instant is a number of nanoseconds. -/
structure AccountBreaker where
  unhealthyUntil : Option Nat
  consecutiveFailures : UInt8
  state : Health
  deriving DecidableEq, Repr

/-- `FailureOutcome`. -/
structure FailureOutcome where
  health : Health
  justOpened : Bool
  consecutiveFailures : UInt8
  threshold : UInt8
  deriving DecidableEq, Repr

/-- `u8::saturating_add(1)`. -/
def saturatingSucc (n : UInt8) : UInt8 := if n = 255 then 255 else n + 1

namespace AccountBreaker

/-- A new entry. -/
def fresh : AccountBreaker := ⟨none, 0, .healthy⟩

/-- `is_expired`. -/
def isExpired (b : AccountBreaker) (now : Nat) : Bool :=
  b.state == .unhealthy && b.unhealthyUntil.any fun until' => decide (until' ≤ now)

/-- A failure is counted, and the breaker opens when there are enough of them. -/
def countFailure (b : AccountBreaker) (threshold : UInt8) (unhealthyDuration now : Nat) : FailureOutcome × AccountBreaker :=
  let failures := saturatingSucc b.consecutiveFailures
  let b' : AccountBreaker :=
    if threshold ≤ failures ∧ b.state ≠ .unhealthy then ⟨some (now + unhealthyDuration), failures, .unhealthy⟩
    else { b with consecutiveFailures := failures }
  (⟨b'.state, decide (threshold ≤ failures ∧ b.state ≠ .unhealthy), failures, threshold⟩, b')

/-- The breaker that `force_unhealthy` inserts. -/
def forced (threshold : UInt8) (unhealthyDuration now : Nat) : AccountBreaker :=
  ⟨some (now + unhealthyDuration), threshold, .unhealthy⟩

end AccountBreaker

/-- `CircuitBreakerRegistry`. -/
structure CircuitBreakerRegistry where
  inner : Table CircuitBreakerKey AccountBreaker
  threshold : UInt8
  unhealthyDuration : Nat

namespace CircuitBreakerRegistry

/-- `new`. -/
def new (threshold : UInt8) (unhealthyDuration : Nat) : CircuitBreakerRegistry := ⟨∅, threshold, unhealthyDuration⟩

def set (r : CircuitBreakerRegistry) (key : CircuitBreakerKey) (b : AccountBreaker) : CircuitBreakerRegistry :=
  { r with inner := r.inner.insert key b }

/-- `is_healthy`. -/
def isHealthy (r : CircuitBreakerRegistry) (key : CircuitBreakerKey) (now : Nat) : CircuitBreakerRegistry × Health :=
  match r.inner.lookup key with
  | none => (r, .healthy)
  | some entry =>
    if entry.state = .healthy then (r, .healthy)
    else if entry.isExpired now then (r.set key .fresh, .healthy)
    else (r, entry.state)

/-- `record_success`. -/
def recordSuccess (r : CircuitBreakerRegistry) (key : CircuitBreakerKey) : CircuitBreakerRegistry :=
  match r.inner.lookup key with
  | none => r
  | some _ => r.set key .fresh

/-- `record_failure_outcome`. -/
def recordFailureOutcome (r : CircuitBreakerRegistry) (key : CircuitBreakerKey) (now : Nat) :
    CircuitBreakerRegistry × FailureOutcome :=
  let entry := (r.inner.lookup key).getD .fresh
  let (outcome, entry) := entry.countFailure r.threshold r.unhealthyDuration now
  (r.set key entry, outcome)

/-- `force_unhealthy`. -/
def forceUnhealthy (r : CircuitBreakerRegistry) (key : CircuitBreakerKey) (now : Nat) : CircuitBreakerRegistry :=
  r.set key (.forced r.threshold r.unhealthyDuration now)

end CircuitBreakerRegistry

/-- The operations of the registry. -/
inductive BreakerCall
  | isHealthy
  | recordSuccess
  | recordFailureOutcome
  | forceUnhealthy
  deriving DecidableEq, Repr

/-- An operation on a key at an instant. -/
structure TimedCall where
  now : Nat
  key : CircuitBreakerKey
  call : BreakerCall
  deriving DecidableEq, Repr

/-- What an operation returns. -/
inductive BreakerResult
  | health (h : Health)
  | failure (outcome : FailureOutcome)
  | unit
  deriving DecidableEq, Repr

namespace CircuitBreakerRegistry

def step (r : CircuitBreakerRegistry) (c : TimedCall) : CircuitBreakerRegistry × BreakerResult :=
  match c.call with
  | .isHealthy => ((r.isHealthy c.key c.now).1, .health (r.isHealthy c.key c.now).2)
  | .recordSuccess => (r.recordSuccess c.key, .unit)
  | .recordFailureOutcome =>
    ((r.recordFailureOutcome c.key c.now).1, .failure (r.recordFailureOutcome c.key c.now).2)
  | .forceUnhealthy => (r.forceUnhealthy c.key c.now, .unit)

end CircuitBreakerRegistry

/-! ### The reference breaker -/

namespace AccountBreaker

/-- The breaker resets itself when the end of its unhealthy time is reached. -/
def expire (b : AccountBreaker) (now : Nat) : AccountBreaker := if b.isExpired now then .fresh else b

/-- An operation on a breaker that is up to date. -/
def act (b : AccountBreaker) (threshold : UInt8) (unhealthyDuration now : Nat) :
    BreakerCall → AccountBreaker × BreakerResult
  | .isHealthy => (b, .health b.state)
  | .recordSuccess => (.fresh, .unit)
  | .recordFailureOutcome =>
    let (outcome, b) := b.countFailure threshold unhealthyDuration now
    (b, .failure outcome)
  | .forceUnhealthy => (.forced threshold unhealthyDuration now, .unit)

end AccountBreaker

/-- The state of every key; a key that was never used is healthy. -/
structure ReferenceBreaker where
  entry : CircuitBreakerKey → AccountBreaker
  threshold : UInt8
  unhealthyDuration : Nat

namespace ReferenceBreaker

def new (threshold : UInt8) (unhealthyDuration : Nat) : ReferenceBreaker :=
  ⟨fun _ => .fresh, threshold, unhealthyDuration⟩

/-- Every breaker whose time is over at the instant of the call is reset, then the operation is done. -/
def step (r : ReferenceBreaker) (c : TimedCall) : ReferenceBreaker × BreakerResult :=
  let done := ((r.entry c.key).expire c.now).act r.threshold r.unhealthyDuration c.now c.call
  ({ r with entry := fun key => if key = c.key then done.1 else (r.entry key).expire c.now }, done.2)

end ReferenceBreaker

end OpenProxy.Limits
