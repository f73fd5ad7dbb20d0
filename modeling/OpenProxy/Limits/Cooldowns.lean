import OpenProxy.Data.Checked
import OpenProxy.Usage.Replay

/-!
# The cooldowns of targets

The model of the table `target_cooldowns`.  Each failure of a target sets a cooldown; in the exponential mode it grows with
the number of failures that the row of the target counts.  Clearing the cooldown deletes the row, and so does pruning once
the cooldown is over, and with the row goes the count.  `recordCooldown_backoff` says in which runs the cooldowns grow all
the same.
-/

namespace OpenProxy.Limits

open Checked
open Usage (CooldownMode)

/-! ### Times -/

/-- A time is a number of nanoseconds since the epoch. -/
def nanosPerSec : Int := 1000000000

/-- The first and the last time of `DateTime<Utc>`, at the beginning of the year -262143 and the end of the year 262142. -/
def minUtc : Int := -8334601315200 * nanosPerSec

def maxUtc : Int := 8210266876799 * nanosPerSec + 999999999

/-- `as i64`. -/
def asI64 (n : Nat) : Int := if n < 2 ^ 63 then n else n - 2 ^ 64

/-- `chrono::Duration::seconds`, which panics beyond `i64::MAX` milliseconds. -/
def durationSeconds (secs : Int) : Checked Int :=
  if -((2 ^ 63 - 1) / 1000) ≤ secs ∧ secs ≤ (2 ^ 63 - 1) / 1000 then value secs else Checked.panic .overflow

/-- `DateTime + Duration`. -/
def addSeconds (now : Int) (secs : Int) : Checked Int :=
  if minUtc ≤ now + secs * nanosPerSec ∧ now + secs * nanosPerSec ≤ maxUtc then value (now + secs * nanosPerSec)
  else Checked.panic .overflow

/-- SQLite's `datetime`, as a number of seconds: `NULL` before the year 0 and after the year 9999. -/
def datetime (t : Int) : Option Int :=
  if -62167219200 ≤ t / nanosPerSec ∧ t / nanosPerSec ≤ 253402300799 then some (t / nanosPerSec) else none

/-- `datetime(a) <= datetime(b)`, as a condition. -/
def datetimeLe (a b : Int) : Bool :=
  match datetime a, datetime b with
  | some a, some b => a ≤ b
  | _, _ => false

/-! ### The table -/

/-- A row of `target_cooldowns`; its key is the target. -/
structure Cooldown where
  cooldownUntil : Int
  reason : Text
  failureCount : Nat
  updatedAt : Int
  deriving DecidableEq

/-- The targets that there are, and the table. -/
structure CooldownDb where
  comboTargets : List Int
  cooldowns : Int → Option Cooldown

namespace CooldownDb

/-- `current_count`. -/
def failureCount (db : CooldownDb) (targetId : Int) : Nat := ((db.cooldowns targetId).map Cooldown.failureCount).getD 0

/-- `u64::saturating_pow`. -/
def saturatingPow (factor count : Nat) : Nat := min (factor ^ count) max64

/-- `cooldown_secs`, for a mode that sets a cooldown. -/
def cooldownSecs (mode : CooldownMode) (baseSecs maxSecs factor count : Nat) : Nat :=
  match mode with
  | .exponential =>
    let expSecs := saturatingMul baseSecs (saturatingPow factor count)
    if expSecs > maxSecs then maxSecs else expSecs
  | _ => baseSecs

/-- The row that `record_cooldown` writes. -/
def nextCooldown (db : CooldownDb) (now : Int) (targetId : Int) (reason : Text) (mode : CooldownMode)
    (baseSecs maxSecs factor : Nat) : Checked Cooldown := do
  let newCount ← fit max32 (db.failureCount targetId + 1)
  let secs ← durationSeconds (asI64 (cooldownSecs mode baseSecs maxSecs factor (db.failureCount targetId)))
  let cooldownUntil ← addSeconds now secs
  value ⟨cooldownUntil, reason, newCount, now / nanosPerSec⟩

/-- `record_cooldown`; a panic leaves the table as it is. -/
def recordCooldown (db : CooldownDb) (now : Int) (targetId : Int) (reason : Text) (mode : CooldownMode)
    (baseSecs maxSecs factor : Nat) : CooldownDb × Checked Unit :=
  if mode = .none ∨ baseSecs = 0 then (db, value ())
  else if targetId ∉ db.comboTargets then (db, value ())
  else
    match db.nextCooldown now targetId reason mode baseSecs maxSecs factor with
    | .value row => ({ db with cooldowns := fun id => if id = targetId then some row else db.cooldowns id }, value ())
    | .missing => (db, .missing)
    | .panic p => (db, .panic p)

/-- `clear_cooldown`. -/
def clearCooldown (db : CooldownDb) (targetId : Int) : CooldownDb :=
  { db with cooldowns := fun id => if id = targetId then none else db.cooldowns id }

/-- `prune_expired`. -/
def pruneExpired (db : CooldownDb) (now : Int) : CooldownDb :=
  { db with cooldowns := fun id => (db.cooldowns id).filter fun row => !datetimeLe row.cooldownUntil now }

end CooldownDb

/-- The settings of a target and the reason of a failure. -/
structure CooldownParams where
  reason : Text
  mode : CooldownMode
  baseSecs : Nat
  maxSecs : Nat
  factor : Nat

inductive CooldownCall
  | recordCooldown (targetId : Int) (params : CooldownParams)
  | clearCooldown (targetId : Int)
  | pruneExpired

/-- A call, at a time. -/
structure CooldownEvent where
  now : Int
  call : CooldownCall

def cooldownStep (db : CooldownDb) (event : CooldownEvent) : CooldownDb × Checked Unit :=
  match event.call with
  | .recordCooldown targetId p => db.recordCooldown event.now targetId p.reason p.mode p.baseSecs p.maxSecs p.factor
  | .clearCooldown targetId => (db.clearCooldown targetId, value ())
  | .pruneExpired => (db.pruneExpired event.now, value ())

/-! ### Backoff -/

/-- Settings that set a cooldown. -/
structure Backoff where
  mode : CooldownMode
  baseSecs : Nat
  maxSecs : Nat
  factor : Nat
  mode_ne : mode ≠ .none
  base_pos : 0 < baseSecs
  base_le : baseSecs ≤ maxSecs
  factor_pos : 0 < factor
  max_le : maxSecs ≤ max64

namespace Backoff

/-- The cooldown after as many failures. -/
def seconds (b : Backoff) (failures : Nat) : Nat :=
  match b.mode with
  | .exponential => min (b.baseSecs * b.factor ^ failures) b.maxSecs
  | _ => min b.baseSecs b.maxSecs

variable (b : Backoff)

theorem seconds_le (n : Nat) : b.seconds n ≤ b.maxSecs := by
  unfold seconds
  split <;> exact Nat.min_le_right _ _

theorem seconds_mono {m n : Nat} (h : m ≤ n) : b.seconds m ≤ b.seconds n := by
  unfold seconds
  split
  · have := Nat.mul_le_mul_left b.baseSecs (Nat.pow_le_pow_right b.factor_pos h)
    omega
  · exact le_refl _

/-- The cooldown after this many failures is not exceeded any more after more of them. -/
def Settled (failures : Nat) : Prop :=
  b.mode ≠ .exponential ∨ b.factor = 1 ∨ b.maxSecs ≤ b.baseSecs * b.factor ^ failures

theorem seconds_eq_iff {m n : Nat} (h : m ≤ n) : b.seconds m = b.seconds n ↔ m = n ∨ b.Settled m := by
  have hbase := b.base_pos
  have hfactor := b.factor_pos
  unfold Settled seconds
  cases b.mode with
  | exponential =>
    dsimp only
    constructor
    · intro heq
      by_cases hone : b.factor = 1
      · exact Or.inr (Or.inr (Or.inl hone))
      · by_cases hmn : m = n
        · exact Or.inl hmn
        · -- below the greatest cooldown, one more failure makes a difference
          have hpow : b.factor ^ m < b.factor ^ n := Nat.pow_lt_pow_right (by omega) (by omega)
          have hlt : b.baseSecs * b.factor ^ m < b.baseSecs * b.factor ^ n := Nat.mul_lt_mul_of_pos_left hpow hbase
          exact Or.inr (Or.inr (Or.inr (by omega)))
    · rintro (rfl | hmode | hone | hmax)
      · rfl
      · exact absurd rfl hmode
      · rw [hone, one_pow, one_pow]
      · have hle := Nat.mul_le_mul_left b.baseSecs (Nat.pow_le_pow_right hfactor h)
        omega
  | flat => exact iff_of_true rfl (Or.inr (Or.inl (by decide)))
  | none => exact iff_of_true rfl (Or.inr (Or.inl (by decide)))

/-- Saturation does not matter below the greatest number. -/
theorem cooldownSecs_eq (n : Nat) : CooldownDb.cooldownSecs b.mode b.baseSecs b.maxSecs b.factor n = b.seconds n := by
  have hmax := b.max_le
  have hbase := b.base_pos
  have hbase' := b.base_le
  have hfactor := Nat.pow_pos b.factor_pos (n := n)
  unfold CooldownDb.cooldownSecs seconds
  cases b.mode with
  | exponential =>
    dsimp only
    have hsat : min (saturatingMul b.baseSecs (CooldownDb.saturatingPow b.factor n)) b.maxSecs =
        min (b.baseSecs * b.factor ^ n) b.maxSecs := by
      unfold saturatingMul CooldownDb.saturatingPow
      have hle : b.factor ^ n ≤ b.baseSecs * b.factor ^ n := Nat.le_mul_of_pos_left _ hbase
      by_cases hpow : b.factor ^ n ≤ max64
      · rw [Nat.min_eq_left hpow]
        omega
      · have hmul : max64 ≤ b.baseSecs * max64 := Nat.le_mul_of_pos_left _ hbase
        have hmin : min (b.factor ^ n) max64 = max64 := Nat.min_eq_right (by omega)
        rw [hmin]
        omega
    rw [← hsat]
    split <;> omega
  | flat => exact (Nat.min_eq_left hbase').symm
  | none => exact (Nat.min_eq_left hbase').symm

end Backoff

/-! ### Runs -/

/-- A run may do this: it records failures of the target with the settings, and does not clear its cooldown.  Other targets
do not matter. -/
def Backs (b : Backoff) (targetId : Int) (event : CooldownEvent) : Prop :=
  match event.call with
  | .recordCooldown id p =>
    id = targetId → p.mode = b.mode ∧ p.baseSecs = b.baseSecs ∧ p.maxSecs = b.maxSecs ∧ p.factor = b.factor ∧
      minUtc ≤ event.now
  | .clearCooldown id => id ≠ targetId
  | .pruneExpired => True

/-- A failure of the target can be recorded, with a cooldown that ends at a time that can be represented, and a cooldown
that is over is not pruned. -/
def Allowed (b : Backoff) (targetId : Int) (db : CooldownDb) (event : CooldownEvent) : Prop :=
  match event.call with
  | .recordCooldown id _ =>
    id = targetId → db.failureCount targetId < max32 ∧
      event.now + b.seconds (db.failureCount targetId) * nanosPerSec ≤ maxUtc
  | .clearCooldown _ => True
  | .pruneExpired => ∀ row, db.cooldowns targetId = some row → datetimeLe row.cooldownUntil event.now = false

/-- The number of failures of the target that a run records. -/
def recorded (targetId : Int) (events : List CooldownEvent) : Nat :=
  events.countP fun event =>
    match event.call with
    | .recordCooldown id _ => id = targetId
    | _ => false

/-- The row that is written, where nothing overflows. -/
theorem nextCooldown_spec {db : CooldownDb} {now : Int} {targetId : Int} {reason : Text} {mode : CooldownMode}
    {baseSecs maxSecs factor : Nat} {row : Cooldown}
    (h : db.nextCooldown now targetId reason mode baseSecs maxSecs factor = value row) :
    row.failureCount = db.failureCount targetId + 1 ∧ db.failureCount targetId < max32 ∧
      row.cooldownUntil =
        now + asI64 (CooldownDb.cooldownSecs mode baseSecs maxSecs factor (db.failureCount targetId)) * nanosPerSec ∧
      row.cooldownUntil ≤ maxUtc := by
  unfold CooldownDb.nextCooldown at h
  obtain ⟨newCount, hfit, h⟩ := bind_eq_value.mp h
  obtain ⟨secs, hduration, h⟩ := bind_eq_value.mp h
  obtain ⟨cooldownUntil, hadd, hrow⟩ := bind_eq_value.mp h
  cases hrow
  obtain ⟨hcount, rfl⟩ := fit_eq_value.mp hfit
  unfold durationSeconds at hduration
  unfold addSeconds at hadd
  split at hduration
  · cases hduration
    split at hadd
    · rename_i hrange
      cases hadd
      exact ⟨rfl, hcount, rfl, hrange.2⟩
    · cases hadd
  · cases hduration

/-- An allowed failure is recorded. -/
theorem nextCooldown_eq {b : Backoff} {db : CooldownDb} {now : Int} {targetId : Int} (reason : Text)
    (hnow : minUtc ≤ now) (hend : now + b.seconds (db.failureCount targetId) * nanosPerSec ≤ maxUtc)
    (hcount : db.failureCount targetId < max32) :
    db.nextCooldown now targetId reason b.mode b.baseSecs b.maxSecs b.factor =
      value ⟨now + b.seconds (db.failureCount targetId) * nanosPerSec, reason, db.failureCount targetId + 1,
        now / nanosPerSec⟩ := by
  unfold CooldownDb.nextCooldown
  rw [b.cooldownSecs_eq]
  -- the cooldown ends at a time that can be represented, which bounds its length
  generalize b.seconds (db.failureCount targetId) = secs at hend
  have hsecs : secs < 2 ^ 50 := by
    unfold minUtc at hnow
    unfold maxUtc at hend
    unfold nanosPerSec at hnow hend
    omega
  have hi64 : asI64 secs = secs := if_pos (by omega)
  have hduration : durationSeconds secs = value (secs : Int) := if_pos (by omega)
  have hadd : addSeconds now secs = value (now + secs * nanosPerSec) := by
    refine if_pos ⟨?_, hend⟩
    unfold nanosPerSec
    omega
  have hfit : fit max32 (db.failureCount targetId + 1) = value (db.failureCount targetId + 1) := if_pos (by omega)
  rw [hfit, value_bind, hi64, hduration, value_bind, hadd, value_bind]

theorem cooldownStep_comboTargets (db : CooldownDb) (event : CooldownEvent) :
    (cooldownStep db event).1.comboTargets = db.comboTargets := by
  obtain ⟨now, call⟩ := event
  cases call with
  | recordCooldown id p =>
    unfold cooldownStep CooldownDb.recordCooldown
    dsimp only
    split
    · rfl
    · split
      · rfl
      · split <;> rfl
  | clearCooldown id => rfl
  | pruneExpired => rfl

theorem recordCooldown_other (db : CooldownDb) (now : Int) {id targetId : Int} (hne : id ≠ targetId) (p : CooldownParams) :
    (db.recordCooldown now id p.reason p.mode p.baseSecs p.maxSecs p.factor).1.cooldowns targetId =
      db.cooldowns targetId := by
  unfold CooldownDb.recordCooldown
  split
  · rfl
  · split
    · rfl
    · split
      · exact if_neg (Ne.symm hne)
      · rfl
      · rfl

/-- The effect of an allowed step on the row of the target. -/
theorem cooldownStep_spec {b : Backoff} {targetId : Int} {db : CooldownDb} {event : CooldownEvent}
    (htarget : targetId ∈ db.comboTargets) (hbacks : Backs b targetId event) (h : Allowed b targetId db event) :
    (∃ params, event.call = .recordCooldown targetId params ∧ (cooldownStep db event).2 = value () ∧
      (cooldownStep db event).1.cooldowns targetId =
        some ⟨event.now + b.seconds (db.failureCount targetId) * nanosPerSec, params.reason,
          db.failureCount targetId + 1, event.now / nanosPerSec⟩) ∨
    ((∀ params, event.call ≠ .recordCooldown targetId params) ∧
      (cooldownStep db event).1.cooldowns targetId = db.cooldowns targetId) := by
  obtain ⟨now, call⟩ := event
  cases call with
  | recordCooldown id p =>
    by_cases hid : id = targetId
    · subst hid
      obtain ⟨hmode, hbase, hmax, hfactor, hnow⟩ := hbacks rfl
      obtain ⟨hcount, hend⟩ := h rfl
      have hstep : cooldownStep db ⟨now, .recordCooldown id p⟩ =
          ({ db with
              cooldowns := fun id' =>
                if id' = id then
                  some ⟨now + b.seconds (db.failureCount id) * nanosPerSec, p.reason, db.failureCount id + 1,
                    now / nanosPerSec⟩
                else db.cooldowns id' }, value ()) := by
        have hbase' := b.base_pos
        unfold cooldownStep CooldownDb.recordCooldown
        dsimp only
        rw [hmode, hbase, hmax, hfactor, if_neg (by simp [b.mode_ne, hbase'.ne']), if_neg (by simp [htarget]),
          nextCooldown_eq p.reason hnow hend hcount]
      rw [hstep]
      exact Or.inl ⟨p, rfl, rfl, if_pos rfl⟩
    · refine Or.inr ⟨fun params hparams => ?_, recordCooldown_other db now hid p⟩
      cases hparams
      exact hid rfl
  | clearCooldown id =>
    refine Or.inr ⟨by simp, ?_⟩
    exact if_neg (Ne.symm hbacks)
  | pruneExpired =>
    refine Or.inr ⟨by simp, ?_⟩
    change (db.cooldowns targetId).filter _ = _
    cases hrow : db.cooldowns targetId with
    | none => rfl
    | some row =>
      have hlive : datetimeLe row.cooldownUntil now = false := h row hrow
      simp [Option.filter_some, hlive]

/-- The row of the target counts the failures that an allowed run records. -/
theorem runState_failureCount {b : Backoff} {targetId : Int} {db : CooldownDb} {events : List CooldownEvent}
    (htarget : targetId ∈ db.comboTargets) (hbacks : ∀ event ∈ events, Backs b targetId event)
    (h : AllSteps cooldownStep (Allowed b targetId) db events) :
    (runState cooldownStep db events).failureCount targetId = db.failureCount targetId + recorded targetId events := by
  induction events generalizing db with
  | nil => rfl
  | cons event events ih =>
    obtain ⟨hstep, hrest⟩ := h
    have hrow := cooldownStep_spec htarget (hbacks event List.mem_cons_self) hstep
    have hcount := ih (cooldownStep_comboTargets db event ▸ htarget) (fun e he => hbacks e (List.mem_cons_of_mem _ he))
      hrest
    refine hcount.trans ?_
    unfold recorded CooldownDb.failureCount
    rw [List.countP_cons]
    -- the count and the row go on together: a failure of the target adds one to both
    rcases hrow with ⟨params, hcall, -, hrow⟩ | ⟨hother, hrow⟩
    · rw [hrow, hcall]
      simp only [Option.map_some, Option.getD_some, decide_true, if_true, CooldownDb.failureCount]
      omega
    · rw [hrow, if_neg]
      · rfl
      · intro hcall
        split at hcall
        · rename_i id params heq
          have hid := of_decide_eq_true hcall
          rw [hid] at heq
          exact hother params heq
        · cases hcall

/-- Recording a failure does what it should exactly if the count has room, the cooldown that follows from the count ends at
a time that can be represented, and it is the one that follows from all failures. -/
theorem recordCooldown_iff {b : Backoff} {targetId : Int} {db : CooldownDb} {event : CooldownEvent} {p : CooldownParams}
    (htarget : targetId ∈ db.comboTargets) (hbacks : Backs b targetId event)
    (hcall : event.call = .recordCooldown targetId p) (failures : Nat) :
    ((cooldownStep db event).2 = value () ∧
      ((cooldownStep db event).1.cooldowns targetId).map Cooldown.cooldownUntil =
        some (event.now + b.seconds failures * nanosPerSec)) ↔
      db.failureCount targetId < max32 ∧
        event.now + b.seconds (db.failureCount targetId) * nanosPerSec ≤ maxUtc ∧
        b.seconds (db.failureCount targetId) = b.seconds failures := by
  have hbase := b.base_pos
  unfold Backs at hbacks
  rw [hcall] at hbacks
  obtain ⟨hmode, hbase', hmax, hfactor, hnow⟩ := hbacks rfl
  have hstep : cooldownStep db event =
      match db.nextCooldown event.now targetId p.reason b.mode b.baseSecs b.maxSecs b.factor with
      | .value row => ({ db with cooldowns := fun id => if id = targetId then some row else db.cooldowns id }, value ())
      | .missing => (db, .missing)
      | .panic e => (db, .panic e) := by
    unfold cooldownStep CooldownDb.recordCooldown
    rw [hcall]
    dsimp only
    rw [hmode, hbase', hmax, hfactor, if_neg (by simp [b.mode_ne, hbase.ne']), if_neg (by simp [htarget])]
  rw [hstep]
  constructor
  · rintro ⟨houtput, huntil⟩
    cases hnext : db.nextCooldown event.now targetId p.reason b.mode b.baseSecs b.maxSecs b.factor with
    | missing =>
      rw [hnext] at houtput
      cases houtput
    | panic e =>
      rw [hnext] at houtput
      cases houtput
    | value row =>
      rw [hnext] at huntil
      simp only [if_true, Option.map_some, Option.some.injEq] at huntil
      obtain ⟨-, hcount, hrow, hend⟩ := nextCooldown_spec hnext
      rw [b.cooldownSecs_eq] at hrow
      -- a number of seconds that is no `i64` is taken as a negative one
      have hsecs : asI64 (b.seconds (db.failureCount targetId)) = b.seconds failures := by
        unfold nanosPerSec at hrow huntil
        omega
      have hsame : b.seconds (db.failureCount targetId) = b.seconds failures := by
        have hle := b.seconds_le (db.failureCount targetId)
        have hmax64 := b.max_le
        unfold max64 at hmax64
        unfold asI64 at hsecs
        split at hsecs <;> omega
      rw [huntil] at hend
      rw [hsame]
      exact ⟨hcount, hend, rfl⟩
  · rintro ⟨hcount, hend, hsame⟩
    rw [nextCooldown_eq p.reason hnow hend hcount]
    refine ⟨rfl, ?_⟩
    simp only [if_true, Option.map_some, hsame]

/-- A step adds at most its own failure to the count of the row. -/
theorem cooldownStep_failureCount_le (db : CooldownDb) (event : CooldownEvent) (targetId : Int) :
    (cooldownStep db event).1.failureCount targetId ≤ db.failureCount targetId + recorded targetId [event] := by
  obtain ⟨now, call⟩ := event
  unfold CooldownDb.failureCount
  cases call with
  | recordCooldown id p =>
    by_cases hid : id = targetId
    · subst hid
      have hone : recorded id [⟨now, .recordCooldown id p⟩] = 1 := by simp [recorded]
      rw [hone]
      unfold cooldownStep CooldownDb.recordCooldown
      dsimp only
      split
      · exact Nat.le_succ _
      · split
        · exact Nat.le_succ _
        · split
          · rename_i row hnext
            simp only [if_true, Option.map_some, Option.getD_some]
            exact (nextCooldown_spec hnext).1.le
          · exact Nat.le_succ _
          · exact Nat.le_succ _
    · have hrow := recordCooldown_other db now hid p
      change (((db.recordCooldown now id p.reason p.mode p.baseSecs p.maxSecs p.factor).1.cooldowns targetId).map
        _).getD 0 ≤ _
      rw [hrow]
      exact Nat.le_add_right _ _
  | clearCooldown id =>
    change ((if targetId = id then none else db.cooldowns targetId).map _).getD 0 ≤ _
    split
    · exact Nat.zero_le _
    · exact Nat.le_add_right _ _
  | pruneExpired =>
    change (((db.cooldowns targetId).filter _).map _).getD 0 ≤ _
    cases db.cooldowns targetId with
    | none => exact Nat.zero_le _
    | some row =>
      rw [Option.filter_some]
      split
      · exact Nat.le_add_right _ _
      · exact Nat.zero_le _

/-- The row of the target counts no more failures than a run records. -/
theorem runState_failureCount_le {targetId : Int} {db : CooldownDb} (events : List CooldownEvent) :
    (runState cooldownStep db events).comboTargets = db.comboTargets ∧
      (runState cooldownStep db events).failureCount targetId ≤ db.failureCount targetId + recorded targetId events := by
  induction events generalizing db with
  | nil => exact ⟨rfl, le_refl _⟩
  | cons event events ih =>
    obtain ⟨htargets, hcount⟩ := @ih (cooldownStep db event).1
    have hstep := cooldownStep_failureCount_le db event targetId
    have hsplit : recorded targetId (event :: events) = recorded targetId [event] + recorded targetId events := by
      unfold recorded
      rw [← List.countP_append, List.singleton_append]
    exact ⟨htargets.trans (cooldownStep_comboTargets db event), by rw [runState]; omega⟩

/-- In a run, the `k`-th failure of the target does not panic and sets the cooldown after `k - 1` failures. -/
def BacksOff (b : Backoff) (targetId : Int) (db : CooldownDb) (events : List CooldownEvent) : Prop :=
  ∀ before event after params, events = before ++ event :: after → event.call = .recordCooldown targetId params →
    (cooldownStep (runState cooldownStep db before) event).2 = value () ∧
      ((cooldownStep (runState cooldownStep db before) event).1.cooldowns targetId).map Cooldown.cooldownUntil =
        some (event.now + b.seconds (recorded targetId before) * nanosPerSec)

/-- Before each failure of the target, its count has room, the cooldown that follows from the count ends at a time that can
be represented, and the count is the number of failures so far, which no pruning has taken away, or would not matter. -/
def KeepsCount (b : Backoff) (targetId : Int) (db : CooldownDb) (events : List CooldownEvent) : Prop :=
  ∀ before event after params, events = before ++ event :: after → event.call = .recordCooldown targetId params →
    let count := (runState cooldownStep db before).failureCount targetId
    count < max32 ∧ event.now + b.seconds count * nanosPerSec ≤ maxUtc ∧
      (count = recorded targetId before ∨ b.Settled count)

/-- From a time at which the target has no row: each failure sets its cooldown exactly if the count of the target is kept,
which it is as long as no cooldown that is over is pruned.  The cooldowns do not decrease and do not exceed the greatest
one. -/
theorem recordCooldown_backoff (b : Backoff) (targetId : Int) (db : CooldownDb) (htarget : targetId ∈ db.comboTargets)
    (hnew : db.cooldowns targetId = none) (events : List CooldownEvent)
    (hbacks : ∀ event ∈ events, Backs b targetId event) :
    (BacksOff b targetId db events ↔ KeepsCount b targetId db events) ∧
      (AllSteps cooldownStep (Allowed b targetId) db events → BacksOff b targetId db events) ∧
      ∀ m n, m ≤ n → b.seconds m ≤ b.seconds n ∧ b.seconds n ≤ b.maxSecs := by
  have hzero : db.failureCount targetId = 0 := by
    unfold CooldownDb.failureCount
    rw [hnew]
    rfl
  have hiff : BacksOff b targetId db events ↔ KeepsCount b targetId db events := by
    refine forall_congr' fun before => forall_congr' fun event => forall_congr' fun after => forall_congr' fun params =>
      forall_congr' fun hevents => forall_congr' fun hcall => ?_
    obtain ⟨htargets, hle⟩ := @runState_failureCount_le targetId db before
    rw [hzero, Nat.zero_add] at hle
    have hmem : event ∈ events := by simp [hevents]
    rw [recordCooldown_iff (htargets ▸ htarget) (hbacks event hmem) hcall, b.seconds_eq_iff hle]
  refine ⟨hiff, fun hallowed => hiff.mpr ?_, fun m n h => ⟨b.seconds_mono h, b.seconds_le n⟩⟩
  rintro before event after params rfl hcall
  obtain ⟨hbefore, hstep, -⟩ := allSteps_append.mp hallowed
  have hcount := runState_failureCount htarget (fun e he => hbacks e (List.mem_append_left _ he)) hbefore
  rw [hzero, Nat.zero_add] at hcount
  unfold Allowed at hstep
  rw [hcall] at hstep
  obtain ⟨hroom, hend⟩ := hstep rfl
  exact ⟨hroom, hend, Or.inl hcount⟩

/-- A minute, doubled up to an hour. -/
def minuteBackoff : Backoff := ⟨.exponential, 60, 3600, 2, by decide, by decide, by decide, by decide, by decide⟩

def minuteParams : CooldownParams := ⟨"HTTP 503".toList, .exponential, 60, 3600, 2⟩

def failureAt (seconds : Int) : CooldownEvent := ⟨seconds * nanosPerSec, .recordCooldown 1 minuteParams⟩

def pruneAt (seconds : Int) : CooldownEvent := ⟨seconds * nanosPerSec, .pruneExpired⟩

def oneTarget : CooldownDb := ⟨[1], fun _ => none⟩

theorem recordCooldown_backoff_second : BacksOff minuteBackoff 1 oneTarget [failureAt 0, failureAt 61] := by
  refine (recordCooldown_backoff minuteBackoff 1 oneTarget (by decide) rfl [failureAt 0, failureAt 61] ?_).2.1 ?_
  · simp only [List.mem_cons, List.not_mem_nil, or_false, forall_eq_or_imp, forall_eq]
    exact ⟨fun _ => by decide, fun _ => by decide⟩
  · exact ⟨fun _ => by decide, fun _ => by decide, trivial⟩

/-- A cooldown that ends after the last time. -/
def farBackoff : Backoff := ⟨.flat, 2 ^ 62, 2 ^ 62, 1, by decide, by decide, by decide, by decide, by decide⟩

def farFailure : CooldownEvent := ⟨0, .recordCooldown 1 ⟨[], .flat, 2 ^ 62, 2 ^ 62, 1⟩⟩

/-- When the row is pruned in between, the second failure is counted as the first; and a cooldown that ends after the last
time panics. -/
theorem pruneExpired_resets :
    (runState cooldownStep oneTarget [failureAt 0, pruneAt 61, failureAt 61]).cooldowns 1 =
      some ⟨(61 + minuteBackoff.seconds 0) * nanosPerSec, "HTTP 503".toList, 1, 61⟩ ∧
    minuteBackoff.seconds 0 = 60 ∧ minuteBackoff.seconds 1 = 120 ∧
    ¬ BacksOff minuteBackoff 1 oneTarget [failureAt 0, pruneAt 61, failureAt 61] ∧
    ¬ BacksOff farBackoff 1 oneTarget [farFailure] := by
  refine ⟨by decide, by decide, by decide, fun h => ?_, fun h => ?_⟩
  · have hsecond := (h [failureAt 0, pruneAt 61] (failureAt 61) [] minuteParams rfl rfl).2
    revert hsecond
    decide
  · have hfirst := (h [] farFailure [] _ rfl rfl).1
    revert hfirst
    decide

end OpenProxy.Limits
