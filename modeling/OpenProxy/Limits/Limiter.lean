import OpenProxy.Limits.Predictive
import OpenProxy.Data.Table

/-!
# The limiter with all its keys

The keys of `PredictiveRateLimiter` are spread over the maps of 256 shards, each under a lock of its own.  What an
operation does to a key depends on the entry of that key alone, so the limiter behaves as one machine of
`OpenProxy.Limits.Predictive` for each key (`entry_runState`).  A prediction and the admission that follows it agree in
every state (`evaluate_agrees`): both classify the refreshed entry, and a key without an entry is admitted.
-/

namespace OpenProxy.Limits

namespace TargetReadiness

/-- The target takes a request: `Ready` or `Probe`. -/
def Takes (r : TargetReadiness) : Prop := r = .ready ∨ r = .probe

instance (r : TargetReadiness) : Decidable r.Takes := inferInstanceAs (Decidable (_ ∨ _))

end TargetReadiness

namespace TargetPredictiveState

/-- What `prune_stale` takes for idle. -/
def isIdle (s : TargetPredictiveState) (maxIdleMs now : Nat) : Bool :=
  s.state = .closed && s.inFlight = 0
    && (s.windowStartMs = 0 || maxIdleMs < now - s.windowStartMs)
    && (s.last429AtMs = 0 || maxIdleMs < now - s.last429AtMs)
    && (s.lastSuccessAtMs = 0 || maxIdleMs < now - s.lastSuccessAtMs)

end TargetPredictiveState

def shardCount : Nat := 256

/-- `PredictiveRateLimiter`: a map in each shard. -/
structure PredictiveRateLimiter where
  shards : Fin shardCount → Table Nat TargetPredictiveState

/-- The operations of the limiter.  `prune_stale` goes through all the shards. -/
inductive KeyedCall
  | onKey (key : Nat) (call : LimiterCall)
  | pruneStale (maxIdleMs : Nat)
  deriving DecidableEq, Repr

/-- An operation at a time. -/
structure TimedKeyedCall where
  now : Nat
  call : KeyedCall
  deriving DecidableEq, Repr

/-- What the limiter returns. -/
inductive KeyedResult
  | onKey (r : LimiterResult)
  | pruned (count : Nat)
  deriving DecidableEq, Repr

namespace PredictiveRateLimiter

/-- `new`. -/
def new : PredictiveRateLimiter := ⟨fun _ => ∅⟩

/-- `shard_for`: the low bits of the key. -/
def shardFor (key : Nat) : Fin shardCount := ⟨key % shardCount, Nat.mod_lt _ (by decide)⟩

/-- The entry of a key in its shard. -/
def entry (l : PredictiveRateLimiter) (key : Nat) : LimiterEntry := (l.shards (shardFor key)).lookup key

/-- The entry of a key is written back to its shard. -/
def putEntry (l : PredictiveRateLimiter) (key : Nat) : LimiterEntry → PredictiveRateLimiter
  | some s => ⟨Function.update l.shards (shardFor key) ((l.shards (shardFor key)).insert key s)⟩
  | none => l

theorem nodupKeys_filter {entries : List (Σ _ : Nat, TargetPredictiveState)} (h : entries.NodupKeys)
    (keep : (Σ _ : Nat, TargetPredictiveState) → Bool) : (entries.filter keep).NodupKeys :=
  h.sublist List.filter_sublist

/-- The entries of a map that `prune_stale` keeps. -/
def retain (t : Table Nat TargetPredictiveState) (maxIdleMs now : Nat) : Table Nat TargetPredictiveState where
  entries := t.entries.filter fun e => !e.2.isIdle maxIdleMs now
  nodupKeys := nodupKeys_filter t.nodupKeys _

/-- `evaluate_key`. -/
def evaluateKey (l : PredictiveRateLimiter) (key now : Nat) : TargetReadiness := (l.entry key).evaluateKey now

/-- `acquire_key`. -/
def acquireKey (l : PredictiveRateLimiter) (key now : Nat) : PredictiveRateLimiter × Bool :=
  (l.putEntry key ((l.entry key).acquireKey now).1, ((l.entry key).acquireKey now).2)

/-- `prune_stale`. -/
def pruneStale (l : PredictiveRateLimiter) (maxIdleMs now : Nat) : PredictiveRateLimiter × Nat :=
  (⟨fun i => retain (l.shards i) maxIdleMs now⟩,
    ((List.finRange shardCount).map fun i =>
      (l.shards i).entries.countP fun e => e.2.isIdle maxIdleMs now).sum)

def step (l : PredictiveRateLimiter) (c : TimedKeyedCall) : PredictiveRateLimiter × KeyedResult :=
  match c.call with
  | .onKey key .evaluate => (l, .onKey (.readiness (l.evaluateKey key c.now)))
  | .onKey key .acquire => ((l.acquireKey key c.now).1, .onKey (.admitted (l.acquireKey key c.now).2))
  | .onKey key call =>
    (l.putEntry key ((l.entry key).step ⟨c.now, call⟩).1, .onKey ((l.entry key).step ⟨c.now, call⟩).2)
  | .pruneStale maxIdleMs => ((l.pruneStale maxIdleMs c.now).1, .pruned (l.pruneStale maxIdleMs c.now).2)

/-! ### One machine for each key -/

/-- What an operation does to the entry of a key. -/
def keyStep (key : Nat) (e : LimiterEntry) (c : TimedKeyedCall) : LimiterEntry :=
  match c.call with
  | .onKey key' call => if key' = key then (e.step ⟨c.now, call⟩).1 else e
  | .pruneStale maxIdleMs => e.filter fun s => !s.isIdle maxIdleMs c.now

/-- An operation never takes the entry of its key away. -/
theorem eq_none_of_step {e : LimiterEntry} {c : TimedLimiterCall} (h : (e.step c).1 = none) : e = none := by
  obtain ⟨now, call⟩ := c
  cases call with
  | evaluate => exact h
  | release => exact Option.map_eq_none_iff.mp h
  | acquire => cases h
  | shouldRetry fingerprint localRetryCount => cases h
  | reportSuccess remainingHeader resetWindowSecs => cases h
  | reportRateLimited retryAfterSecs => cases h
  | reportUpstreamError fingerprint => cases h

theorem entry_putEntry {l : PredictiveRateLimiter} {key : Nat} {e : LimiterEntry} (h : e = none → l.entry key = none)
    (key' : Nat) : (l.putEntry key e).entry key' = if key = key' then e else l.entry key' := by
  cases e with
  | none =>
    by_cases hkey : key = key'
    · rw [if_pos hkey, ← hkey]
      exact h rfl
    · rw [if_neg hkey]
      rfl
  | some s =>
    show (Function.update l.shards (shardFor key) ((l.shards (shardFor key)).insert key s) (shardFor key')).lookup key' = _
    by_cases hshard : shardFor key' = shardFor key
    · rw [hshard, Function.update_self, Table.lookup_insert_eq, entry, hshard]
      simp only [eq_comm]
    · have hkey : key ≠ key' := fun hkey => hshard (by rw [hkey])
      rw [Function.update_of_ne hshard, if_neg hkey]
      rfl

theorem keyStep_onKey (key key' now : Nat) (call : LimiterCall) (e : LimiterEntry) :
    keyStep key e ⟨now, .onKey key' call⟩ = if key' = key then (e.step ⟨now, call⟩).1 else e := rfl

theorem dlookup_filter {entries : List (Σ _ : Nat, TargetPredictiveState)} (h : entries.NodupKeys)
    (keep : TargetPredictiveState → Bool) (key : Nat) :
    (entries.filter fun e => keep e.2).dlookup key = (entries.dlookup key).filter keep := by
  induction entries with
  | nil => rfl
  | cons e entries ih =>
    obtain ⟨k, s⟩ := e
    rw [List.nodupKeys_cons] at h
    have hrest := ih h.2
    by_cases hkey : key = k
    · subst hkey
      rw [List.dlookup_eq_none.mpr h.1] at hrest
      cases hkeep : keep s with
      | true => simp [hkeep, Option.filter]
      | false => simpa [hkeep, Option.filter] using hrest
    · rw [List.dlookup_cons_ne _ _ hkey]
      cases hkeep : keep s with
      | true =>
        rw [List.filter_cons_of_pos (by simpa using hkeep), List.dlookup_cons_ne _ _ hkey]
        exact hrest
      | false =>
        rw [List.filter_cons_of_neg (by simp [hkeep])]
        exact hrest

/-- The step lemma: an operation acts on the entry of each key by itself. -/
theorem entry_step (l : PredictiveRateLimiter) (c : TimedKeyedCall) (key : Nat) :
    (l.step c).1.entry key = keyStep key (l.entry key) c := by
  obtain ⟨now, call⟩ := c
  cases call with
  | pruneStale maxIdleMs =>
    exact dlookup_filter (l.shards (shardFor key)).nodupKeys (fun s => !s.isIdle maxIdleMs now) key
  | onKey key' call =>
    have hput : (l.putEntry key' ((l.entry key').step ⟨now, call⟩).1).entry key =
        keyStep key (l.entry key) ⟨now, .onKey key' call⟩ := by
      rw [entry_putEntry eq_none_of_step, keyStep_onKey]
      split
      · rename_i hkey
        rw [hkey]
      · rfl
    cases call with
    | evaluate =>
      rw [keyStep_onKey]
      split
      · rfl
      · rfl
    | acquire => exact hput
    | shouldRetry fingerprint localRetryCount => exact hput
    | release => exact hput
    | reportSuccess remainingHeader resetWindowSecs => exact hput
    | reportRateLimited retryAfterSecs => exact hput
    | reportUpstreamError fingerprint => exact hput

/-- The run lemma: the limiter behaves as one machine for each key. -/
theorem entry_runState (l : PredictiveRateLimiter) (calls : List TimedKeyedCall) (key : Nat) :
    (runState step l calls).entry key = calls.foldl (keyStep key) (l.entry key) := by
  induction calls generalizing l with
  | nil => rfl
  | cons c calls ih =>
    calc (runState step (l.step c).1 calls).entry key
        = calls.foldl (keyStep key) ((l.step c).1.entry key) := ih _
      _ = calls.foldl (keyStep key) (keyStep key (l.entry key) c) := by rw [entry_step]

end PredictiveRateLimiter

/-! ### Predictions -/

namespace TargetPredictiveState

/-- `evaluate` and `try_acquire` classify a state alike. -/
theorem evaluate_takes_iff (s : TargetPredictiveState) (now : Nat) : (s.evaluate now).Takes ↔ s.admits now = true := by
  unfold evaluate admits TargetReadiness.Takes saturatedReadiness
  cases s.state with
  | «open» => simp
  | halfOpen =>
    cases s.probeLeaseFree now with
    | true => simp
    | false => simp
  | closed =>
    by_cases hfull : s.learnedBurst ≤ s.windowCount
    · simp [hfull]
    · simp [hfull, Nat.lt_of_not_le hfull]

theorem tryAcquire_snd (s : TargetPredictiveState) (now : Nat) : (s.tryAcquire now).2 = s.admits now := by
  unfold tryAcquire
  cases s.admits now with
  | true => rfl
  | false => rfl

/-- A new entry is closed and its window is empty. -/
theorem admits_default (now : Nat) : (default.refresh now).admits now = true := by
  have hwindow : (default.advanceWindowIfExpired now).state = .closed ∧
      (default.advanceWindowIfExpired now).windowCount = 0 ∧
      (default.advanceWindowIfExpired now).learnedBurst = defaultBurstCapacity ∧
      (default.advanceWindowIfExpired now).last429AtMs = 0 := by
    by_cases hover : (now + defaultWindowDurationMs) % (maxU64 + 1) ≤ now
    · simp [advanceWindowIfExpired, default, hover]
    · simp [advanceWindowIfExpired, default, hover]
  obtain ⟨hstate, hcount, hburst, hlast⟩ := hwindow
  have hrefresh : default.refresh now = default.advanceWindowIfExpired now := by
    simp [refresh, tryTransitionHalfOpen, applyMemoryDecayIfIdle, hstate, hlast]
  rw [hrefresh, admits, hstate]
  simp [hcount, hburst, defaultBurstCapacity]

end TargetPredictiveState

theorem LimiterEntry.evaluateKey_takes_iff (e : LimiterEntry) (now : Nat) :
    (e.evaluateKey now).Takes ↔ (e.acquireKey now).2 = true := by
  have hacquire : (e.acquireKey now).2 = (e.orDefault.refresh now).admits now :=
    TargetPredictiveState.tryAcquire_snd _ _
  rw [hacquire]
  cases e with
  | some s => exact TargetPredictiveState.evaluate_takes_iff _ _
  | none =>
    constructor
    · intro _
      exact TargetPredictiveState.admits_default now
    · intro _
      exact .inl rfl

/-- In every state that the limiter reaches, a key is predicted to take a request exactly when the request is admitted,
and the prediction leaves every entry as it was. -/
theorem PredictiveRateLimiter.evaluate_agrees (calls : List TimedKeyedCall) (key now : Nat) :
    let l := runState step new calls
    ((l.evaluateKey key now).Takes ↔ (l.acquireKey key now).2 = true) ∧
      (∀ key', (l.step ⟨now, .onKey key .evaluate⟩).1.entry key' = l.entry key') ∧
      (l.step ⟨now, .onKey key .evaluate⟩).2 = .onKey (.readiness (l.evaluateKey key now)) ∧
      (l.step ⟨now, .onKey key .acquire⟩).2 = .onKey (.admitted (l.acquireKey key now).2) :=
  ⟨LimiterEntry.evaluateKey_takes_iff _ now, fun _ => rfl, rfl, rfl⟩

end OpenProxy.Limits
