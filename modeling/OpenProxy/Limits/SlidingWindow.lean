import OpenProxy.Limits.RateLimit

/-!
# Windows that slide

The limiter of `OpenProxy.Limits.RateLimit` promises a sliding window: no interval as long as the window has more calls of a
key than the maximum.  It stores one count and one time for a key, so with a new window it forgets the calls of the last one,
whenever they were made.

What the limiter knows about a key is `Accounts`: the admitted calls are those of the past windows, which are all over, and as
many calls in the current window as it has counted.  So a call is admitted on the count alone, and it keeps the promise if and
only if the forgotten calls do not matter (`sliding_iff`).
-/

namespace OpenProxy.Limits

/-! ### Intervals -/

/-- The times in a half-open interval. -/
def during (times : List Nat) (start window : Nat) : List Nat :=
  times.filter fun t => decide (start ≤ t ∧ t < start + window)

section

variable {times : List Nat} {t window n : Nat}

theorem during_append (times times' : List Nat) (start window : Nat) :
    during (times ++ times') start window = during times start window ++ during times' start window :=
  List.filter_append _ _

theorem during_zero (times : List Nat) (start : Nat) : during times start 0 = [] := by
  refine List.filter_eq_nil_iff.mpr fun t _ => ?_
  rw [decide_eq_true_eq]
  omega

/-- A last time keeps a bound on all intervals if and only if it keeps it on the one that ends with it. -/
theorem during_concat_le_iff (hlast : ∀ u ∈ times, u ≤ t) (hwindow : 0 < window) :
    (∀ start, (during (times ++ [t]) start window).length ≤ n) ↔
      (∀ start, (during times start window).length ≤ n) ∧
        (times.filter fun u => decide (t < u + window)).length < n := by
  constructor
  · intro h
    refine ⟨fun start => ?_, ?_⟩
    · have hall := h start
      rw [during_append, List.length_append] at hall
      omega
    · have hends : during times (t + 1 - window) window = times.filter fun u => decide (t < u + window) := by
        refine List.filter_congr fun u hu => ?_
        have := hlast u hu
        rw [decide_eq_decide]
        omega
      have hin : during [t] (t + 1 - window) window = [t] := by
        refine List.filter_cons_of_pos ?_
        rw [decide_eq_true_eq]
        omega
      have hall := h (t + 1 - window)
      rw [during_append, List.length_append, hends, hin, List.length_singleton] at hall
      omega
  · rintro ⟨hbefore, hends⟩ start
    rw [during_append, List.length_append]
    have hle := hbefore start
    by_cases hin : start ≤ t ∧ t < start + window
    · have hsub : (during times start window).length ≤ (times.filter fun u => decide (t < u + window)).length := by
        refine (List.monotone_filter_right _ fun u hu => ?_).length_le
        rw [decide_eq_true_eq] at hu ⊢
        omega
      have hone : (during [t] start window).length ≤ 1 := List.length_filter_le _ _
      omega
    · have hnone : during [t] start window = [] := by
        refine List.filter_cons_of_neg ?_
        rwa [decide_eq_true_eq]
      rw [hnone, List.length_nil]
      omega

end

/-! ### The calls of a key -/

section

variable (cfg : RateLimitConfig) (key : RateLimitKey)

/-- The time of a call of the key that is admitted. -/
def admission (windows : Windows) : WindowCall → List Nat
  | .check c => if c.key = key ∧ (check cfg windows c).2 = true then [c.now] else []
  | .cleanup _ => []

def admittedFrom : Windows → List WindowCall → List Nat
  | _, [] => []
  | windows, call :: calls => admission cfg key windows call ++ admittedFrom (windowStep cfg windows call).1 calls

/-- The times at which the key is admitted. -/
def admitted (calls : List WindowCall) : List Nat := admittedFrom cfg key ∅ calls

/-- No half-open interval as long as the window has more admitted calls of the key than the maximum. -/
def SlidingLimit (calls : List WindowCall) : Prop :=
  ∀ start, (during (admitted cfg key calls) start cfg.window).length ≤ cfg.maxRequests

/-- An insertion drops the entry of the key only if its window is over. -/
def NotEvicted (windows : Windows) : WindowCall → Prop
  | .check c => windows.lookup c.key = none → ∀ entry, windows.lookup key = some entry →
      (makeRoom cfg windows c).lookup key = none → cfg.window ≤ c.cleanupNow - entry.2
  | .cleanup _ => True

/-- The key is never evicted. -/
def NeverEvicted (calls : List WindowCall) : Prop := AllSteps (windowStep cfg) (NotEvicted cfg key) ∅ calls

/-- The count to which a check adds its call, and the begin of its window. -/
def standing (windows : Windows) (c : CheckCall) : Nat × Nat :=
  match windows.lookup c.key with
  | some (count, start) => if cfg.window ≤ c.now - start then (0, c.now) else (count, start)
  | none => (0, c.now)

/-- The admitted calls less than a window ago that are not in the count any more. -/
def forgotten (times : List Nat) (windows : Windows) (c : CheckCall) : List Nat :=
  times.filter fun t => decide (t < (standing cfg windows c).2 ∧ c.now < t + cfg.window)

/-- At every admitted call of the key, the count and the forgotten calls are below the maximum together. -/
def NoneForgotten (calls : List WindowCall) : Prop :=
  ∀ before c, before ++ [.check c] <+: calls → c.key = key → (check cfg (stateAt cfg before) c).2 = true →
    (standing cfg (stateAt cfg before) c).1 +
      (forgotten cfg (admitted cfg key before) (stateAt cfg before) c).length < cfg.maxRequests

end

section

variable {cfg : RateLimitConfig} {key : RateLimitKey} {windows : Windows} {c : CheckCall}

theorem admittedFrom_append (windows : Windows) (calls calls' : List WindowCall) :
    admittedFrom cfg key windows (calls ++ calls') =
      admittedFrom cfg key windows calls ++ admittedFrom cfg key (runState (windowStep cfg) windows calls) calls' := by
  induction calls generalizing windows with
  | nil => rfl
  | cons call calls ih => rw [List.cons_append, admittedFrom, admittedFrom, ih, List.append_assoc, runState]

theorem admitted_concat (calls : List WindowCall) (call : WindowCall) :
    admitted cfg key (calls ++ [call]) = admitted cfg key calls ++ admission cfg key (stateAt cfg calls) call := by
  unfold admitted
  rw [admittedFrom_append, admittedFrom, admittedFrom, List.append_nil]
  rfl

theorem mem_times_of_admission {call : WindowCall} {t : Nat} (h : t ∈ admission cfg key windows call) :
    t ∈ call.times := by
  cases call with
  | cleanup now => cases h
  | check c =>
    rw [admission] at h
    split at h
    · rw [List.mem_singleton.mp h]
      exact List.mem_cons_self
    · cases h

theorem mem_times_of_admitted {calls : List WindowCall} {t : Nat} (h : t ∈ admitted cfg key calls) :
    t ∈ calls.flatMap WindowCall.times := by
  induction calls using List.reverseRecOn with
  | nil => cases h
  | append_singleton calls call ih =>
    rw [admitted_concat, List.mem_append] at h
    rw [List.flatMap_append, List.mem_append, List.flatMap_singleton]
    exact h.imp ih mem_times_of_admission

/-- Of calls at times that do not decrease, the last one is made at the latest time. -/
theorem NonDecreasing.concat {calls : List WindowCall} {call : WindowCall} (h : NonDecreasing (calls ++ [call])) :
    NonDecreasing calls ∧ ∀ t ∈ calls.flatMap WindowCall.times, ∀ t' ∈ call.times, t ≤ t' := by
  unfold NonDecreasing at h ⊢
  rw [List.flatMap_append, List.flatMap_singleton, List.pairwise_append] at h
  exact ⟨h.1, h.2.2⟩

theorem stateAt_concat (calls : List WindowCall) (call : WindowCall) :
    stateAt cfg (calls ++ [call]) = (windowStep cfg (stateAt cfg calls) call).1 := by
  rw [stateAt_append]
  rfl

theorem NeverEvicted.concat {calls : List WindowCall} {call : WindowCall} (h : NeverEvicted cfg key (calls ++ [call])) :
    NeverEvicted cfg key calls ∧ NotEvicted cfg key (stateAt cfg calls) call := by
  obtain ⟨hcalls, hcall⟩ := allSteps_append.mp h
  exact ⟨hcalls, hcall.1⟩

/-! ### What a check does -/

/-- A call is admitted on its count alone. -/
theorem check_eq_true_iff (hmax : 1 ≤ cfg.maxRequests) :
    (check cfg windows c).2 = true ↔ (standing cfg windows c).1 < cfg.maxRequests := by
  unfold check standing
  cases hlookup : AList.lookup c.key windows with
  | none => exact iff_of_true rfl hmax
  | some window =>
    obtain ⟨count, start⟩ := window
    dsimp only
    split
    · exact iff_of_true rfl hmax
    · split
      · rename_i hcount
        exact iff_of_true rfl hcount
      · rename_i hcount
        exact iff_of_false Bool.false_ne_true hcount

theorem lookup_check (h : (check cfg windows c).2 = true) :
    (check cfg windows c).1.lookup c.key = some ((standing cfg windows c).1 + 1, (standing cfg windows c).2) := by
  unfold check standing at *
  cases hlookup : AList.lookup c.key windows with
  | none =>
    dsimp only
    rw [AList.lookup_insert]
  | some window =>
    obtain ⟨count, start⟩ := window
    rw [hlookup] at h
    dsimp only at h ⊢
    split at h
    · rename_i hover
      rw [if_pos hover, if_pos hover, AList.lookup_insert]
    · rename_i hopen
      rw [if_neg hopen, if_neg hopen]
      split at h
      · rename_i hcount
        rw [if_pos hcount, AList.lookup_insert]
      · cases h

theorem lookup_evictLeast_or (n : Nat) (ranked : List (Nat × RateLimitKey)) (windows : Windows) (key : RateLimitKey) :
    (evictLeast n ranked windows).lookup key = windows.lookup key ∨ (evictLeast n ranked windows).lookup key = none := by
  unfold evictLeast
  rw [Table.lookup_removeAll]
  split
  · exact Or.inr rfl
  · exact Or.inl rfl

theorem lookup_cleanup_or (cfg : RateLimitConfig) (windows : Windows) (key : RateLimitKey) (now : Nat) :
    (cleanup cfg windows now).lookup key = windows.lookup key ∨
    (cleanup cfg windows now).lookup key = none := by
  rw [lookup_cleanup]
  cases windows.lookup key with
  | none => exact Or.inl rfl
  | some entry =>
    rw [Option.filter_some]
    split
    · exact Or.inl rfl
    · exact Or.inr rfl

/-- The entries that remain are not changed. -/
theorem lookup_makeRoom_or (cfg : RateLimitConfig) (windows : Windows) (c : CheckCall) (key : RateLimitKey) :
    (makeRoom cfg windows c).lookup key = windows.lookup key ∨
    (makeRoom cfg windows c).lookup key = none := by
  have hcleaned := lookup_cleanup_or cfg windows key c.cleanupNow
  unfold makeRoom
  dsimp only
  split
  · exact Or.inl rfl
  · split
    · exact hcleaned
    · have hlowest := lookup_evictLeast_or 10000 (((c.lowest.order (cleanup cfg windows c.cleanupNow).entries).filter
        fun e => e.2.1 < cfg.maxRequests).map fun e => (e.2.1, e.1)) (cleanup cfg windows c.cleanupNow) key
      split
      · rcases hlowest with h | h
        · exact hcleaned.imp h.trans h.trans
        · exact Or.inr h
      · rcases lookup_evictLeast_or 1000 _ _ key with h | h
        · rcases hlowest with h' | h'
          · exact hcleaned.imp (h.trans h').trans (h.trans h').trans
          · exact Or.inr (h.trans h')
        · exact Or.inr h

/-- A step that admits no call of the key keeps its entry, or drops it when its window is over. -/
theorem lookup_windowStep {call : WindowCall} (hwindow : 0 < cfg.window) (hkept : NotEvicted cfg key windows call)
    (hnone : admission cfg key windows call = []) :
    (windowStep cfg windows call).1.lookup key = windows.lookup key ∨
      (windowStep cfg windows call).1.lookup key = none ∧
        ∀ entry, windows.lookup key = some entry → ∃ t ∈ call.times, entry.2 + cfg.window ≤ t := by
  cases call with
  | cleanup now =>
    rcases lookup_cleanup_or cfg windows key now with h | h
    · exact Or.inl h
    · refine Or.inr ⟨h, fun entry hentry => ⟨now, List.mem_cons_self, ?_⟩⟩
      rw [lookup_cleanup, hentry, Option.filter_some] at h
      split at h
      · cases h
      · rename_i hover
        rw [decide_eq_true_eq] at hover
        omega
  | check c =>
    show (check cfg windows c).1.lookup key = _ ∨ (check cfg windows c).1.lookup key = none ∧ _
    rw [admission] at hnone
    by_cases hkey : c.key = key
    · have hrefused : (check cfg windows c).2 = false := by
        by_contra h
        rw [if_pos ⟨hkey, by simpa using h⟩] at hnone
        cases hnone
      obtain ⟨-, -, -, hsame⟩ := throttles_of_refused hrefused
      rw [hsame]
      exact Or.inl rfl
    · unfold check
      split
      · split
        · exact Or.inl (AList.lookup_insert_ne (Ne.symm hkey))
        · split
          · exact Or.inl (AList.lookup_insert_ne (Ne.symm hkey))
          · exact Or.inl rfl
      · rename_i hnew
        rw [AList.lookup_insert_ne (Ne.symm hkey)]
        rcases lookup_makeRoom_or cfg windows c key with h | h
        · exact Or.inl h
        · refine Or.inr ⟨h, fun entry hentry => ⟨c.cleanupNow, List.mem_cons_of_mem _ List.mem_cons_self, ?_⟩⟩
          have hover := hkept hnew entry hentry h
          omega

/-! ### What the limiter knows about a key -/

/-- An entry counts the admitted calls since the begin of its window, the first of which has begun it. -/
structure Accounts (cfg : RateLimitConfig) (times : List Nat) (entry : Nat × Nat) : Prop where
  split : ∃ old new, times = old ++ entry.2 :: new ∧ new.length + 1 = entry.1 ∧ (∀ t ∈ old, t < entry.2) ∧
    ∀ t ∈ new, entry.2 ≤ t ∧ t < entry.2 + cfg.window
  bound : entry.1 ≤ cfg.maxRequests

/-- The entry of a key accounts for its calls; a key without an entry has no calls, or its last window is over. -/
def Accounted (cfg : RateLimitConfig) (key : RateLimitKey) (calls : List WindowCall) : Prop :=
  (∀ entry, (stateAt cfg calls).lookup key = some entry → Accounts cfg (admitted cfg key calls) entry) ∧
    ((stateAt cfg calls).lookup key = none → admitted cfg key calls = [] ∨ ∃ entry,
      Accounts cfg (admitted cfg key calls) entry ∧ ∃ t ∈ calls.flatMap WindowCall.times, entry.2 + cfg.window ≤ t)

variable {times : List Nat} {entry : Nat × Nat} {t : Nat}

theorem Accounts.start_mem (h : Accounts cfg times entry) : entry.2 ∈ times := by
  obtain ⟨old, new, rfl, -, -, -⟩ := h.split
  exact List.mem_append_right _ List.mem_cons_self

/-- When the window is over, all its calls are in the past. -/
theorem Accounts.lt_of_over (h : Accounts cfg times entry) (hwindow : 0 < cfg.window) (hover : entry.2 + cfg.window ≤ t) :
    ∀ u ∈ times, u < t := by
  obtain ⟨old, new, rfl, -, hold, hnew⟩ := h.split
  intro u hu
  rcases List.mem_append.mp hu with hu | hu
  · have := hold u hu
    omega
  · rcases List.mem_cons.mp hu with rfl | hu
    · omega
    · have := hnew u hu
      omega

/-- A window that may have one call has the call that has begun it. -/
theorem Accounts.le_start (h : Accounts cfg times entry) (hone : cfg.maxRequests = 1) : ∀ u ∈ times, u ≤ entry.2 := by
  have hbound := h.bound
  obtain ⟨old, new, rfl, hlength, hold, -⟩ := h.split
  have hnew : new = [] := List.eq_nil_of_length_eq_zero (by omega)
  intro u hu
  rcases List.mem_append.mp hu with hu | hu
  · exact (hold u hu).le
  · rw [hnew, List.mem_singleton] at hu
    exact hu.le

/-- A call in the window is counted. -/
theorem Accounts.concat (h : Accounts cfg times entry) (hstart : entry.2 ≤ t) (hopen : t < entry.2 + cfg.window)
    (hcount : entry.1 < cfg.maxRequests) : Accounts cfg (times ++ [t]) (entry.1 + 1, entry.2) := by
  obtain ⟨old, new, rfl, hlength, hold, hnew⟩ := h.split
  refine ⟨⟨old, new ++ [t], ?_, ?_, hold, ?_⟩, hcount⟩
  · rw [List.append_assoc, List.cons_append]
  · rw [List.length_append, List.length_singleton]
    dsimp only
    omega
  · intro u hu
    rcases List.mem_append.mp hu with hu | hu
    · exact hnew u hu
    · rw [List.mem_singleton.mp hu]
      exact ⟨hstart, hopen⟩

/-- A call after the window begins a new one. -/
theorem accounts_begin (hpast : ∀ u ∈ times, u < t) (hmax : 1 ≤ cfg.maxRequests) :
    Accounts cfg (times ++ [t]) (1, t) :=
  ⟨⟨times, [], rfl, rfl, hpast, fun _ hu => absurd hu List.not_mem_nil⟩, hmax⟩

/-- A check finds the window of the key open, or all the admitted calls of the key are in the past. -/
theorem Accounted.standing {calls : List WindowCall} (h : Accounted cfg c.key calls) (hwindow : 0 < cfg.window)
    (hlate : ∀ t ∈ calls.flatMap WindowCall.times, t ≤ c.now) :
    (∃ entry, Accounts cfg (admitted cfg c.key calls) entry ∧ c.now < entry.2 + cfg.window ∧
        standing cfg (stateAt cfg calls) c = entry) ∨
      standing cfg (stateAt cfg calls) c = (0, c.now) ∧ (∀ u ∈ admitted cfg c.key calls, u < c.now) ∧
        (cfg.maxRequests = 1 → ∀ u ∈ admitted cfg c.key calls, u + cfg.window ≤ c.now) := by
  unfold OpenProxy.Limits.standing
  cases hlookup : (stateAt cfg calls).lookup c.key with
  | none =>
    refine Or.inr ⟨rfl, ?_⟩
    rcases h.2 hlookup with hnone | ⟨entry, haccounts, t, ht, hover⟩
    · rw [hnone]
      exact ⟨fun u hu => absurd hu List.not_mem_nil, fun _ u hu => absurd hu List.not_mem_nil⟩
    · have := hlate t ht
      refine ⟨haccounts.lt_of_over hwindow (by omega), fun hone u hu => ?_⟩
      have := haccounts.le_start hone u hu
      omega
  | some entry =>
    have haccounts := h.1 entry hlookup
    have hstart := hlate _ (mem_times_of_admitted haccounts.start_mem)
    obtain ⟨count, start⟩ := entry
    dsimp only at hstart ⊢
    split
    · refine Or.inr ⟨rfl, haccounts.lt_of_over hwindow (by dsimp only; omega), fun hone u hu => ?_⟩
      have hle : u ≤ start := haccounts.le_start hone u hu
      omega
    · exact Or.inl ⟨_, haccounts, by dsimp only; omega, rfl⟩

theorem Accounted.step {calls : List WindowCall} {call : WindowCall} (h : Accounted cfg key calls)
    (hmax : 1 ≤ cfg.maxRequests) (hwindow : 0 < cfg.window) (htimes : NonDecreasing (calls ++ [call]))
    (hkept : NotEvicted cfg key (stateAt cfg calls) call) : Accounted cfg key (calls ++ [call]) := by
  have hmem : ∀ t, (t ∈ calls.flatMap WindowCall.times ∨ t ∈ call.times) →
      t ∈ (calls ++ [call]).flatMap WindowCall.times := by
    intro t ht
    rwa [List.flatMap_append, List.mem_append, List.flatMap_singleton]
  unfold Accounted
  rw [stateAt_concat, admitted_concat]
  by_cases hnone : admission cfg key (stateAt cfg calls) call = []
  · rw [hnone, List.append_nil]
    rcases lookup_windowStep hwindow hkept hnone with hsame | ⟨hgone, hover⟩
    · rw [hsame]
      refine ⟨h.1, fun hlookup => (h.2 hlookup).imp_right ?_⟩
      rintro ⟨entry, haccounts, t, ht, hover⟩
      exact ⟨entry, haccounts, t, hmem t (Or.inl ht), hover⟩
    · rw [hgone]
      refine ⟨fun entry hentry => (Option.some_ne_none entry hentry.symm).elim, fun _ => ?_⟩
      cases hlookup : (stateAt cfg calls).lookup key with
      | none =>
        refine (h.2 hlookup).imp_right ?_
        rintro ⟨entry, haccounts, t, ht, hover⟩
        exact ⟨entry, haccounts, t, hmem t (Or.inl ht), hover⟩
      | some entry =>
        obtain ⟨t, ht, hle⟩ := hover entry hlookup
        exact Or.inr ⟨entry, h.1 entry hlookup, t, hmem t (Or.inr ht), hle⟩
  · cases call with
    | cleanup now => exact absurd rfl hnone
    | check c =>
      rw [admission] at hnone ⊢
      obtain ⟨rfl, hadmitted⟩ : c.key = key ∧ (check cfg (stateAt cfg calls) c).2 = true := by
        by_contra hcon
        exact hnone (if_neg hcon)
      rw [if_pos ⟨rfl, hadmitted⟩]
      have hcount := (check_eq_true_iff hmax).mp hadmitted
      have hlookup := lookup_check hadmitted
      have hlate : ∀ t ∈ calls.flatMap WindowCall.times, t ≤ c.now :=
        fun t ht => htimes.concat.2 t ht c.now List.mem_cons_self
      show (∀ entry, (check cfg (stateAt cfg calls) c).1.lookup c.key = some entry → _) ∧
        ((check cfg (stateAt cfg calls) c).1.lookup c.key = none → _)
      rw [hlookup]
      refine ⟨fun entry hentry => ?_, fun hcon => absurd hcon (Option.some_ne_none _)⟩
      rw [← Option.some.inj hentry]
      rcases h.standing hwindow hlate with ⟨entry, haccounts, hopen, hstanding⟩ | ⟨hstanding, hpast, -⟩
      · rw [hstanding] at hcount ⊢
        exact haccounts.concat (hlate _ (mem_times_of_admitted haccounts.start_mem)) hopen hcount
      · rw [hstanding]
        exact accounts_begin hpast hmax

/-- What the limiter knows about a key that is never evicted. -/
theorem accounted (hmax : 1 ≤ cfg.maxRequests) (hwindow : 0 < cfg.window) {calls : List WindowCall}
    (htimes : NonDecreasing calls) (hkept : NeverEvicted cfg key calls) : Accounted cfg key calls := by
  induction calls using List.reverseRecOn with
  | nil => exact ⟨fun entry hentry => (Option.some_ne_none entry hentry.symm).elim, fun _ => Or.inl rfl⟩
  | append_singleton calls call ih =>
    exact (ih htimes.concat.1 hkept.concat.1).step hmax hwindow htimes hkept.concat.2

/-- The calls in the last window are those that are counted and those that are forgotten. -/
theorem length_last_window {calls : List WindowCall} (h : Accounted cfg c.key calls) (hwindow : 0 < cfg.window)
    (hlate : ∀ t ∈ calls.flatMap WindowCall.times, t ≤ c.now) :
    ((admitted cfg c.key calls).filter fun u => decide (c.now < u + cfg.window)).length =
      (standing cfg (stateAt cfg calls) c).1 +
        (forgotten cfg (admitted cfg c.key calls) (stateAt cfg calls) c).length := by
  unfold forgotten
  rcases h.standing hwindow hlate with ⟨entry, haccounts, hopen, hstanding⟩ | ⟨hstanding, hpast, -⟩
  · obtain ⟨old, new, hsplit, hlength, hold, hnew⟩ := haccounts.split
    rw [hstanding, hsplit, List.filter_append, List.filter_append, List.length_append, List.length_append]
    have hcounted : (entry.2 :: new).filter (fun u => decide (c.now < u + cfg.window)) = entry.2 :: new := by
      refine List.filter_eq_self.mpr fun u hu => decide_eq_true ?_
      rcases List.mem_cons.mp hu with rfl | hu
      · exact hopen
      · have := hnew u hu
        omega
    have hremembered : (entry.2 :: new).filter (fun u => decide (u < entry.2 ∧ c.now < u + cfg.window)) = [] := by
      refine List.filter_eq_nil_iff.mpr fun u hu => ?_
      rw [decide_eq_true_eq]
      rcases List.mem_cons.mp hu with rfl | hu
      · omega
      · have := hnew u hu
        omega
    have hsame : old.filter (fun u => decide (u < entry.2 ∧ c.now < u + cfg.window)) =
        old.filter fun u => decide (c.now < u + cfg.window) := by
      refine List.filter_congr fun u hu => ?_
      rw [decide_eq_decide]
      exact and_iff_right (hold u hu)
    rw [hcounted, hremembered, hsame, List.length_cons, List.length_nil]
    omega
  · rw [hstanding, Nat.zero_add]
    refine congrArg List.length (List.filter_congr fun u hu => ?_)
    rw [decide_eq_decide]
    exact (and_iff_right (hpast u hu)).symm

/-! ### The promise -/

theorem noneForgotten_concat_iff {calls : List WindowCall} {call : WindowCall} :
    NoneForgotten cfg key (calls ++ [call]) ↔ NoneForgotten cfg key calls ∧
      ∀ c, call = .check c → c.key = key → (check cfg (stateAt cfg calls) c).2 = true →
        (standing cfg (stateAt cfg calls) c).1 +
          (forgotten cfg (admitted cfg key calls) (stateAt cfg calls) c).length < cfg.maxRequests := by
  constructor
  · intro h
    refine ⟨fun before c hbefore => h before c (hbefore.trans (List.prefix_append _ _)), ?_⟩
    rintro c rfl
    exact h calls c (List.prefix_refl _)
  · rintro ⟨hcalls, hcall⟩ before c hbefore
    rcases List.prefix_concat_iff.mp hbefore with heq | hbefore
    · obtain ⟨rfl, hlast⟩ := List.append_inj' heq rfl
      exact hcall c (List.singleton_inj.mp hlast).symm
    · exact hcalls before c hbefore

/-- On a run, the promise is kept if and only if no forgotten call matters. -/
theorem slidingLimit_iff (hmax : 1 ≤ cfg.maxRequests) {calls : List WindowCall} (htimes : NonDecreasing calls)
    (hkept : NeverEvicted cfg key calls) : SlidingLimit cfg key calls ↔ NoneForgotten cfg key calls := by
  induction calls using List.reverseRecOn with
  | nil =>
    refine iff_of_true (fun start => Nat.zero_le _) fun before c hbefore => ?_
    have := hbefore.length_le
    rw [List.length_append, List.length_singleton, List.length_nil] at this
    omega
  | append_singleton calls call ih =>
    obtain ⟨hbefore, hlate⟩ := htimes.concat
    replace hkept := hkept.concat.1
    replace ih := ih hbefore hkept
    have hbelow : ∀ u ∈ admitted cfg key calls, ∀ t ∈ call.times, u ≤ t :=
      fun u hu t ht => hlate u (mem_times_of_admitted hu) t ht
    rw [noneForgotten_concat_iff, ← ih]
    unfold SlidingLimit
    rw [admitted_concat]
    cases call with
    | cleanup now =>
      rw [show admission cfg key (stateAt cfg calls) (.cleanup now) = [] from rfl, List.append_nil]
      exact (and_iff_left nofun).symm
    | check c =>
      rw [admission]
      split
      · rename_i hadmitted
        obtain ⟨rfl, hadmitted⟩ := hadmitted
        have hnow : ∀ u ∈ admitted cfg c.key calls, u ≤ c.now := fun u hu => hbelow u hu c.now List.mem_cons_self
        have hlast : (∀ c', WindowCall.check c = .check c' → c'.key = c.key →
            (check cfg (stateAt cfg calls) c').2 = true → (standing cfg (stateAt cfg calls) c').1 +
              (forgotten cfg (admitted cfg c.key calls) (stateAt cfg calls) c').length < cfg.maxRequests) ↔
            (standing cfg (stateAt cfg calls) c).1 +
              (forgotten cfg (admitted cfg c.key calls) (stateAt cfg calls) c).length < cfg.maxRequests := by
          constructor
          · exact fun h => h c rfl rfl hadmitted
          · rintro h c' hc' - -
            rwa [← WindowCall.check.inj hc']
        rw [hlast]
        rcases Nat.eq_zero_or_pos cfg.window with hzero | hwindow
        · -- An interval of no length has no calls, and no call is less than nothing ago.
          have hnone : ∀ (times : List Nat) (start : Nat), (during times start cfg.window).length ≤ cfg.maxRequests := by
            intro times start
            rw [hzero, during_zero]
            exact Nat.zero_le _
          have hforgotten : forgotten cfg (admitted cfg c.key calls) (stateAt cfg calls) c = [] := by
            refine List.filter_eq_nil_iff.mpr fun u hu => ?_
            have := hnow u hu
            rw [decide_eq_true_eq]
            omega
          rw [hforgotten, List.length_nil, Nat.add_zero]
          exact iff_of_true (hnone _) ⟨hnone _, (check_eq_true_iff hmax).mp hadmitted⟩
        · have haccounted := accounted hmax hwindow hbefore hkept
          rw [during_concat_le_iff hnow hwindow, length_last_window haccounted hwindow
            fun t ht => hlate t ht c.now List.mem_cons_self]
      · rename_i hnone
        rw [List.append_nil]
        refine (and_iff_left ?_).symm
        rintro c' hc' hkey hadmitted
        rw [← WindowCall.check.inj hc'] at hkey hadmitted
        exact absurd ⟨hkey, hadmitted⟩ hnone

theorem NonDecreasing.of_prefix {calls before : List WindowCall} (h : NonDecreasing calls) (hbefore : before <+: calls) :
    NonDecreasing before := by
  obtain ⟨after, rfl⟩ := hbefore
  unfold NonDecreasing at h ⊢
  rw [List.flatMap_append] at h
  exact (List.pairwise_append.mp h).1

theorem NeverEvicted.of_prefix {calls before : List WindowCall} (h : NeverEvicted cfg key calls)
    (hbefore : before <+: calls) : NeverEvicted cfg key before := by
  obtain ⟨after, rfl⟩ := hbefore
  exact (allSteps_append.mp h).1

/-- With one call in a window, or windows that are not longer than a tick of the clock, no forgotten call matters. -/
theorem noneForgotten_of_trivial (hmax : 1 ≤ cfg.maxRequests) (hsmall : cfg.maxRequests = 1 ∨ cfg.window ≤ 1)
    {calls : List WindowCall} (htimes : NonDecreasing calls) (hkept : NeverEvicted cfg key calls) :
    NoneForgotten cfg key calls := by
  rintro before c hbefore rfl hadmitted
  have hcount := (check_eq_true_iff hmax).mp hadmitted
  obtain ⟨htimes, hlate⟩ := (htimes.of_prefix hbefore).concat
  have hlate : ∀ t ∈ before.flatMap WindowCall.times, t ≤ c.now := fun t ht => hlate t ht c.now List.mem_cons_self
  have hforgotten : forgotten cfg (admitted cfg c.key before) (stateAt cfg before) c = [] := by
    refine List.filter_eq_nil_iff.mpr fun u hu => ?_
    have hnow := hlate u (mem_times_of_admitted hu)
    rw [decide_eq_true_eq]
    rintro ⟨hstart, hrecent⟩
    have hwindow : 0 < cfg.window := by omega
    rcases (accounted hmax hwindow htimes (hkept.of_prefix hbefore).concat.1).standing hwindow hlate with
      ⟨entry, haccounts, -, hstanding⟩ | ⟨hstanding, hpast, hone⟩
    · rw [hstanding] at hstart hcount
      rcases hsmall with hsingle | htick
      · obtain ⟨old, new, -, hlength, -, -⟩ := haccounts.split
        omega
      · have hbegun := hlate _ (mem_times_of_admitted haccounts.start_mem)
        omega
    · rcases hsmall with hsingle | htick
      · have := hone hsingle u hu
        omega
      · have := hpast u hu
        omega
  rw [hforgotten, List.length_nil, Nat.add_zero]
  exact hcount

/-! ### Calls around the end of a window -/

/-- Calls of one key at some times. -/
def callsAt (key : RateLimitKey) (times : List Nat) : List WindowCall := times.map fun t => .check (callAt key t)

theorem callsAt_concat (key : RateLimitKey) (times : List Nat) (t : Nat) :
    callsAt key (times ++ [t]) = callsAt key times ++ [.check (callAt key t)] := List.map_append

theorem mem_times_callsAt {u : Nat} : u ∈ (callsAt key times).flatMap WindowCall.times ↔ u ∈ times := by
  unfold callsAt
  rw [List.flatMap_map, List.mem_flatMap]
  constructor
  · rintro ⟨t, ht, hu⟩
    have : u = t := by simpa [WindowCall.times, callAt] using hu
    exact this ▸ ht
  · exact fun hu => ⟨u, hu, List.mem_cons_self⟩

theorem nonDecreasing_callsAt (h : times.Pairwise (· ≤ ·)) : NonDecreasing (callsAt key times) := by
  induction times using List.reverseRecOn with
  | nil => exact List.Pairwise.nil
  | append_singleton times t ih =>
    obtain ⟨htimes, -, hle⟩ := List.pairwise_append.mp h
    have ih := ih htimes
    unfold NonDecreasing at ih ⊢
    rw [callsAt_concat, List.flatMap_append, List.pairwise_append]
    refine ⟨ih, by simp [WindowCall.times, callAt], ?_⟩
    intro u hu u' hu'
    have hsame : u' = t := by simpa [WindowCall.times, callAt] using hu'
    rw [hsame]
    exact hle u (mem_times_callsAt.mp hu) t List.mem_cons_self

/-- A key that calls alone is not evicted. -/
theorem neverEvicted_callsAt (cfg : RateLimitConfig) (key : RateLimitKey) (times : List Nat) :
    NeverEvicted cfg key (callsAt key times) := by
  unfold NeverEvicted
  generalize (∅ : Windows) = windows
  induction times generalizing windows with
  | nil => trivial
  | cons t times ih =>
    refine ⟨fun hnew entry hentry => ?_, ih _⟩
    rw [show (callAt key t).key = key from rfl] at hnew
    rw [hnew] at hentry
    cases hentry

/-- What is known after a first call and some calls at the end of its window. -/
theorem state_burst (key : RateLimitKey) (hwindow : 2 ≤ cfg.window) {n : Nat} (hn : n + 1 ≤ cfg.maxRequests) :
    (stateAt cfg (callsAt key (0 :: List.replicate n (cfg.window - 1)))).lookup key = some (n + 1, 0) ∧
      admitted cfg key (callsAt key (0 :: List.replicate n (cfg.window - 1))) = 0 :: List.replicate n (cfg.window - 1) := by
  have hkey : ∀ t, (callAt key t).key = key := fun _ => rfl
  induction n with
  | zero =>
    have hadmitted : (check cfg ∅ (callAt key 0)).2 = true := rfl
    have hlookup := lookup_check hadmitted
    have hadmission : admission cfg key ∅ (.check (callAt key 0)) = [0] := if_pos ⟨rfl, hadmitted⟩
    refine ⟨hlookup, ?_⟩
    show admission cfg key ∅ (.check (callAt key 0)) ++ [] = _
    rw [hadmission]
    rfl
  | succ n ih =>
    obtain ⟨hlookup, hbefore⟩ := ih (by omega)
    rw [List.replicate_succ', ← List.cons_append, callsAt_concat, stateAt_concat, admitted_concat, hbefore]
    generalize stateAt cfg (callsAt key (0 :: List.replicate n (cfg.window - 1))) = windows at hlookup
    have hstanding : standing cfg windows (callAt key (cfg.window - 1)) = (n + 1, 0) := by
      unfold standing
      rw [hkey, hlookup]
      exact if_neg (by show ¬ cfg.window ≤ cfg.window - 1 - 0; omega)
    have hadmitted : (check cfg windows (callAt key (cfg.window - 1))).2 = true := by
      rw [check_eq_true_iff (by omega), hstanding]
      exact hn
    have hafter := lookup_check hadmitted
    rw [hstanding] at hafter
    refine ⟨hafter, ?_⟩
    rw [admission, if_pos ⟨rfl, hadmitted⟩]
    rfl

/-- More than one call at most in a window of more than one tick: then a call after the end of a window admits too many. -/
theorem not_noneForgotten_straddling (hmax : 2 ≤ cfg.maxRequests) (hwindow : 2 ≤ cfg.window) :
    ¬ NoneForgotten cfg key
      (callsAt key (0 :: List.replicate (cfg.maxRequests - 1) (cfg.window - 1) ++ [cfg.window] ++ [cfg.window])) := by
  intro h
  obtain ⟨hlookup, hbefore⟩ := state_burst key hwindow (show cfg.maxRequests - 1 + 1 ≤ cfg.maxRequests by omega)
  rw [callsAt_concat, callsAt_concat] at h
  have hlast := (noneForgotten_concat_iff.mp h).2 _ rfl rfl
  rw [stateAt_concat, admitted_concat, hbefore] at hlast
  generalize stateAt cfg (callsAt key (0 :: List.replicate (cfg.maxRequests - 1) (cfg.window - 1))) = windows
    at hlookup hlast
  have hkey : (callAt key cfg.window).key = key := rfl
  have hover : standing cfg windows (callAt key cfg.window) = (0, cfg.window) := by
    unfold standing
    rw [hkey, hlookup]
    exact if_pos (Nat.le_refl _)
  have hfirst : (check cfg windows (callAt key cfg.window)).2 = true := by
    rw [check_eq_true_iff (by omega), hover]
    show 0 < cfg.maxRequests
    omega
  have hafter := lookup_check hfirst
  rw [hover] at hafter
  rw [admission, if_pos ⟨rfl, hfirst⟩] at hlast
  replace hlast : (check cfg (check cfg windows (callAt key cfg.window)).1 (callAt key cfg.window)).2 = true →
    (standing cfg (check cfg windows (callAt key cfg.window)).1 (callAt key cfg.window)).1 +
      (forgotten cfg ((0 :: List.replicate (cfg.maxRequests - 1) (cfg.window - 1)) ++ [cfg.window])
        (check cfg windows (callAt key cfg.window)).1 (callAt key cfg.window)).length < cfg.maxRequests := hlast
  generalize (check cfg windows (callAt key cfg.window)).1 = windows' at hafter hlast
  have hnew : standing cfg windows' (callAt key cfg.window) = (1, cfg.window) := by
    unfold standing
    rw [hafter]
    exact if_neg (by show ¬ cfg.window ≤ cfg.window - cfg.window; omega)
  have hless := hlast (by rw [check_eq_true_iff (by omega), hnew]; exact hmax)
  have hforgotten : cfg.maxRequests - 1 ≤ (forgotten cfg
      ((0 :: List.replicate (cfg.maxRequests - 1) (cfg.window - 1)) ++ [cfg.window]) windows'
      (callAt key cfg.window)).length := by
    unfold forgotten
    rw [hnew]
    have hsub : (List.replicate (cfg.maxRequests - 1) (cfg.window - 1)).Sublist
        ((0 :: List.replicate (cfg.maxRequests - 1) (cfg.window - 1)) ++ [cfg.window]) :=
      (List.sublist_cons_self _ _).trans (List.sublist_append_left _ _)
    have hle := (hsub.filter fun t => decide (t < cfg.window ∧ cfg.window < t + cfg.window)).length_le
    rw [List.filter_eq_self.mpr, List.length_replicate] at hle
    · exact hle
    · intro t ht
      have hlate := List.eq_of_mem_replicate ht
      rw [decide_eq_true_eq]
      omega
  rw [hnew] at hless
  omega

end

/-- The promise is kept on every run if and only if a window has one call or is one tick long at most, and on a single run
if and only if the calls that a new window forgets never matter. -/
theorem sliding_iff (cfg : RateLimitConfig) (hmax : 1 ≤ cfg.maxRequests) :
    ((∀ key calls, NonDecreasing calls → NeverEvicted cfg key calls → SlidingLimit cfg key calls) ↔
        cfg.maxRequests = 1 ∨ cfg.window ≤ 1) ∧
      ∀ key calls, NonDecreasing calls → NeverEvicted cfg key calls →
        (SlidingLimit cfg key calls ↔ NoneForgotten cfg key calls) := by
  refine ⟨⟨fun h => ?_, ?_⟩, fun key calls => slidingLimit_iff hmax⟩
  · by_contra hcon
    rw [not_or] at hcon
    have htimes : (0 :: List.replicate (cfg.maxRequests - 1) (cfg.window - 1) ++ [cfg.window] ++ [cfg.window]).Pairwise
        (· ≤ ·) := by
      simp [List.pairwise_append, List.pairwise_replicate]
    have hlimit := h (.key 0) _ (nonDecreasing_callsAt htimes) (neverEvicted_callsAt cfg _ _)
    exact not_noneForgotten_straddling (by omega) (by omega)
      ((slidingLimit_iff hmax (nonDecreasing_callsAt htimes) (neverEvicted_callsAt cfg _ _)).mp hlimit)
  · exact fun hsmall key calls htimes hkept =>
      (slidingLimit_iff hmax htimes hkept).mpr (noneForgotten_of_trivial hmax hsmall htimes hkept)

theorem sliding_iff_two : SlidingLimit ⟨2, 10, 100⟩ (.key 7) (callsAt (.key 7) [0, 9, 19]) ↔
    NoneForgotten ⟨2, 10, 100⟩ (.key 7) (callsAt (.key 7) [0, 9, 19]) :=
  (sliding_iff ⟨2, 10, 100⟩ (by decide)).2 (.key 7) (callsAt (.key 7) [0, 9, 19]) (nonDecreasing_callsAt (by decide))
    (neverEvicted_callsAt _ _ _)

/-- Three calls within two ticks, where there may be two within ten. -/
theorem not_slidingLimit_straddling :
    ¬ ∀ cfg : RateLimitConfig, 1 ≤ cfg.maxRequests → ∀ key calls, NonDecreasing calls → NeverEvicted cfg key calls →
      SlidingLimit cfg key calls := fun h =>
  absurd (h ⟨2, 10, 100⟩ (by decide) (.key 7) (callsAt (.key 7) [0, 9, 10, 10]) (nonDecreasing_callsAt (by decide))
    (neverEvicted_callsAt _ _ _) 9) (by decide)

end OpenProxy.Limits
