import OpenProxy.Data.Machine
import OpenProxy.Data.Table
import OpenProxy.Net.IpAddr

/-!
# The request limiter

The model of `SlidingWindowRateLimiter` in `rate_limit.rs`.  A key has a count and the time at which its window has begun;
times are nanoseconds.  A map that is full is cleaned up when a new key comes, then the keys with the lowest counts below the
limit are evicted, and then, as a last resort, some keys whatever their counts are.

The map stays within its capacity (`length_stateAt_le`).  A throttle is only lifted before the end of its window where every
entry is a throttle (`Throttles.step`), and then the youngest of them are evicted first: the sort is by age, from the lowest
on (`oldestFirst_iff`).
-/

namespace OpenProxy.Limits

inductive RateLimitKey
  | key (id : Int)
  | ip (addr : Net.IpAddr)
  deriving DecidableEq, Repr

structure RateLimitConfig where
  maxRequests : Nat
  window : Nat
  maxCapacity : Nat
  deriving DecidableEq, Repr

/-- The counts of the keys and the times at which their windows have begun. -/
abbrev Windows := Table RateLimitKey (Nat × Nat)

/-- A key with its count and the begin of its window. -/
abbrev WindowEntry := Σ _ : RateLimitKey, Nat × Nat

/-- An order in which a map is gone through; with it, a sort that is not stable leaves equal elements in any order. -/
structure Traversal where
  order : List WindowEntry → List WindowEntry
  perm : ∀ l, (order l).Perm l

/-- A call of `check`: the key, what the clock says to it, to `cleanup` and to the last eviction, and the orders of the
map. -/
structure CheckCall where
  key : RateLimitKey
  now : Nat
  cleanupNow : Nat
  evictNow : Nat
  lowest : Traversal
  oldest : Traversal

/-- `sort_unstable_by_key`. -/
def byRank (ranked : List (Nat × RateLimitKey)) : List (Nat × RateLimitKey) := ranked.insertionSort fun a b => a.1 ≤ b.1

/-- `take(n)` of the keys by their ranks, and `remove` for each of them. -/
def evictLeast (n : Nat) (ranked : List (Nat × RateLimitKey)) (windows : Windows) : Windows :=
  windows.removeAll (((byRank ranked).take n).map Prod.snd)

section

variable (cfg : RateLimitConfig)

/-- `cleanup`. -/
def cleanup (windows : Windows) (now : Nat) : Windows := windows.retain fun _ entry => decide (now - entry.2 < cfg.window)

def evictLowestCountWindows (windows : Windows) (n : Nat) (traversal : Traversal) : Windows :=
  evictLeast n (((traversal.order windows.entries).filter fun e => e.2.1 < cfg.maxRequests).map fun e => (e.2.1, e.1)) windows

def evictOldestThrottledWindows (windows : Windows) (n now : Nat) (traversal : Traversal) : Windows :=
  evictLeast n ((traversal.order windows.entries).map fun e => (now - e.2.2, e.1)) windows

/-- The map before a new key is inserted. -/
def makeRoom (windows : Windows) (c : CheckCall) : Windows :=
  if windows.entries.length < cfg.maxCapacity then windows
  else
    let windows := cleanup cfg windows c.cleanupNow
    if windows.entries.length < cfg.maxCapacity then windows
    else
      let windows := evictLowestCountWindows cfg windows 10000 c.lowest
      if windows.entries.length < cfg.maxCapacity then windows
      else evictOldestThrottledWindows windows 1000 c.evictNow c.oldest

def check (windows : Windows) (c : CheckCall) : Windows × Bool :=
  match windows.lookup c.key with
  | some (count, start) =>
    if cfg.window ≤ c.now - start then (windows.insert c.key (1, c.now), true)
    else if count < cfg.maxRequests then (windows.insert c.key (count + 1, start), true)
    else (windows, false)
  | none => ((makeRoom cfg windows c).insert c.key (1, c.now), true)

end

/-! ### Runs -/

inductive WindowCall
  | check (c : CheckCall)
  | cleanup (now : Nat)

/-- What the clock says in a call, in order. -/
def WindowCall.times : WindowCall → List Nat
  | .check c => [c.now, c.cleanupNow, c.evictNow]
  | .cleanup now => [now]

/-- The clock does not go back. -/
def NonDecreasing (calls : List WindowCall) : Prop := (calls.flatMap WindowCall.times).Pairwise (· ≤ ·)

/-- A step of the limiter; `cleanup` returns nothing. -/
def windowStep (cfg : RateLimitConfig) (windows : Windows) : WindowCall → Windows × Option Bool
  | .check c => ((check cfg windows c).1, some (check cfg windows c).2)
  | .cleanup now => (cleanup cfg windows now, none)

/-- The map after some calls. -/
def stateAt (cfg : RateLimitConfig) (calls : List WindowCall) : Windows := runState (windowStep cfg) ∅ calls

/-- Every entry is throttled inside its window. -/
def AllThrottled (cfg : RateLimitConfig) (windows : Windows) (now : Nat) : Prop :=
  ∀ e ∈ windows.entries, cfg.maxRequests ≤ e.2.1 ∧ now - e.2.2 < cfg.window

/-- No entry that remains has an earlier window start than an evicted one. -/
def OldestFirst (windows windows' : Windows) : Prop :=
  ∀ e ∈ windows.entries, e.1 ∉ windows' → ∀ e' ∈ windows'.entries, e.2.2 ≤ e'.2.2

/-! ### Evictions -/

section

variable {cfg : RateLimitConfig} {windows : Windows} {n : Nat} {ranked : List (Nat × RateLimitKey)}

theorem byRank_perm (ranked : List (Nat × RateLimitKey)) : (byRank ranked).Perm ranked := List.perm_insertionSort _ _

theorem length_evictLeast_le : (evictLeast n ranked windows).entries.length ≤ windows.entries.length :=
  Table.length_removeAll_le _ _

/-- Something is evicted where there is something to evict. -/
theorem length_evictLeast_lt (hn : 0 < n) (hne : ranked ≠ []) (hkeys : ∀ r ∈ ranked, r.2 ∈ windows) :
    (evictLeast n ranked windows).entries.length < windows.entries.length := by
  obtain ⟨r, hr⟩ : ∃ r, r ∈ (byRank ranked).take n := by
    apply List.exists_mem_of_length_pos
    rw [List.length_take, (byRank_perm ranked).length_eq]
    have := List.length_pos_iff.mpr hne
    omega
  have hmem : r ∈ ranked := (byRank_perm ranked).mem_iff.mp (List.mem_of_mem_take hr)
  exact Table.length_removeAll_lt (List.mem_map_of_mem hr) (hkeys r hmem)

/-- A key that has no rank stays. -/
theorem lookup_evictLeast {key : RateLimitKey} (h : ∀ r ∈ ranked, r.2 ≠ key) :
    (evictLeast n ranked windows).lookup key = windows.lookup key := by
  unfold evictLeast
  rw [Table.lookup_removeAll, if_neg]
  intro hmem
  obtain ⟨r, hr, heq⟩ := List.mem_map.mp hmem
  exact h r ((byRank_perm ranked).mem_iff.mp (List.mem_of_mem_take hr)) heq

theorem mem_of_mem_entries {e : WindowEntry} (h : e ∈ windows.entries) : e.1 ∈ windows :=
  AList.mem_keys.mpr (List.mem_map_of_mem h)

theorem length_cleanup_le (now : Nat) : (cleanup cfg windows now).entries.length ≤ windows.entries.length :=
  List.length_filter_le _ _

theorem lookup_cleanup (now : Nat) (key : RateLimitKey) :
    (cleanup cfg windows now).lookup key = (windows.lookup key).filter fun entry => decide (now - entry.2 < cfg.window) :=
  Table.lookup_retain _ _ _

theorem cleanup_eq_self {now : Nat} (h : ∀ e ∈ windows.entries, now - e.2.2 < cfg.window) :
    cleanup cfg windows now = windows := by
  apply AList.ext
  exact List.filter_eq_self.mpr fun e he => decide_eq_true (h e he)

/-- The keys that `evict_lowest_count_windows` sorts are those below the limit. -/
theorem mem_lowest {traversal : Traversal} {r : Nat × RateLimitKey} :
    r ∈ ((traversal.order windows.entries).filter fun e => e.2.1 < cfg.maxRequests).map (fun e => (e.2.1, e.1)) ↔
      ∃ e ∈ windows.entries, e.2.1 < cfg.maxRequests ∧ r = (e.2.1, e.1) := by
  rw [List.mem_map]
  constructor
  · rintro ⟨e, he, rfl⟩
    obtain ⟨hmem, hlt⟩ := List.mem_filter.mp he
    exact ⟨e, (traversal.perm _).mem_iff.mp hmem, by simpa using hlt, rfl⟩
  · rintro ⟨e, he, hlt, rfl⟩
    exact ⟨e, List.mem_filter.mpr ⟨(traversal.perm _).mem_iff.mpr he, by simpa using hlt⟩, rfl⟩

theorem mem_oldest {traversal : Traversal} {now : Nat} {r : Nat × RateLimitKey} :
    r ∈ (traversal.order windows.entries).map (fun e => (now - e.2.2, e.1)) ↔
      ∃ e ∈ windows.entries, r = (now - e.2.2, e.1) := by
  rw [List.mem_map]
  constructor
  · rintro ⟨e, he, rfl⟩
    exact ⟨e, (traversal.perm _).mem_iff.mp he, rfl⟩
  · rintro ⟨e, he, rfl⟩
    exact ⟨e, (traversal.perm _).mem_iff.mpr he, rfl⟩

/-- Where nothing is below the limit, nothing is evicted for its count. -/
theorem evictLowest_eq_self {traversal : Traversal} (h : ∀ e ∈ windows.entries, cfg.maxRequests ≤ e.2.1) :
    evictLowestCountWindows cfg windows n traversal = windows := by
  have hnone : ((traversal.order windows.entries).filter fun e => e.2.1 < cfg.maxRequests) = [] := by
    rw [List.filter_eq_nil_iff]
    intro e he
    have := h e ((traversal.perm _).mem_iff.mp he)
    simp only [decide_eq_true_eq]
    omega
  unfold evictLowestCountWindows
  rw [hnone]
  unfold evictLeast byRank
  rw [List.map_nil, List.insertionSort_nil, List.take_nil, List.map_nil]
  rfl

/-- If `cleanup` and `evict_lowest_count_windows` remove nothing, every entry is throttled inside its window. -/
theorem allThrottled_of_length {now : Nat} {traversal : Traversal} (hn : 0 < n)
    (h : windows.entries.length ≤
      (evictLowestCountWindows cfg (cleanup cfg windows now) n traversal).entries.length) :
    AllThrottled cfg windows now := by
  have hcleaned : (cleanup cfg windows now).entries.length ≤ windows.entries.length := length_cleanup_le now
  have hopen : ∀ e ∈ windows.entries, now - e.2.2 < cfg.window := by
    have heq : (cleanup cfg windows now).entries.length = windows.entries.length :=
      hcleaned.antisymm (h.trans length_evictLeast_le)
    intro e he
    exact of_decide_eq_true (List.length_filter_eq_length_iff.mp heq e he)
  rw [cleanup_eq_self hopen] at h
  intro e he
  refine ⟨?_, hopen e he⟩
  by_contra hlt
  have hless : (evictLowestCountWindows cfg windows n traversal).entries.length < windows.entries.length := by
    refine length_evictLeast_lt hn (List.ne_nil_of_mem (mem_lowest.mpr ⟨e, he, by omega, rfl⟩)) ?_
    intro r hr
    obtain ⟨e', he', -, rfl⟩ := mem_lowest.mp hr
    exact mem_of_mem_entries he'
  omega

end

/-! ### The size of the map -/

section

variable {cfg : RateLimitConfig} {windows : Windows} {c : CheckCall}

theorem length_makeRoom (h : windows.entries.length ≤ max cfg.maxCapacity 1) :
    (makeRoom cfg windows c).entries.length + 1 ≤ max cfg.maxCapacity 1 := by
  have hcleaned : (cleanup cfg windows c.cleanupNow).entries.length ≤ windows.entries.length := length_cleanup_le _
  have hlowest : (evictLowestCountWindows cfg (cleanup cfg windows c.cleanupNow) 10000 c.lowest).entries.length ≤
      (cleanup cfg windows c.cleanupNow).entries.length := length_evictLeast_le
  unfold makeRoom
  dsimp only
  split
  · omega
  · split
    · omega
    · split
      · omega
      · generalize evictLowestCountWindows cfg (cleanup cfg windows c.cleanupNow) 10000 c.lowest = left at hlowest
        by_cases hempty : left.entries = []
        · have hle : (evictOldestThrottledWindows left 1000 c.evictNow c.oldest).entries.length ≤ left.entries.length :=
            length_evictLeast_le
          rw [hempty, List.length_nil] at hle
          omega
        · obtain ⟨e, he⟩ := List.exists_mem_of_ne_nil _ hempty
          have hlt : (evictOldestThrottledWindows left 1000 c.evictNow c.oldest).entries.length < left.entries.length := by
            refine length_evictLeast_lt (by omega) (List.ne_nil_of_mem (mem_oldest.mpr ⟨e, he, rfl⟩)) ?_
            intro r hr
            obtain ⟨e', he', rfl⟩ := mem_oldest.mp hr
            exact mem_of_mem_entries he'
          omega

theorem length_insert_le (key : RateLimitKey) (entry : Nat × Nat) :
    (windows.insert key entry).entries.length ≤ windows.entries.length + 1 := by
  rw [Table.length_entries, Table.length_entries, AList.keys_insert, List.length_cons]
  exact Nat.succ_le_succ List.length_erase_le

theorem length_insert_of_mem {key : RateLimitKey} (h : key ∈ windows) (entry : Nat × Nat) :
    (windows.insert key entry).entries.length = windows.entries.length := by
  rw [Table.length_entries, Table.length_entries, AList.keys_insert, List.length_cons,
    List.length_erase_of_mem (AList.mem_keys.mp h)]
  exact Nat.sub_add_cancel (List.length_pos_of_mem (AList.mem_keys.mp h))

theorem mem_of_lookup {key : RateLimitKey} {entry : Nat × Nat} (h : windows.lookup key = some entry) : key ∈ windows := by
  rw [← AList.lookup_isSome, h]
  rfl

theorem length_windowStep (h : windows.entries.length ≤ max cfg.maxCapacity 1) (call : WindowCall) :
    (windowStep cfg windows call).1.entries.length ≤ max cfg.maxCapacity 1 := by
  cases call with
  | cleanup now => exact (length_cleanup_le now).trans h
  | check c =>
    show (check cfg windows c).1.entries.length ≤ _
    unfold check
    split
    · rename_i count start hlookup
      have hmem := mem_of_lookup hlookup
      split
      · exact (length_insert_of_mem hmem _).le.trans h
      · split
        · exact (length_insert_of_mem hmem _).le.trans h
        · exact h
    · exact (length_insert_le _ _).trans (length_makeRoom h)

/-- The map stays within its capacity, and has one entry at least where that is zero. -/
theorem length_stateAt_le (cfg : RateLimitConfig) (calls : List WindowCall) :
    (stateAt cfg calls).entries.length ≤ max cfg.maxCapacity 1 := by
  have hstep : ∀ windows call, windows.entries.length ≤ max cfg.maxCapacity 1 →
      (windowStep cfg windows call).1.entries.length ≤ max cfg.maxCapacity 1 :=
    fun _ call h => length_windowStep h call
  exact runState_invariant calls hstep (Nat.zero_le _)

/-! ### Throttles -/

/-- A key has used up its window. -/
def Throttles (cfg : RateLimitConfig) (windows : Windows) (key : RateLimitKey) (start : Nat) : Prop :=
  ∃ count, cfg.maxRequests ≤ count ∧ windows.lookup key = some (count, start)

/-- An insertion finds an entry that is not throttled inside its window. -/
def FindsRoom (cfg : RateLimitConfig) (windows : Windows) : WindowCall → Prop
  | .check c => windows.lookup c.key = none → ¬ AllThrottled cfg windows c.cleanupNow
  | .cleanup _ => True

variable {key : RateLimitKey} {start : Nat}

theorem Throttles.cleanup {now : Nat} (h : Throttles cfg windows key start) (hopen : now - start < cfg.window) :
    Throttles cfg (cleanup cfg windows now) key start := by
  obtain ⟨count, hcount, hlookup⟩ := h
  refine ⟨count, hcount, ?_⟩
  rw [lookup_cleanup, hlookup, Option.filter_some, if_pos (decide_eq_true hopen)]

theorem Throttles.evictLowest {n : Nat} {traversal : Traversal} (h : Throttles cfg windows key start) :
    Throttles cfg (evictLowestCountWindows cfg windows n traversal) key start := by
  obtain ⟨count, hcount, hlookup⟩ := h
  refine ⟨count, hcount, ?_⟩
  rw [← hlookup]
  refine lookup_evictLeast fun r hr hkey => ?_
  obtain ⟨e, he, hlt, rfl⟩ := mem_lowest.mp hr
  have hentry : windows.lookup e.1 = some e.2 := AList.mem_lookup_iff.mpr he
  rw [show e.1 = key from hkey, hlookup] at hentry
  rw [← Option.some.inj hentry] at hlt
  omega

theorem Throttles.makeRoom (h : Throttles cfg windows key start) (hlen : windows.entries.length ≤ max cfg.maxCapacity 1)
    (hopen : c.cleanupNow - start < cfg.window) (hroom : ¬ AllThrottled cfg windows c.cleanupNow) :
    Throttles cfg (makeRoom cfg windows c) key start := by
  have hcleaned := h.cleanup hopen
  have hlowest : Throttles cfg (evictLowestCountWindows cfg (Limits.cleanup cfg windows c.cleanupNow) 10000 c.lowest)
      key start := hcleaned.evictLowest
  unfold Limits.makeRoom
  dsimp only
  split
  · exact h
  · split
    · exact hcleaned
    · split
      · exact hlowest
      · -- Nothing has been removed, so that every entry is throttled.
        rename_i hfull
        refine absurd (allThrottled_of_length (by omega) (?_ : _ ≤
          (evictLowestCountWindows cfg (Limits.cleanup cfg windows c.cleanupNow) 10000 c.lowest).entries.length)) hroom
        obtain ⟨count, -, hlookup⟩ := hlowest
        have hpos := List.length_pos_of_mem (AList.mem_lookup_iff.mp hlookup)
        omega

/-- A throttle is kept until its window ends. -/
theorem Throttles.step {call : WindowCall} (h : Throttles cfg windows key start)
    (hlen : windows.entries.length ≤ max cfg.maxCapacity 1) (hopen : ∀ t ∈ call.times, t - start < cfg.window)
    (hroom : FindsRoom cfg windows call) : Throttles cfg (windowStep cfg windows call).1 key start := by
  cases call with
  | cleanup now => exact h.cleanup (hopen now List.mem_cons_self)
  | check c =>
    have hnow : c.now - start < cfg.window := hopen c.now List.mem_cons_self
    have hcleanup : c.cleanupNow - start < cfg.window := hopen c.cleanupNow (List.mem_cons_of_mem _ List.mem_cons_self)
    show Throttles cfg (check cfg windows c).1 key start
    by_cases hkey : c.key = key
    · obtain ⟨count, hcount, hlookup⟩ := h
      unfold check
      rw [hkey, hlookup]
      dsimp only
      rw [if_neg (by omega), if_neg (by omega)]
      exact ⟨count, hcount, hlookup⟩
    · have hinsert : ∀ (w : Windows) (entry : Nat × Nat), Throttles cfg w key start →
          Throttles cfg (w.insert c.key entry) key start := by
        rintro w entry ⟨count, hcount, hlookup⟩
        exact ⟨count, hcount, by rw [AList.lookup_insert_ne (Ne.symm hkey), hlookup]⟩
      unfold check
      split
      · split
        · exact hinsert _ _ h
        · split
          · exact hinsert _ _ h
          · exact h
      · rename_i hnone
        exact hinsert _ _ (h.makeRoom hlen hcleanup (hroom hnone))

/-- What a throttle means. -/
theorem Throttles.refused (h : Throttles cfg windows c.key start) (hopen : c.now - start < cfg.window) :
    (check cfg windows c).2 = false := by
  obtain ⟨count, hcount, hlookup⟩ := h
  unfold check
  rw [hlookup]
  dsimp only
  rw [if_neg (by omega), if_neg (by omega)]

theorem throttles_of_refused (h : (check cfg windows c).2 = false) :
    ∃ start, Throttles cfg windows c.key start ∧ c.now - start < cfg.window ∧ (check cfg windows c).1 = windows := by
  unfold check at h ⊢
  split at h
  · rename_i count start hlookup
    split at h
    · cases h
    · split at h
      · cases h
      · rename_i hopen hcount
        refine ⟨start, ⟨count, by omega, hlookup⟩, by omega, ?_⟩
        rw [if_neg hopen, if_neg hcount]
  · cases h

/-- A throttle that every step of a run keeps. -/
theorem Throttles.run {calls : List WindowCall} (h : Throttles cfg windows key start)
    (hlen : windows.entries.length ≤ max cfg.maxCapacity 1)
    (hopen : ∀ t ∈ calls.flatMap WindowCall.times, t - start < cfg.window)
    (hroom : AllSteps (windowStep cfg) (FindsRoom cfg) windows calls) :
    Throttles cfg (runState (windowStep cfg) windows calls) key start := by
  induction calls generalizing windows with
  | nil => exact h
  | cons call calls ih =>
    rw [List.flatMap_cons] at hopen
    refine ih (h.step hlen (fun t ht => hopen t (List.mem_append_left _ ht)) hroom.1) (length_windowStep hlen call)
      (fun t ht => hopen t (List.mem_append_right _ ht)) hroom.2

/-! ### The times of the windows -/

/-- The windows after a step have begun before it, or at its time. -/
theorem start_of_step {call : WindowCall} {e : WindowEntry} (he : e ∈ (windowStep cfg windows call).1.entries) :
    (∃ e' ∈ windows.entries, e'.2.2 = e.2.2) ∨ e.2.2 ∈ call.times := by
  have hremoved : ∀ {n : Nat} {ranked : List (Nat × RateLimitKey)} {w : Windows}, e ∈ (evictLeast n ranked w).entries →
      e ∈ w.entries := fun h => (Table.mem_entries_removeAll.mp h).1
  have hcleaned : ∀ {w : Windows} {now : Nat}, e ∈ (cleanup cfg w now).entries → e ∈ w.entries :=
    fun h => List.mem_of_mem_filter h
  cases call with
  | cleanup now => exact Or.inl ⟨e, hcleaned he, rfl⟩
  | check c =>
    have hinsert : ∀ {w : Windows} {entry : Nat × Nat}, e ∈ (w.insert c.key entry).entries →
        e.2 = entry ∨ e ∈ w.entries := by
      intro w entry h
      rw [AList.entries_insert] at h
      rcases List.mem_cons.mp h with rfl | h
      · exact Or.inl rfl
      · exact Or.inr ((List.kerase_sublist _ _).subset h)
    replace he : e ∈ (check cfg windows c).1.entries := he
    unfold check at he
    split at he
    · rename_i count start hlookup
      split at he
      · rcases hinsert he with heq | hold
        · exact Or.inr (by rw [heq]; exact List.mem_cons_self)
        · exact Or.inl ⟨e, hold, rfl⟩
      · split at he
        · rcases hinsert he with heq | hold
          · exact Or.inl ⟨_, AList.mem_lookup_iff.mp hlookup, by rw [heq]⟩
          · exact Or.inl ⟨e, hold, rfl⟩
        · exact Or.inl ⟨e, he, rfl⟩
    · rcases hinsert he with heq | hold
      · exact Or.inr (by rw [heq]; exact List.mem_cons_self)
      · refine Or.inl ⟨e, ?_, rfl⟩
        unfold makeRoom at hold
        dsimp only at hold
        split at hold
        · exact hold
        · split at hold
          · exact hcleaned hold
          · split at hold
            · exact hcleaned (hremoved hold)
            · exact hcleaned (hremoved (hremoved hold))

theorem start_mem_times {calls : List WindowCall} {e : WindowEntry} (he : e ∈ (stateAt cfg calls).entries) :
    e.2.2 ∈ calls.flatMap WindowCall.times := by
  induction calls using List.reverseRecOn generalizing e with
  | nil => cases he
  | append_singleton calls call ih =>
    unfold stateAt at he ih
    rw [runState_append] at he
    rw [List.flatMap_append, List.mem_append]
    rcases start_of_step he with ⟨e', he', heq⟩ | htime
    · exact Or.inl (heq ▸ ih he')
    · exact Or.inr (by rw [List.flatMap_singleton]; exact htime)

/-- No window begins in the future. -/
theorem start_le {before after : List WindowCall} (htimes : NonDecreasing (before ++ .check c :: after)) {e : WindowEntry}
    (he : e ∈ (stateAt cfg before).entries) : e.2.2 ≤ c.now := by
  unfold NonDecreasing at htimes
  rw [List.flatMap_append, List.pairwise_append] at htimes
  exact htimes.2.2 _ (start_mem_times he) c.now (by
    rw [List.flatMap_cons, List.mem_append]
    exact Or.inl List.mem_cons_self)

/-! ### The last resort -/

/-- The map is not full, or it is emptied, or all its windows have begun at one time. -/
def EvictsEvenly (cfg : RateLimitConfig) (windows : Windows) : Prop :=
  windows.entries.length < cfg.maxCapacity ∨ windows.entries.length ≤ 1000 ∨
    ∀ e ∈ windows.entries, ∀ e' ∈ windows.entries, e.2.2 = e'.2.2

/-- Where all is throttled, a full map is left to the last eviction. -/
theorem makeRoom_of_allThrottled (h : AllThrottled cfg windows c.cleanupNow)
    (hfull : ¬ windows.entries.length < cfg.maxCapacity) :
    makeRoom cfg windows c = evictOldestThrottledWindows windows 1000 c.evictNow c.oldest := by
  unfold makeRoom
  dsimp only
  rw [if_neg hfull, cleanup_eq_self fun e he => (h e he).2, if_neg hfull, evictLowest_eq_self fun e he => (h e he).1,
    if_neg hfull]

/-- Two different ranks are told apart by every cut of a sorted list. -/
theorem exists_lt_of_cut {l l' : List (Nat × RateLimitKey)} (hsorted : (l ++ l').Pairwise fun a b => a.1 ≤ b.1)
    (hl : l ≠ []) (hl' : l' ≠ []) {r₁ r₂ : Nat × RateLimitKey} (h₁ : r₁ ∈ l ++ l') (h₂ : r₂ ∈ l ++ l')
    (hlt : r₁.1 < r₂.1) : ∃ r ∈ l, ∃ r' ∈ l', r.1 < r'.1 := by
  obtain ⟨-, -, hcut⟩ := List.pairwise_append.mp hsorted
  obtain ⟨r, hr⟩ := List.exists_mem_of_ne_nil _ hl
  obtain ⟨r', hr'⟩ := List.exists_mem_of_ne_nil _ hl'
  rcases List.mem_append.mp h₁ with h₁ | h₁
  · rcases List.mem_append.mp h₂ with h₂ | h₂
    · exact ⟨r₁, h₁, r', hr', hlt.trans_le (hcut _ h₂ _ hr')⟩
    · exact ⟨r₁, h₁, r₂, h₂, hlt⟩
  · rcases List.mem_append.mp h₂ with h₂ | h₂
    · have := hcut _ h₂ _ h₁
      omega
    · exact ⟨r, hr, r₂, h₂, (hcut _ hr _ h₁).trans_lt hlt⟩

/-- The keys that are evicted, and those that remain. -/
theorem mem_evictOldest {n now : Nat} {traversal : Traversal} {e : WindowEntry} :
    e ∈ (evictOldestThrottledWindows windows n now traversal).entries ↔ e ∈ windows.entries ∧
      e.1 ∉ ((byRank ((traversal.order windows.entries).map fun e => (now - e.2.2, e.1))).take n).map Prod.snd :=
  Table.mem_entries_removeAll

theorem not_mem_evictOldest {n now : Nat} {traversal : Traversal} {key : RateLimitKey}
    (h : key ∈ ((byRank ((traversal.order windows.entries).map fun e => (now - e.2.2, e.1))).take n).map Prod.snd) :
    key ∉ evictOldestThrottledWindows windows n now traversal := by
  intro hmem
  obtain ⟨entry, hentry⟩ := Option.isSome_iff_exists.mp (AList.lookup_isSome.mpr hmem)
  exact (mem_evictOldest.mp (AList.mem_lookup_iff.mp hentry)).2 h

/-- Of more than `n` windows that have not all begun at one time, a younger one is evicted and an older one is not. -/
theorem evictOldest_younger {n now : Nat} {traversal : Traversal} (hn : 0 < n) (hmany : n < windows.entries.length)
    (hstart : ∀ e ∈ windows.entries, e.2.2 ≤ now) {e₁ e₂ : WindowEntry} (he₁ : e₁ ∈ windows.entries)
    (he₂ : e₂ ∈ windows.entries) (hlt : e₂.2.2 < e₁.2.2) :
    ∃ e ∈ windows.entries, e.1 ∉ evictOldestThrottledWindows windows n now traversal ∧
      ∃ e' ∈ (evictOldestThrottledWindows windows n now traversal).entries, e'.2.2 < e.2.2 := by
  have hremains := @mem_evictOldest windows n now traversal
  have hgone := @not_mem_evictOldest windows n now traversal
  generalize hranked : (traversal.order windows.entries).map (fun e => (now - e.2.2, e.1)) = ranked at hremains hgone
  have hlength : (byRank ranked).length = windows.entries.length := by
    rw [(byRank_perm ranked).length_eq, ← hranked, List.length_map, (traversal.perm _).length_eq]
  have hmem : ∀ {r : Nat × RateLimitKey}, r ∈ byRank ranked ↔ ∃ e ∈ windows.entries, r = (now - e.2.2, e.1) := by
    intro r
    rw [(byRank_perm ranked).mem_iff, ← hranked]
    exact mem_oldest
  have hsorted : (byRank ranked).Pairwise fun a b => a.1 ≤ b.1 := by
    have : Std.Total fun a b : Nat × RateLimitKey => a.1 ≤ b.1 := ⟨fun a b => Nat.le_total _ _⟩
    have : IsTrans (Nat × RateLimitKey) fun a b => a.1 ≤ b.1 := ⟨fun a b c => Nat.le_trans⟩
    exact List.pairwise_insertionSort _ _
  have hnodup : ((byRank ranked).map Prod.snd).Nodup := by
    rw [((byRank_perm ranked).map Prod.snd).nodup_iff, ← hranked, List.map_map]
    exact ((traversal.perm _).map Sigma.fst).nodup_iff.mpr windows.nodupKeys
  have hsplit : (byRank ranked).take n ++ (byRank ranked).drop n = byRank ranked := List.take_append_drop _ _
  have hrank : (now - e₁.2.2, e₁.1).1 < (now - e₂.2.2, e₂.1).1 := by
    have := hstart e₁ he₁
    dsimp only
    omega
  have hin : ∀ e ∈ windows.entries, (now - e.2.2, e.1) ∈ (byRank ranked).take n ++ (byRank ranked).drop n := by
    intro e he
    rw [hsplit]
    exact hmem.mpr ⟨e, he, rfl⟩
  -- The sorted list is cut behind its first `n` ranks, which are the lowest ages.
  rw [← hsplit] at hsorted
  obtain ⟨r, hr, r', hr', hcut⟩ := exists_lt_of_cut hsorted
    (List.ne_nil_of_length_pos (by rw [List.length_take]; omega))
    (List.ne_nil_of_length_pos (by rw [List.length_drop]; omega)) (hin e₁ he₁) (hin e₂ he₂) hrank
  obtain ⟨e, he, rfl⟩ := hmem.mp (List.mem_of_mem_take hr)
  obtain ⟨e', he', rfl⟩ := hmem.mp (List.mem_of_mem_drop hr')
  refine ⟨e, he, hgone (List.mem_map_of_mem hr), e', hremains.mpr ⟨he', fun hin => ?_⟩, ?_⟩
  · rw [← hsplit, List.map_append, List.nodup_append] at hnodup
    exact hnodup.2.2 _ hin _ (List.mem_map_of_mem hr') rfl
  · dsimp only at hcut
    omega

/-- Where at most `n` windows are stored, none remains. -/
theorem evictOldest_all {n now : Nat} {traversal : Traversal} (hfew : windows.entries.length ≤ n) (e : WindowEntry) :
    e ∉ (evictOldestThrottledWindows windows n now traversal).entries := by
  intro he
  obtain ⟨hmem, hleft⟩ := mem_evictOldest.mp he
  rw [List.take_of_length_le] at hleft
  · refine hleft (List.mem_map.mpr ⟨(now - e.2.2, e.1), ?_, rfl⟩)
    rw [(byRank_perm _).mem_iff]
    exact mem_oldest.mpr ⟨e, hmem, rfl⟩
  · rw [(byRank_perm _).length_eq, List.length_map, (traversal.perm _).length_eq]
    exact hfew

theorem mem_insert_entries {key : RateLimitKey} {entry : Nat × Nat} (hnew : key ∉ windows) {e : WindowEntry} :
    e ∈ (windows.insert key entry).entries ↔ e = ⟨key, entry⟩ ∨ e ∈ windows.entries := by
  rw [AList.entries_insert_of_notMem hnew, List.mem_cons]

/-- The oldest throttles go first only where it makes no difference which ones go. -/
theorem oldestFirst_iff (hnew : windows.lookup c.key = none) (hall : AllThrottled cfg windows c.cleanupNow)
    (hstart : ∀ e ∈ windows.entries, e.2.2 ≤ c.now) (htimes : c.now ≤ c.evictNow) :
    OldestFirst windows (check cfg windows c).1 ↔ EvictsEvenly cfg windows := by
  have hkey : c.key ∉ windows := AList.lookup_eq_none.mp hnew
  have hcheck : (check cfg windows c).1 = (makeRoom cfg windows c).insert c.key (1, c.now) := by
    unfold check
    rw [hnew]
  rw [hcheck]
  unfold EvictsEvenly
  by_cases hfull : windows.entries.length < cfg.maxCapacity
  · have hroom : makeRoom cfg windows c = windows := if_pos hfull
    refine iff_of_true (fun e he hgone => ?_) (Or.inl hfull)
    rw [hroom, AList.mem_insert] at hgone
    exact absurd (Or.inr (mem_of_mem_entries he)) hgone
  · rw [makeRoom_of_allThrottled hall hfull, or_iff_right hfull]
    have hkept : c.key ∉ evictOldestThrottledWindows windows 1000 c.evictNow c.oldest := by
      intro hmem
      obtain ⟨entry, hentry⟩ := Option.isSome_iff_exists.mp (AList.lookup_isSome.mpr hmem)
      exact hkey (mem_of_mem_entries (mem_evictOldest.mp (AList.mem_lookup_iff.mp hentry)).1)
    constructor
    · intro hfirst
      by_contra hcon
      rw [not_or] at hcon
      obtain ⟨hmany, hdiffer⟩ := hcon
      push Not at hdiffer
      -- Two windows that have begun at different times, the later one first.
      obtain ⟨e₁, he₁, e₂, he₂, hlt⟩ : ∃ e₁ ∈ windows.entries, ∃ e₂ ∈ windows.entries, e₂.2.2 < e₁.2.2 := by
        obtain ⟨e, he, e', he', hne⟩ := hdiffer
        rcases Nat.lt_or_gt_of_ne hne with h | h
        · exact ⟨e', he', e, he, h⟩
        · exact ⟨e, he, e', he', h⟩
      obtain ⟨e, he, hgone, e', he', hyounger⟩ := evictOldest_younger (by omega : 0 < 1000)
        (by omega) (fun e he => (hstart e he).trans htimes) he₁ he₂ hlt
      have hout : e.1 ∉ (evictOldestThrottledWindows windows 1000 c.evictNow c.oldest).insert c.key (1, c.now) := by
        rw [AList.mem_insert, not_or]
        exact ⟨fun heq => hkey (heq ▸ mem_of_mem_entries he), hgone⟩
      have hle := hfirst e he hout e' ((mem_insert_entries hkept).mpr (Or.inr he'))
      omega
    · rintro heven e he hgone e' he'
      rcases (mem_insert_entries hkept).mp he' with rfl | hold
      · exact hstart e he
      · rcases heven with hfew | hsame
        · exact absurd hold (evictOldest_all hfew e')
        · exact (hsame e he e' (mem_evictOldest.mp hold).1).le

end

/-! ### Floods -/

theorem stateAt_append (cfg : RateLimitConfig) (calls calls' : List WindowCall) :
    stateAt cfg (calls ++ calls') = runState (windowStep cfg) (stateAt cfg calls) calls' := runState_append _ _ _

/-- The map keeps its bound, a refused key stays refused until its window ends unless an insertion finds nothing but
throttles, and then the oldest throttles go first if and only if it makes no difference. -/
theorem flood_iff (cfg : RateLimitConfig) {calls : List WindowCall} (htimes : NonDecreasing calls) :
    (∀ before, before <+: calls → (stateAt cfg before).entries.length ≤ max cfg.maxCapacity 1) ∧
      (∀ before c between c' after, calls = before ++ .check c :: (between ++ .check c' :: after) → c'.key = c.key →
        ∀ count start, (stateAt cfg before).lookup c.key = some (count, start) →
          (check cfg (stateAt cfg before) c).2 = false → c'.now - start < cfg.window →
          AllSteps (windowStep cfg) (FindsRoom cfg) (stateAt cfg (before ++ [.check c])) between →
          (check cfg (stateAt cfg (before ++ .check c :: between)) c').2 = false) ∧
      ∀ before c after, calls = before ++ .check c :: after → (stateAt cfg before).lookup c.key = none →
        AllThrottled cfg (stateAt cfg before) c.cleanupNow →
        (OldestFirst (stateAt cfg before) (check cfg (stateAt cfg before) c).1 ↔ EvictsEvenly cfg (stateAt cfg before)) := by
  refine ⟨fun before _ => length_stateAt_le cfg before, ?_, ?_⟩
  · rintro before c between c' after rfl hkey count start hlookup hrefused hopen hroom
    obtain ⟨start', hthrottles, -, hsame⟩ := throttles_of_refused hrefused
    have hstart : start' = start := by
      obtain ⟨count', -, hlookup'⟩ := hthrottles
      rw [hlookup] at hlookup'
      exact (Prod.mk.inj (Option.some.inj hlookup')).2.symm
    subst hstart
    have hafter : stateAt cfg (before ++ [.check c]) = stateAt cfg before := by
      rw [stateAt_append]
      exact hsame
    have hbetween : stateAt cfg (before ++ .check c :: between) =
        runState (windowStep cfg) (stateAt cfg before) between := by
      rw [List.append_cons, stateAt_append, hafter]
    rw [hafter] at hroom
    rw [hbetween]
    -- No time between the calls is later than that of the second one.
    have hle : ∀ t ∈ between.flatMap WindowCall.times, t ≤ c'.now := by
      intro t ht
      unfold NonDecreasing at htimes
      rw [List.append_cons, ← List.append_assoc, List.flatMap_append, List.pairwise_append] at htimes
      refine htimes.2.2 t ?_ c'.now ?_
      · rw [List.flatMap_append, List.mem_append]
        exact Or.inr ht
      · rw [List.flatMap_cons, List.mem_append]
        exact Or.inl List.mem_cons_self
    have hkept := hthrottles.run (length_stateAt_le cfg before)
      (fun t ht => (Nat.sub_le_sub_right (hle t ht) _).trans_lt hopen) hroom
    rw [← hkey] at hkept
    exact hkept.refused hopen
  · rintro before c after rfl hnew hall
    refine oldestFirst_iff hnew hall (fun e he => start_le htimes he) ?_
    unfold NonDecreasing at htimes
    rw [List.flatMap_append, List.flatMap_cons, List.pairwise_append, List.pairwise_append] at htimes
    exact List.rel_of_pairwise_cons htimes.2.1.1 (by simp)

/-- A map that is gone through in the order of its entries. -/
def inOrder : Traversal := ⟨id, fun _ => List.Perm.refl _⟩

/-- A call at a time. -/
def callAt (key : RateLimitKey) (now : Nat) : CheckCall := ⟨key, now, now, now, inOrder, inOrder⟩

/-- The calls of a key that is refused, one of another key that takes its place in a full map, and the first key again. -/
def crowdedCalls : List WindowCall :=
  [.check (callAt (.key 9) 0), .check (callAt (.key 7) 0), .check (callAt (.key 7) 1), .check (callAt (.key 7) 3),
    .check (callAt (.key 8) 4)]

theorem flood_iff_two : (stateAt ⟨2, 10, 2⟩ crowdedCalls).lookup (.key 9) = none ∧
    (check ⟨2, 10, 2⟩ (stateAt ⟨2, 10, 2⟩ crowdedCalls) (callAt (.key 7) 9)).2 = false := by
  have hordered : NonDecreasing (crowdedCalls ++ [.check (callAt (.key 7) 9)]) := by
    unfold NonDecreasing
    decide
  refine ⟨by decide +kernel, (flood_iff ⟨2, 10, 2⟩ hordered).2.1 (crowdedCalls.take 3) (callAt (.key 7) 3)
    [.check (callAt (.key 8) 4)] (callAt (.key 7) 9) [] rfl rfl 2 0 (by decide +kernel) (by decide +kernel) (by decide)
    ⟨?_, trivial⟩⟩
  intro _ hall
  exact absurd (hall ⟨.key 9, (1, 0)⟩ (by decide +kernel)) (by decide)

/-- Calls of so many keys, one after the other. -/
def flood (n : Nat) : List WindowCall := (List.range n).map fun i : Nat => .check (callAt (.key i) i)

theorem flood_succ (n : Nat) : flood (n + 1) = flood n ++ [.check (callAt (.key n) n)] := by
  unfold flood
  rw [List.range_succ, List.map_append]
  rfl

theorem nonDecreasing_flood (n : Nat) : NonDecreasing (flood n) := by
  have hle : ∀ m, ∀ t ∈ (flood m).flatMap WindowCall.times, t < m := by
    intro m t ht
    obtain ⟨call, hcall, ht⟩ := List.mem_flatMap.mp ht
    obtain ⟨i, hi, rfl⟩ := List.mem_map.mp hcall
    rw [List.mem_range] at hi
    have : t = i := by simpa [WindowCall.times, callAt] using ht
    omega
  induction n with
  | zero => exact List.Pairwise.nil
  | succ n ih =>
    unfold NonDecreasing at ih ⊢
    rw [flood_succ, List.flatMap_append, List.pairwise_append]
    refine ⟨ih, by simp [WindowCall.times, callAt], ?_⟩
    intro t ht t' ht'
    have hlt := hle n t ht
    have : t' = n := by simpa [WindowCall.times, callAt] using ht'
    omega

section

variable {cfg : RateLimitConfig} {n : Nat}

theorem not_mem_flood (hentries : (stateAt cfg (flood n)).entries = (List.range n).reverse.map fun i : Nat => ⟨.key i, (1, i)⟩) :
    RateLimitKey.key n ∉ stateAt cfg (flood n) := by
  intro hmem
  obtain ⟨e, he, hkey⟩ := List.mem_map.mp (AList.mem_keys.mp hmem)
  rw [hentries] at he
  obtain ⟨i, hi, rfl⟩ := List.mem_map.mp he
  rw [List.mem_reverse, List.mem_range] at hi
  have hin : (i : Int) = n := RateLimitKey.key.inj hkey
  omega

/-- As long as the map is not full, every key gets an entry. -/
theorem entries_flood (hn : n ≤ cfg.maxCapacity) :
    (stateAt cfg (flood n)).entries = (List.range n).reverse.map fun i : Nat => ⟨.key i, (1, i)⟩ := by
  induction n with
  | zero => rfl
  | succ n ih =>
    have hentries := ih (by omega)
    have hnew := not_mem_flood hentries
    have hroom : makeRoom cfg (stateAt cfg (flood n)) (callAt (.key n) n) = stateAt cfg (flood n) := by
      refine if_pos ?_
      rw [hentries, List.length_map, List.length_reverse, List.length_range]
      omega
    have hstep : stateAt cfg (flood (n + 1)) = (stateAt cfg (flood n)).insert (RateLimitKey.key n) (1, n) := by
      rw [flood_succ, stateAt_append]
      show (check cfg (stateAt cfg (flood n)) (callAt (.key n) n)).1 = _
      unfold check
      rw [show (callAt (.key n) n).key = .key n from rfl, AList.lookup_eq_none.mpr hnew]
      dsimp only
      rw [hroom]
      rfl
    rw [hstep, AList.entries_insert_of_notMem hnew, hentries, List.range_succ, List.reverse_append, List.reverse_singleton,
      List.singleton_append, List.map_cons]

/-- A flood of keys that may make one request each fills the map with throttles. -/
theorem allThrottled_flood {w : Nat} (hw : n < w) : AllThrottled ⟨1, w, n⟩ (stateAt ⟨1, w, n⟩ (flood n)) n := by
  intro e he
  rw [entries_flood le_rfl] at he
  obtain ⟨i, hi, rfl⟩ := List.mem_map.mp he
  rw [List.mem_reverse, List.mem_range] at hi
  dsimp only
  omega

/-- Of more than 1000 throttles that have begun one after the other, the youngest are evicted first. -/
theorem flood_not_oldestFirst {w : Nat} (hn : 1000 < n) (hw : n < w) :
    ¬ OldestFirst (stateAt ⟨1, w, n⟩ (flood n)) (check ⟨1, w, n⟩ (stateAt ⟨1, w, n⟩ (flood n)) (callAt (.key n) n)).1 := by
  have hentries := @entries_flood ⟨1, w, n⟩ n le_rfl
  have htimes := nonDecreasing_flood (n + 1)
  rw [flood_succ] at htimes
  have hiff := oldestFirst_iff (show (stateAt ⟨1, w, n⟩ (flood n)).lookup (callAt (.key n) n).key = none from
    AList.lookup_eq_none.mpr (not_mem_flood hentries)) (allThrottled_flood hw) (fun e he => start_le htimes he) le_rfl
  have hlength : (stateAt ⟨1, w, n⟩ (flood n)).entries.length = n := by
    rw [hentries, List.length_map, List.length_reverse, List.length_range]
  have hmem : ∀ i < n, (⟨.key i, (1, i)⟩ : WindowEntry) ∈ (stateAt ⟨1, w, n⟩ (flood n)).entries := by
    intro i hi
    rw [hentries]
    exact List.mem_map.mpr ⟨i, List.mem_reverse.mpr (List.mem_range.mpr hi), rfl⟩
  intro hfirst
  rcases hiff.mp hfirst with hfew | hfew | hsame
  · dsimp only at hfew
    omega
  · omega
  · exact absurd (hsame _ (hmem 0 (by omega)) _ (hmem 1 (by omega))) (by decide)

end

/-- Of 1001 throttled keys, all but the oldest one are evicted. -/
theorem not_oldestFirst_flood :
    ¬ ∀ (cfg : RateLimitConfig) (calls : List WindowCall), NonDecreasing calls →
      ∀ before c after, calls = before ++ .check c :: after → (stateAt cfg before).lookup c.key = none →
        AllThrottled cfg (stateAt cfg before) c.cleanupNow →
        OldestFirst (stateAt cfg before) (check cfg (stateAt cfg before) c).1 := fun h =>
  flood_not_oldestFirst (by omega : 1000 < 1001) (by omega : 1001 < 60000000000)
    (h ⟨1, 60000000000, 1001⟩ (flood (1001 + 1)) (nonDecreasing_flood _) (flood 1001) (callAt (.key (1001 : Nat)) 1001) []
      (flood_succ 1001) (AList.lookup_eq_none.mpr (not_mem_flood (entries_flood le_rfl)))
      (allThrottled_flood (by omega)))

end OpenProxy.Limits
