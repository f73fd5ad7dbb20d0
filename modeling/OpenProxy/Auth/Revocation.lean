import OpenProxy.Auth.KeyCache

/-!
# Revocation takes effect

After a request that revokes a credential has returned, the calls that start with it are rejected
(`revocation_takes_effect`), in the runs in which nobody puts an active record of a revoked credential into the cache
(`AuthState.InsertsFresh`).  A call that has read the record before the revocation and caches it after the cache was
cleared does just that, and the calls that follow are accepted (`revocation_lost`).
-/

namespace OpenProxy.Auth

open AuthState (step)

/-! ### The cache -/

namespace KeyCache

variable {cache : KeyCache} {now : Nat} {e : CacheEntry}

theorem mem_of_prune (h : e ∈ cache.prune now) : e ∈ cache := (List.mem_filter.mp h).1

theorem mem_of_remove {keyHash : Text} (h : e ∈ cache.remove keyHash) : e ∈ cache := (List.mem_filter.mp h).1

private theorem mem_of_removeAll {doomed : List CacheEntry} (h : e ∈ doomed.foldl (fun c d => remove c d.keyHash) cache) :
    e ∈ cache := by
  induction doomed generalizing cache with
  | nil => exact h
  | cons d doomed ih => exact mem_of_remove (ih h)

theorem mem_of_evict (h : e ∈ cache.evict) : e ∈ cache := mem_of_removeAll h

private theorem mem_of_ite {shrunk : KeyCache} {b : Bool} (hsub : e ∈ shrunk → e ∈ cache)
    (h : e ∈ if b then shrunk else cache) : e ∈ cache := by
  cases b with
  | true => exact hsub h
  | false => exact h

/-- What is in the cache after a record was put there: that record, and what was there before. -/
theorem mem_cacheApiKey {key : ApiKey} (h : e ∈ cache.cacheApiKey now key) :
    e = ⟨key.keyHash, key, now + ttl⟩ ∨ e ∈ cache := by
  unfold cacheApiKey at h
  rcases List.mem_cons.mp h with h | h
  · exact Or.inl h
  · exact Or.inr (mem_of_ite mem_of_prune (mem_of_ite mem_of_evict (mem_of_remove h)))

/-- A record that is served is in the cache, under the hash that was asked for. -/
theorem mem_of_getCachedApiKey {keyHash : Text} {key : ApiKey} (h : cache.getCachedApiKey now keyHash = some key) :
    ∃ e ∈ cache, e.keyHash = keyHash ∧ e.key = key := by
  obtain ⟨e, he, rfl⟩ := Option.map_eq_some_iff.mp h
  obtain ⟨hfind, -⟩ := Option.filter_eq_some_iff.mp he
  have hhash : e.keyHash = keyHash := by simpa using List.find?_some hfind
  exact ⟨e, List.mem_of_find?_eq_some hfind, hhash, rfl⟩

end KeyCache

/-! ### What holds in every state -/

/-- What the request has revoked by its write. -/
def RequestPc.ended : RequestPc → Option (Text × Nat)
  | clearing ended => ended
  | returned ended => ended
  | _ => none

namespace AuthState

variable {times : TimeTexts} {s : AuthState}

structure Inv (s : AuthState) : Prop where
  /-- What was revoked and not made active again is not active. -/
  ended : ∀ c ∈ s.requests, ∀ keyHash n, c.pc.ended = some (keyHash, n) →
    n ≤ s.activations.count keyHash ∧ (n = s.activations.count keyHash → s.db.active keyHash = false)
  cached : ∀ e ∈ s.cache, e.keyHash = e.key.keyHash ∧ (e.key.isActive = true → ¬ s.Revoked e.keyHash)

/-- Before the first step. -/
structure AtStart (s : AuthState) : Prop where
  cache : s.cache = []
  requests : ∀ c ∈ s.requests, c.pc = .start

theorem inv_of_atStart (h : s.AtStart) : s.Inv := by
  constructor
  · intro c hc keyHash n hended
    rw [h.requests c hc] at hended
    cases hended
  · intro e he
    rw [h.cache] at he
    cases he

/-- A revoked credential is not active. -/
theorem Inv.not_active (h : s.Inv) {keyHash : Text} (hrevoked : s.Revoked keyHash) : s.db.active keyHash = false := by
  obtain ⟨c, hc, hpc⟩ := hrevoked
  exact (h.ended c hc keyHash _ (by rw [hpc]; rfl)).2 rfl

/-- A record of the cache may be added. -/
private theorem cached_cacheApiKey (h : s.Inv) {key : ApiKey} (hfresh : key.isActive = true → ¬ s.Revoked key.keyHash) :
    ∀ e ∈ s.cache.cacheApiKey s.now key, e.keyHash = e.key.keyHash ∧ (e.key.isActive = true → ¬ s.Revoked e.keyHash) := by
  intro e he
  rcases KeyCache.mem_cacheApiKey he with rfl | hmem
  · exact ⟨rfl, hfresh⟩
  · exact h.cached e hmem

/-! ### The steps of a call -/

theorem step_verify {i : Nat} {fails : Bool} {c : VerifyCall} (hc : s.calls[i]? = some c) :
    (s.step times (.verify i fails)).1 = s.verifyStep times i c fails := by
  simp only [step, hc]

theorem step_verify_none {i : Nat} {fails : Bool} (hc : s.calls[i]? = none) :
    (s.step times (.verify i fails)).1 = s := by
  simp only [step, hc]

/-- A call changes nothing of the requests. -/
theorem verifyStep_requests (times : TimeTexts) (s : AuthState) (i : Nat) (c : VerifyCall) (fails : Bool) :
    (s.verifyStep times i c fails).requests = s.requests ∧ (s.verifyStep times i c fails).activations = s.activations := by
  unfold verifyStep
  cases c.pc with
  | start => cases s.cache.getCachedApiKey s.now c.keyHash <;> exact ⟨rfl, rfl⟩
  | lookup => cases (if fails then none else s.db.getByHash c.keyHash) <;> exact ⟨rfl, rfl⟩
  | _ => exact ⟨rfl, rfl⟩

private theorem verifyStep_db (i : Nat) (c : VerifyCall) (fails : Bool) (keyHash : Text)
    (h : (s.verifyStep times i c fails).db.active keyHash = true) : s.db.active keyHash = true := by
  unfold verifyStep at h
  cases hpc : c.pc with
  | start =>
    rw [hpc] at h
    cases hget : s.cache.getCachedApiKey s.now c.keyHash with
    | none => simp only [hget] at h; exact h
    | some key => simp only [hget] at h; exact h
  | lookup =>
    rw [hpc] at h
    cases hget : (if fails then none else s.db.getByHash c.keyHash) with
    | none => simp only [hget] at h; exact h
    | some key => simp only [hget] at h; exact h
  | touching key =>
    rw [hpc] at h
    cases fails with
    | true => exact h
    | false => exact Database.active_touchLastUsed h
  | caching key => rw [hpc] at h; exact h
  | checking key => rw [hpc] at h; exact h
  | refreshing key => rw [hpc] at h; exact h
  | returned result => rw [hpc] at h; exact h

/-- A call puts a record into the cache, or leaves the cache. -/
private theorem verifyStep_cache (times : TimeTexts) {i : Nat} {c : VerifyCall} (fails : Bool) (hc : s.calls[i]? = some c) :
    (s.verifyStep times i c fails).cache = s.cache ∨ ∃ key, s.inserts times (.verify i fails) = some key ∧
      (s.verifyStep times i c fails).cache = s.cache.cacheApiKey s.now key := by
  unfold verifyStep
  cases hpc : c.pc with
  | start => cases s.cache.getCachedApiKey s.now c.keyHash <;> exact Or.inl rfl
  | lookup => cases (if fails then none else s.db.getByHash c.keyHash) <;> exact Or.inl rfl
  | caching key => exact Or.inr ⟨key, by simp only [inserts, hc, Option.map_some, hpc], rfl⟩
  | refreshing key => exact Or.inr ⟨s.refreshed times key, by simp only [inserts, hc, Option.map_some, hpc], rfl⟩
  | _ => exact Or.inl rfl

/-- Nothing of what the invariant speaks of has grown. -/
private theorem inv_of_le {s' : AuthState} (h : s.Inv) (hrequests : s'.requests = s.requests)
    (hactivations : s'.activations = s.activations) (hdb : ∀ keyHash, s'.db.active keyHash = true →
      s.db.active keyHash = true)
    (hcache : ∀ e ∈ s'.cache, e.keyHash = e.key.keyHash ∧ (e.key.isActive = true → ¬ s.Revoked e.keyHash)) : s'.Inv := by
  have hrevoked : ∀ keyHash, s'.Revoked keyHash ↔ s.Revoked keyHash := by
    intro keyHash
    unfold Revoked
    rw [hrequests, hactivations]
  constructor
  · intro c hc keyHash n hended
    rw [hrequests] at hc
    rw [hactivations]
    obtain ⟨hle, hinactive⟩ := h.ended c hc keyHash n hended
    refine ⟨hle, fun hn => ?_⟩
    rw [Bool.eq_false_iff]
    intro hactive
    have hbefore := hdb keyHash hactive
    rw [hinactive hn] at hbefore
    cases hbefore
  · intro e he
    rw [hrevoked]
    exact hcache e he

private theorem verify_inv (h : s.Inv) {i : Nat} {fails : Bool} (hfresh : s.InsertsFresh times (.verify i fails)) :
    Inv (s.step times (.verify i fails)).1 := by
  cases hc : s.calls[i]? with
  | none =>
    rw [step_verify_none hc]
    exact h
  | some c =>
    rw [step_verify hc]
    obtain ⟨hrequests, hactivations⟩ := verifyStep_requests times s i c fails
    refine inv_of_le h hrequests hactivations (verifyStep_db i c fails) ?_
    rcases verifyStep_cache times fails hc with hcache | ⟨key, hkey, hcache⟩
    · rw [hcache]
      exact h.cached
    · rw [hcache]
      exact cached_cacheApiKey h (hfresh key hkey)

/-! ### The steps of a request -/

theorem step_request {i : Nat} {fails : Bool} {c : RequestCall} (hc : s.requests[i]? = some c) :
    (s.step times (.request i fails)).1 = s.requestStep i c fails := by
  simp only [step, hc]

theorem step_request_none {i : Nat} {fails : Bool} (hc : s.requests[i]? = none) :
    (s.step times (.request i fails)).1 = s := by
  simp only [step, hc]

/-- The requests after a step of one of them. -/
private theorem mem_gotoRequest {i : Nat} {c c' : RequestCall} {pc : RequestPc}
    (hmem : c' ∈ (s.gotoRequest i c pc).requests) : c' = { c with pc := pc } ∨ c' ∈ s.requests := by
  rcases List.mem_or_eq_of_mem_set hmem with hmem | rfl
  · exact Or.inr hmem
  · exact Or.inl rfl

/-- A request that goes on without a write and has not returned by this step with a revocation. -/
private theorem gotoRequest_revoked {i : Nat} {c : RequestCall} {pc : RequestPc} (hpc : ∀ ended, pc ≠ .returned (some ended))
    {keyHash : Text} (h : (s.gotoRequest i c pc).Revoked keyHash) : s.Revoked keyHash := by
  obtain ⟨c', hc', hreturned⟩ := h
  rcases mem_gotoRequest hc' with rfl | hmem
  · exact absurd hreturned (hpc _)
  · exact ⟨c', hmem, hreturned⟩

private theorem gotoRequest_ended (h : s.Inv) {i : Nat} {c : RequestCall} {pc : RequestPc} (hc : c ∈ s.requests)
    (hpc : pc.ended = none ∨ pc.ended = c.pc.ended) : ∀ c' ∈ (s.gotoRequest i c pc).requests, ∀ keyHash n,
      c'.pc.ended = some (keyHash, n) →
        n ≤ s.activations.count keyHash ∧ (n = s.activations.count keyHash → s.db.active keyHash = false) := by
  intro c' hc' keyHash n hended
  rcases mem_gotoRequest hc' with rfl | hmem
  · rcases hpc with hnone | hsame
    · rw [hnone] at hended
      cases hended
    · rw [hsame] at hended
      exact h.ended c hc keyHash n hended
  · exact h.ended c' hmem keyHash n hended

/-- The write of a request: a credential is active afterwards only if it was before or was made active, and what is revoked
is not. -/
private theorem write_inv (h : s.Inv) (i : Nat) {c : RequestCall} (hc : c ∈ s.requests) : (s.write i c).Inv := by
  unfold write
  cases hperform : c.request.perform s.db with
  | none =>
    dsimp only
    exact ⟨gotoRequest_ended h hc (Or.inl rfl), fun e he =>
      ⟨(h.cached e he).1, fun hactive hrevoked =>
        (h.cached e he).2 hactive (gotoRequest_revoked (by intro ended heq; cases heq) hrevoked)⟩⟩
  | some result =>
    obtain ⟨db, row⟩ := result
    dsimp only
    have hcount : ∀ keyHash, s.activations.count keyHash ≤
        (s.activations ++ (c.request.activates s.db).toList).count keyHash := by
      intro keyHash
      rw [List.count_append]
      exact Nat.le_add_right _ _
    have hactive : ∀ keyHash, db.active keyHash = true → s.db.active keyHash = true ∨
        s.activations.count keyHash < (s.activations ++ (c.request.activates s.db).toList).count keyHash := by
      intro keyHash hdb
      rcases active_of_perform hperform hdb with hbefore | hmade
      · exact Or.inl hbefore
      · right
        rw [hmade, List.count_append]
        simp
    constructor
    · intro c' hc' keyHash n hended
      rcases mem_gotoRequest hc' with rfl | hmem
      · cases row with
        | some row => cases hended
        | none =>
          obtain ⟨keyHash', hends, heq⟩ := Option.map_eq_some_iff.mp hended
          obtain ⟨rfl, rfl⟩ := Prod.mk.inj heq
          exact ⟨Nat.le_refl _, fun _ => not_active_of_ends hperform hends⟩
      · obtain ⟨hle, hinactive⟩ := h.ended c' hmem keyHash n hended
        have hgrown := hcount keyHash
        refine ⟨Nat.le_trans hle hgrown, ?_⟩
        intro hn
        rw [Bool.eq_false_iff]
        intro hdb
        rcases hactive keyHash hdb with hbefore | hlt
        · have hsame : n = s.activations.count keyHash := by
            have hn : n = (s.activations ++ (c.request.activates s.db).toList).count keyHash := hn
            omega
          rw [hinactive hsame] at hbefore
          cases hbefore
        · have hn : n = (s.activations ++ (c.request.activates s.db).toList).count keyHash := hn
          omega
    · intro e he
      refine ⟨(h.cached e he).1, ?_⟩
      rintro hkey ⟨c', hc', hreturned⟩
      rcases mem_gotoRequest hc' with rfl | hmem
      · cases row <;> cases hreturned
      · refine (h.cached e he).2 hkey ⟨c', hmem, ?_⟩
        -- The credential was not made active since, so that its count has not changed.
        have hle := (h.ended c' hmem e.keyHash _ (by rw [hreturned]; rfl)).1
        have hgrown := hcount e.keyHash
        have hsame : (s.activations ++ (c.request.activates s.db).toList).count e.keyHash =
            s.activations.count e.keyHash := Nat.le_antisymm hle hgrown
        rw [hreturned]
        exact congrArg (fun n => RequestPc.returned (some (e.keyHash, n))) hsame

private theorem request_inv (h : s.Inv) {i : Nat} {fails : Bool} (hfresh : s.InsertsFresh times (.request i fails)) :
    Inv (s.step times (.request i fails)).1 := by
  cases hc : s.requests[i]? with
  | none =>
    rw [step_request_none hc]
    exact h
  | some c =>
    have hmem := List.mem_of_getElem? hc
    rw [step_request hc]
    unfold requestStep
    cases hpc : c.pc with
    | start =>
      cases fails with
      | false => exact write_inv h i hmem
      | true =>
        exact ⟨gotoRequest_ended h hmem (Or.inl rfl), fun e he =>
          ⟨(h.cached e he).1, fun hactive hrevoked =>
            (h.cached e he).2 hactive (gotoRequest_revoked (by intro ended heq; cases heq) hrevoked)⟩⟩
    | caching row =>
      have hinserts : s.inserts times (.request i fails) = some row := by
        simp only [inserts, hc, Option.map_some, hpc]
      refine ⟨gotoRequest_ended h hmem (Or.inl rfl), ?_⟩
      intro e he
      obtain ⟨hhash, hnot⟩ := cached_cacheApiKey h (hfresh row hinserts) e he
      refine ⟨hhash, fun hactive hrevoked => ?_⟩
      have hafter : (s.gotoRequest i c (.returned none)).Revoked e.keyHash := hrevoked
      exact hnot hactive (gotoRequest_revoked (by intro ended heq; cases heq) hafter)
    | clearing ended =>
      refine ⟨gotoRequest_ended h hmem (Or.inr (by rw [hpc]; rfl)), ?_⟩
      intro e he
      cases he
    | returned ended => exact h
    | failed => exact h

/-! ### The run -/

theorem step_inv (h : s.Inv) (l : AuthLabel) (hfresh : s.InsertsFresh times l) : Inv (s.step times l).1 := by
  cases l with
  | verify i fails => exact verify_inv h hfresh
  | request i fails => exact request_inv h hfresh
  | prune => exact inv_of_le h rfl rfl (fun _ => id) fun e he => h.cached e (KeyCache.mem_of_prune he)
  | reorder cache =>
    show Inv (if cache.isPerm s.cache then { s with cache := cache } else s)
    split
    · rename_i hperm
      exact inv_of_le h rfl rfl (fun _ => id) fun e he => h.cached e ((List.isPerm_iff.mp hperm).subset he)
    · exact h
  | tick elapsed utc => exact inv_of_le h rfl rfl (fun _ => id) h.cached

/-- The number of times that a credential was made active does not fall. -/
theorem count_le_step (times : TimeTexts) (s : AuthState) (l : AuthLabel) (keyHash : Text) :
    s.activations.count keyHash ≤ (s.step times l).1.activations.count keyHash := by
  cases l with
  | verify i fails =>
    cases hc : s.calls[i]? with
    | none => rw [step_verify_none hc]
    | some c => rw [step_verify hc, (verifyStep_requests times s i c fails).2]
  | request i fails =>
    cases hc : s.requests[i]? with
    | none => rw [step_request_none hc]
    | some c =>
      rw [step_request hc]
      have hwrite : s.activations.count keyHash ≤ (s.write i c).activations.count keyHash := by
        unfold write
        cases c.request.perform s.db with
        | none => exact Nat.le_refl _
        | some result =>
          dsimp only
          rw [List.count_append]
          exact Nat.le_add_right _ _
      unfold requestStep
      cases c.pc with
      | start =>
        cases fails with
        | true => exact Nat.le_refl _
        | false => exact hwrite
      | _ => exact Nat.le_refl _
  | prune => exact Nat.le_refl _
  | reorder cache =>
    show _ ≤ (if cache.isPerm s.cache then { s with cache := cache } else s).activations.count keyHash
    split <;> exact Nat.le_refl _
  | tick elapsed utc => exact Nat.le_refl _

theorem count_le_run (times : TimeTexts) (s : AuthState) (labels : List AuthLabel) (keyHash : Text) :
    s.activations.count keyHash ≤ (runState (step times) s labels).activations.count keyHash := by
  induction labels generalizing s with
  | nil => exact Nat.le_refl _
  | cons l labels ih => exact Nat.le_trans (count_le_step times s l keyHash) (ih _)

private theorem mem_set_of_ne {requests : List RequestCall} {i : Nat} {c c' : RequestCall} (hc : c ∈ requests)
    (hi : requests[i]? = some c') (hne : c ≠ c') (x : RequestCall) : c ∈ requests.set i x := by
  obtain ⟨j, hj⟩ := List.getElem?_of_mem hc
  refine List.mem_of_getElem? (i := j) ?_
  rw [List.getElem?_set_ne]
  · exact hj
  · rintro rfl
    rw [hi] at hj
    exact hne (Option.some.inj hj).symm

/-- A request that has returned stays as it is. -/
private theorem returned_step {c : RequestCall} (hc : c ∈ s.requests) {ended : Option (Text × Nat)}
    (hpc : c.pc = .returned ended) (l : AuthLabel) : c ∈ (s.step times l).1.requests := by
  cases l with
  | verify i fails =>
    cases hi : s.calls[i]? with
    | none => rwa [step_verify_none hi]
    | some c' => rwa [step_verify hi, (verifyStep_requests times s i c' fails).1]
  | request i fails =>
    cases hi : s.requests[i]? with
    | none => rwa [step_request_none hi]
    | some c' =>
      rw [step_request hi]
      have hset : c'.pc ≠ .returned ended → ∀ x, c ∈ s.requests.set i x := fun hne =>
        mem_set_of_ne hc hi (by rintro rfl; exact hne hpc)
      unfold requestStep
      cases hpc' : c'.pc with
      | start =>
        rw [hpc'] at hset
        cases fails with
        | true => exact hset (by simp) _
        | false =>
          show c ∈ (s.write i c').requests
          unfold write
          cases c'.request.perform s.db with
          | none => exact hset (by simp) _
          | some result => exact hset (by simp) _
      | caching row =>
        rw [hpc'] at hset
        exact hset (by simp) _
      | clearing ended' =>
        rw [hpc'] at hset
        exact hset (by simp) _
      | returned ended' => exact hc
      | failed => exact hc
  | prune => exact hc
  | reorder cache =>
    show c ∈ (if cache.isPerm s.cache then { s with cache := cache } else s).requests
    split <;> exact hc
  | tick elapsed utc => exact hc

/-- A credential stays revoked until it is made active. -/
theorem revoked_step {keyHash : Text} (h : s.Revoked keyHash) (l : AuthLabel)
    (hsame : (s.step times l).1.activations.count keyHash = s.activations.count keyHash) :
    (s.step times l).1.Revoked keyHash := by
  obtain ⟨c, hc, hpc⟩ := h
  refine ⟨c, returned_step hc hpc l, ?_⟩
  rw [hsame]
  exact hpc

end AuthState

/-! ### Calls that are rejected -/

namespace VerifyPc

/-- The call has not yet looked, or has found a record that is not active, or was rejected. -/
def Rejecting : VerifyPc → Prop
  | start | lookup => True
  | caching key | checking key => key.isActive = false
  | returned (.error _) => True
  | _ => False

/-- The steps until a call is rejected. -/
def rank : VerifyPc → Nat
  | start => 4
  | lookup => 3
  | caching _ => 2
  | checking _ => 1
  | _ => 0

end VerifyPc

namespace AuthState

variable {times : TimeTexts} {s : AuthState}

/-- A call with a revoked credential finds nothing that is active. -/
private theorem verifyStep_rejecting (h : s.Inv) {i : Nat} {c : VerifyCall} (fails : Bool)
    (hc : s.calls[i]? = some c) (hrevoked : s.Revoked c.keyHash) (hpc : c.pc.Rejecting) :
    ∃ pc, (s.verifyStep times i c fails).calls[i]? = some { c with pc := pc } ∧ pc.Rejecting ∧
      pc.rank ≤ c.pc.rank - 1 := by
  have hself : ∀ x, (s.calls.set i x)[i]? = some x := fun x =>
    List.getElem?_set_self (List.getElem?_eq_some_iff.mp hc).1
  unfold verifyStep
  cases hpc' : c.pc with
  | start =>
    cases hget : s.cache.getCachedApiKey s.now c.keyHash with
    | none => exact ⟨.lookup, hself _, trivial, Nat.le_refl _⟩
    | some key =>
      obtain ⟨e, he, hhash, rfl⟩ := KeyCache.mem_of_getCachedApiKey hget
      refine ⟨.checking e.key, hself _, ?_, Nat.le_add_left _ _⟩
      show e.key.isActive = false
      rw [Bool.eq_false_iff]
      intro hactive
      rw [← hhash] at hrevoked
      exact (h.cached e he).2 hactive hrevoked
  | lookup =>
    cases hget : (if fails then none else s.db.getByHash c.keyHash) with
    | none =>
      exact ⟨.returned (.error .invalid), hself _, trivial, Nat.zero_le _⟩
    | some key =>
      refine ⟨.caching key, hself _, ?_, Nat.le_refl _⟩
      have hfound : s.db.getByHash c.keyHash = some key := by
        cases fails with
        | true => cases hget
        | false => exact hget
      obtain ⟨hmem, hhash⟩ := Database.getByHash_eq_some.mp hfound
      show key.isActive = false
      rw [Bool.eq_false_iff]
      intro hactive
      have hnot := h.not_active hrevoked
      rw [Database.active_eq_true.mpr ⟨key, hmem, hhash, hactive⟩] at hnot
      cases hnot
  | caching key =>
    rw [hpc'] at hpc
    exact ⟨.checking key, hself _, hpc, Nat.le_refl _⟩
  | checking key =>
    rw [hpc'] at hpc
    have hkey : key.isActive = false := hpc
    have herror : s.checked times c key = .returned (.error .inactive) := by
      unfold checked validateKeyRecordAnyScope
      rw [hkey]
      rfl
    exact ⟨_, hself _, by rw [herror]; trivial, by rw [herror]; exact Nat.le_refl _⟩
  | touching key =>
    rw [hpc'] at hpc
    exact hpc.elim
  | refreshing key =>
    rw [hpc'] at hpc
    exact hpc.elim
  | returned result =>
    refine ⟨c.pc, hc, hpc, ?_⟩
    rw [hpc']
    exact Nat.le_refl _

/-- The other steps leave the call as it is. -/
private theorem step_calls {i : Nat} {l : AuthLabel} (hl : l.isTurn i = false) :
    (s.step times l).1.calls[i]? = s.calls[i]? := by
  cases l with
  | verify j fails =>
    have hne : j ≠ i := ne_of_beq_false hl
    cases hc : s.calls[j]? with
    | none => rw [step_verify_none hc]
    | some c =>
      rw [step_verify hc]
      have hset : ∀ x, (s.calls.set j x)[i]? = s.calls[i]? := fun x => List.getElem?_set_ne hne
      unfold verifyStep
      cases c.pc with
      | start => cases s.cache.getCachedApiKey s.now c.keyHash <;> exact hset _
      | lookup => cases (if fails then none else s.db.getByHash c.keyHash) <;> exact hset _
      | returned result => rfl
      | _ => exact hset _
  | request j fails =>
    cases hc : s.requests[j]? with
    | none => rw [step_request_none hc]
    | some c =>
      rw [step_request hc]
      unfold requestStep
      cases c.pc with
      | start =>
        cases fails with
        | true => rfl
        | false =>
          show (s.write j c).calls[i]? = _
          unfold write
          cases c.request.perform s.db <;> rfl
      | _ => rfl
  | prune => rfl
  | reorder cache =>
    show (if cache.isPerm s.cache then { s with cache := cache } else s).calls[i]? = _
    split <;> rfl
  | tick elapsed utc => rfl

private theorem step_rejecting (times : TimeTexts) (h : s.Inv) {i : Nat} {c : VerifyCall} (l : AuthLabel) (hc : s.calls[i]? = some c)
    (hrevoked : s.Revoked c.keyHash) (hpc : c.pc.Rejecting) :
    ∃ pc, (s.step times l).1.calls[i]? = some { c with pc := pc } ∧ pc.Rejecting ∧
      pc.rank ≤ c.pc.rank - (if l.isTurn i then 1 else 0) := by
  cases hl : l.isTurn i with
  | false => exact ⟨c.pc, by rw [step_calls hl, hc], hpc, Nat.le_refl _⟩
  | true =>
    cases l with
    | verify j fails =>
      obtain rfl : j = i := eq_of_beq hl
      rw [step_verify hc]
      exact verifyStep_rejecting h fails hc hrevoked hpc
    | _ => cases hl

/-- As long as the credential stays revoked the call goes towards its rejection. -/
private theorem run_rejecting (h : s.Inv) {labels : List AuthLabel}
    (hfresh : AllSteps (step times) (InsertsFresh times) s labels) {i : Nat} {c : VerifyCall} (hc : s.calls[i]? = some c)
    (hrevoked : s.Revoked c.keyHash) (hpc : c.pc.Rejecting)
    (hlater : (runState (step times) s labels).activations.count c.keyHash = s.activations.count c.keyHash) :
    ∃ pc, (runState (step times) s labels).calls[i]? = some { c with pc := pc } ∧ pc.Rejecting ∧
      pc.rank ≤ c.pc.rank - labels.countP (AuthLabel.isTurn i) := by
  induction labels generalizing s c with
  | nil => exact ⟨c.pc, hc, hpc, Nat.le_refl _⟩
  | cons l labels ih =>
    have hfirst := count_le_step times s l c.keyHash
    have hrest := count_le_run times (s.step times l).1 labels c.keyHash
    have hlater : (runState (step times) (s.step times l).1 labels).activations.count c.keyHash =
      s.activations.count c.keyHash := hlater
    have hsame : (s.step times l).1.activations.count c.keyHash = s.activations.count c.keyHash := by omega
    obtain ⟨pc₁, hc₁, hpc₁, hrank₁⟩ := step_rejecting times h l hc hrevoked hpc
    obtain ⟨pc, hc', hpc', hrank⟩ := ih (step_inv h l hfresh.1) hfresh.2 hc₁ (revoked_step hrevoked l hsame) hpc₁
      (by rw [hsame]; exact hlater)
    refine ⟨pc, hc', hpc', ?_⟩
    rw [List.countP_cons]
    have hrank : pc.rank ≤ pc₁.rank - labels.countP (AuthLabel.isTurn i) := hrank
    omega

end AuthState

/-- In a run in which nobody puts an active record of a revoked credential into the cache: a call that starts after the
revocation has returned is not accepted, as long as the credential is not made active again, and it is rejected within
four of its steps. -/
theorem revocation_takes_effect (times : TimeTexts) {s₀ : AuthState} (hstart : s₀.AtStart) {before after : List AuthLabel}
    (hfresh : AllSteps (step times) (AuthState.InsertsFresh times) s₀ (before ++ after)) {i : Nat}
    {c : VerifyCall} (hcall : (runState (step times) s₀ before).calls[i]? = some c) (hc : c.pc = .start)
    (hrevoked : (runState (step times) s₀ before).Revoked c.keyHash)
    (hlater : (runState (step times) s₀ (before ++ after)).activations.count c.keyHash =
      (runState (step times) s₀ before).activations.count c.keyHash) :
    ∃ c', (runState (step times) s₀ (before ++ after)).calls[i]? = some c' ∧
      (∀ key, c'.pc ≠ .returned (.ok key)) ∧
      (4 ≤ after.countP (AuthLabel.isTurn i) → ∃ e, c'.pc = .returned (.error e)) := by
  obtain ⟨hfresh₁, hfresh₂⟩ := allSteps_append.mp hfresh
  have hinv := hfresh₁.invariant (fun s l h hl => AuthState.step_inv h l hl) (AuthState.inv_of_atStart hstart)
  rw [runState_append] at hlater ⊢
  obtain ⟨pc, hc', hpc, hrank⟩ := AuthState.run_rejecting hinv hfresh₂ hcall hrevoked (by rw [hc]; trivial) hlater
  refine ⟨{ c with pc := pc }, hc', ?_, ?_⟩
  · rintro key rfl
    exact hpc
  · intro hturns
    rw [hc] at hrank
    have hrank : pc.rank ≤ 4 - after.countP (AuthLabel.isTurn i) := hrank
    cases pc with
    | returned result =>
      cases result with
      | error e => exact ⟨e, rfl⟩
      | ok key => exact hpc.elim
    | touching key => exact hpc.elim
    | refreshing key => exact hpc.elim
    | _ =>
      simp only [VerifyPc.rank] at hrank
      omega

/-! ### One key -/

def sampleStamp : Text := "2026-01-01 00:00:00".toList

def sampleUtc : Int := 1767225600

/-- The times of one text. -/
def sampleTimes : TimeTexts where
  parseTimestamp text := if text = sampleStamp then some sampleUtc else none
  parseStamp text := if text = sampleStamp then some sampleUtc else none
  formatStamp _ := sampleStamp
  julianSeconds utc text := if text = sampleStamp then some (utc - sampleUtc) else none

def sampleHash : Text := "5e88".toList

def sampleKey (lastUsedAt : Option Text) : ApiKey := ⟨1, sampleHash, ["chat".toList], true, none, lastUsedAt⟩

private theorem sampleKey_lt (lastUsedAt : Option Text) : ∀ r ∈ [sampleKey lastUsedAt], r.id < 2 := by
  intro r hr
  rw [List.mem_singleton.mp hr]
  exact Nat.one_lt_two

/-- A table with one active key. -/
def sampleDatabase (lastUsedAt : Option Text) : Database where
  rows := [sampleKey lastUsedAt]
  nextId := 2
  ids := List.nodup_singleton _
  hashes := List.nodup_singleton _
  lt_nextId := sampleKey_lt lastUsedAt

/-- Two calls with the key, and a request that revokes it. -/
def sampleStart (lastUsedAt : Option Text) : AuthState :=
  .start (sampleDatabase lastUsedAt) sampleUtc (.replicate 2 ⟨sampleHash, ["chat".toList], .start⟩) [⟨.revoke 1, .start⟩]

theorem sampleStart_atStart (lastUsedAt : Option Text) : (sampleStart lastUsedAt).AtStart := by
  refine ⟨rfl, ?_⟩
  intro c hc
  rw [List.mem_singleton.mp hc]

/-- The first call is served, the key is revoked, and the second call starts. -/
theorem revocation_takes_effect_sample :
    ∃ c', (runState (step sampleTimes) (sampleStart none)
        ((.replicate 6 (.verify 0 false) ++ .replicate 2 (.request 0 false)) ++ .replicate 4 (.verify 1 false))).calls[1]? =
          some c' ∧ (∀ key, c'.pc ≠ .returned (.ok key)) ∧
        (4 ≤ (List.replicate 4 (AuthLabel.verify 1 false)).countP (AuthLabel.isTurn 1) →
          ∃ e, c'.pc = .returned (.error e)) :=
  revocation_takes_effect sampleTimes (sampleStart_atStart none) (by decide) rfl rfl (by decide) (by decide)

/-! ### Revocations without effect -/

def VerifyCall.accepted (c : VerifyCall) : Bool :=
  match c.pc with
  | .returned (.ok _) => true
  | _ => false

/-- The first call has read the row before the revocation, and caches it when the cache has been cleared. -/
def lateInsert : List AuthLabel :=
  .replicate 2 (.verify 0 false) ++ .replicate 2 (.request 0 false) ++ [.verify 0 false]

/-- The stamp of the first call is written after the revocation, and then the record is cached again. -/
def lateStamp : List AuthLabel :=
  .replicate 4 (.verify 0 false) ++ .replicate 2 (.request 0 false) ++ .replicate 2 (.verify 0 false)

/-- In both runs the second call starts when the revocation has returned, and is accepted. -/
theorem revocation_lost :
    ((runState (step sampleTimes) (sampleStart (some sampleStamp)) lateInsert).Revoked sampleHash ∧
      ((runState (step sampleTimes) (sampleStart (some sampleStamp))
        (lateInsert ++ .replicate 2 (.verify 1 false))).calls[1]?).any VerifyCall.accepted = true) ∧
    ((runState (step sampleTimes) (sampleStart none) lateStamp).Revoked sampleHash ∧
      ((runState (step sampleTimes) (sampleStart none)
        (lateStamp ++ .replicate 2 (.verify 1 false))).calls[1]?).any VerifyCall.accepted = true) ∧
    ¬ ∀ (s₀ : AuthState) (before after : List AuthLabel) (i : Nat) (c c' : VerifyCall), s₀.AtStart →
      (runState (step sampleTimes) s₀ before).calls[i]? = some c → c.pc = .start →
      (runState (step sampleTimes) s₀ before).Revoked c.keyHash →
      (runState (step sampleTimes) s₀ (before ++ after)).activations.count c.keyHash =
        (runState (step sampleTimes) s₀ before).activations.count c.keyHash →
      (runState (step sampleTimes) s₀ (before ++ after)).calls[i]? = some c' → c'.accepted = false := by
  have hlost : ((runState (step sampleTimes) (sampleStart none)
      (lateStamp ++ .replicate 2 (.verify 1 false))).calls[1]?).any VerifyCall.accepted = true := by decide
  refine ⟨⟨by decide, by decide⟩, ⟨by decide, hlost⟩, ?_⟩
  intro h
  obtain ⟨c', hc', haccepted⟩ := (Option.any_eq_true _ _).mp hlost
  have hrejected := h (sampleStart none) lateStamp (.replicate 2 (.verify 1 false)) 1 _ c' (sampleStart_atStart none)
    rfl rfl (by decide) (by decide) hc'
  rw [haccepted] at hrejected
  cases hrejected

end OpenProxy.Auth
