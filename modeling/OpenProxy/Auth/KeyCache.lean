import OpenProxy.Auth.ApiKeys
import OpenProxy.Data.Machine

/-!
# The cache of API keys

`verify_key_credentials_any_scope` finds a record in the cache or else in the table, puts what it has read into the cache,
checks it, and from time to time stamps the row and puts a copy with the new stamp into the cache.  A request of the
administrator writes the table and then clears the cache.  Every transaction and every operation on the cache is one
step, and the steps of the calls and of the requests come in any order; time passes between them.

The log of the credentials that were made active is kept for the statements only, as is what a request has ended.
-/

namespace OpenProxy.Auth

structure CacheEntry where
  keyHash : Text
  key : ApiKey
  /-- The time in milliseconds from which the entry is not served. -/
  expires : Nat
  deriving DecidableEq

/-- The entries in the order in which the map iterates. -/
abbrev KeyCache := List CacheEntry

namespace KeyCache

def maxApiKeyCacheEntries : Nat := 5000

def ttl : Nat := 60000

def getCachedApiKey (cache : KeyCache) (now : Nat) (keyHash : Text) : Option ApiKey :=
  ((cache.find? fun e => decide (e.keyHash = keyHash)).filter fun e => now < e.expires).map CacheEntry.key

def prune (cache : KeyCache) (now : Nat) : KeyCache := cache.filter fun e => now < e.expires

def remove (cache : KeyCache) (keyHash : Text) : KeyCache := cache.filter fun e => decide (e.keyHash ≠ keyHash)

/-- The oldest entries make room. -/
def evict (cache : KeyCache) : KeyCache :=
  let excess := cache.length - maxApiKeyCacheEntries + 1
  let doomed := (cache.mergeSort fun a b => a.expires ≤ b.expires).take excess
  doomed.foldl (fun c e => remove c e.keyHash) cache

def cacheApiKey (cache : KeyCache) (now : Nat) (key : ApiKey) : KeyCache :=
  let full := !cache.any (fun e => decide (e.keyHash = key.keyHash)) && decide (maxApiKeyCacheEntries ≤ cache.length)
  let pruned := if full then cache.prune now else cache
  let evicted := if full && decide (maxApiKeyCacheEntries ≤ pruned.length) then pruned.evict else pruned
  ⟨key.keyHash, key, now + ttl⟩ :: evicted.remove key.keyHash

end KeyCache

/-- Where a call of `verify_key_credentials_any_scope` is. -/
inductive VerifyPc
  | start
  | lookup
  | caching (key : ApiKey)
  | checking (key : ApiKey)
  | touching (key : ApiKey)
  | refreshing (key : ApiKey)
  | returned (result : Except AuthError ApiKey)

/-- A call, with the hash of its token. -/
structure VerifyCall where
  keyHash : Text
  allowedScopes : List Text
  pc : VerifyPc

/-- Where a request of the administrator is.  A request that has revoked a credential keeps it, with the number of times
that it had been made active. -/
inductive RequestPc
  | start
  | caching (row : ApiKey)
  | clearing (ended : Option (Text × Nat))
  | returned (ended : Option (Text × Nat))
  | failed
  deriving DecidableEq

structure RequestCall where
  request : Request
  pc : RequestPc
  deriving DecidableEq

structure AuthState where
  /-- The clock of the cache. -/
  now : Nat
  /-- The clock of the time stamps. -/
  utc : Int
  db : Database
  cache : KeyCache
  calls : List VerifyCall
  requests : List RequestCall
  activations : List Text

inductive AuthLabel
  /-- The next step of a call, with a database that may fail. -/
  | verify (call : Nat) (fails : Bool)
  | request (call : Nat) (fails : Bool)
  | prune
  /-- The map iterates in another order. -/
  | reorder (cache : KeyCache)
  | tick (elapsed : Nat) (utc : Int)

namespace AuthState

def start (db : Database) (utc : Int) (calls : List VerifyCall) (requests : List RequestCall) : AuthState :=
  ⟨0, utc, db, [], calls, requests, []⟩

variable (times : TimeTexts)

/-- The record with the stamp of this time. -/
def refreshed (s : AuthState) (key : ApiKey) : ApiKey := { key with lastUsedAt := some (times.formatStamp s.utc) }

def goto (s : AuthState) (i : Nat) (c : VerifyCall) (pc : VerifyPc) : AuthState :=
  { s with calls := s.calls.set i { c with pc := pc } }

/-- The check of the record, and whether a stamp is due. -/
def checked (s : AuthState) (c : VerifyCall) (key : ApiKey) : VerifyPc :=
  match validateKeyRecordAnyScope times s.utc key c.allowedScopes with
  | .error e => .returned (.error e)
  | .ok () => if lastUsedNeedsStamp times s.utc key.lastUsedAt then .touching key else .returned (.ok key)

/-- One step of `verify_key_credentials_any_scope`. -/
def verifyStep (s : AuthState) (i : Nat) (c : VerifyCall) (fails : Bool) : AuthState :=
  match c.pc with
  | .start =>
    match s.cache.getCachedApiKey s.now c.keyHash with
    | some key => s.goto i c (.checking key)
    | none => s.goto i c .lookup
  | .lookup =>
    match if fails then none else s.db.getByHash c.keyHash with
    | some key => s.goto i c (.caching key)
    | none => s.goto i c (.returned (.error .invalid))
  | .caching key => { s.goto i c (.checking key) with cache := s.cache.cacheApiKey s.now key }
  | .checking key => s.goto i c (s.checked times c key)
  | .touching key =>
    -- A stamp that fails is only logged.
    { s.goto i c (.refreshing key) with db := if fails then s.db else s.db.touchLastUsed times s.utc key.id }
  | .refreshing key =>
    { s.goto i c (.returned (.ok key)) with cache := s.cache.cacheApiKey s.now (s.refreshed times key) }
  | .returned _ => s

def gotoRequest (s : AuthState) (i : Nat) (c : RequestCall) (pc : RequestPc) : AuthState :=
  { s with requests := s.requests.set i { c with pc := pc } }

/-- The write of a request; a request that fails leaves the cache as it is. -/
def write (s : AuthState) (i : Nat) (c : RequestCall) : AuthState :=
  match c.request.perform s.db with
  | none => s.gotoRequest i c .failed
  | some (db, row) =>
    let activations := s.activations ++ (c.request.activates s.db).toList
    let pc := match row with
      | some row => .caching row
      | none => .clearing ((c.request.ends s.db).map fun keyHash => (keyHash, activations.count keyHash))
    { s.gotoRequest i c pc with db := db, activations := activations }

/-- One step of a handler. -/
def requestStep (s : AuthState) (i : Nat) (c : RequestCall) (fails : Bool) : AuthState :=
  match c.pc with
  | .start => if fails then s.gotoRequest i c .failed else s.write i c
  | .caching row => { s.gotoRequest i c (.returned none) with cache := s.cache.cacheApiKey s.now row }
  | .clearing ended => { s.gotoRequest i c (.returned ended) with cache := [] }
  | .returned _ => s
  | .failed => s

def step (s : AuthState) : AuthLabel → AuthState × Unit
  | .verify i fails =>
    match s.calls[i]? with
    | none => (s, ())
    | some c => (s.verifyStep times i c fails, ())
  | .request i fails =>
    match s.requests[i]? with
    | none => (s, ())
    | some c => (s.requestStep i c fails, ())
  | .prune => ({ s with cache := s.cache.prune s.now }, ())
  | .reorder cache => (if cache.isPerm s.cache then { s with cache := cache } else s, ())
  | .tick elapsed utc => ({ s with now := s.now + elapsed, utc := utc }, ())

/-! ### Statements -/

/-- A request that has revoked the credential has returned, and the credential was not made active since its write. -/
def Revoked (s : AuthState) (keyHash : Text) : Prop :=
  ∃ c ∈ s.requests, c.pc = .returned (some (keyHash, s.activations.count keyHash))

instance (s : AuthState) (keyHash : Text) : Decidable (s.Revoked keyHash) :=
  inferInstanceAs (Decidable (∃ c ∈ s.requests, _))

/-- The record that a step puts into the cache. -/
def inserts (s : AuthState) : AuthLabel → Option ApiKey
  | .verify i _ =>
    match (s.calls[i]?).map VerifyCall.pc with
    | some (.caching key) => some key
    | some (.refreshing key) => some (s.refreshed times key)
    | _ => none
  | .request i _ =>
    match (s.requests[i]?).map RequestCall.pc with
    | some (.caching row) => some row
    | _ => none
  | _ => none

/-- No active record of a revoked credential is put into the cache. -/
def InsertsFresh (s : AuthState) (l : AuthLabel) : Prop :=
  ∀ key ∈ s.inserts times l, key.isActive = true → ¬ s.Revoked key.keyHash

instance (s : AuthState) (l : AuthLabel) : Decidable (s.InsertsFresh times l) :=
  inferInstanceAs (Decidable (∀ key ∈ s.inserts times l, _))

end AuthState

/-- The label is a turn of the call. -/
def AuthLabel.isTurn (i : Nat) : AuthLabel → Bool
  | verify j _ => j == i
  | _ => false

end OpenProxy.Auth
