import OpenProxy.Data.Table
import OpenProxy.Text.Basic

/-!
# API keys

The table of API keys with what `create`, `update`, `revoke`, `hard_delete`, `regenerate` and `touch_last_used` do to it,
and the check of a record.  Of a row there is what the verification of a key reads.

What is said of the table for a credential, that is, the hash of a key, is whether it is active (`Database.active`): only
the writes that `Request.activates` names make it active (`active_of_perform`).
-/

namespace OpenProxy.Auth

structure ApiKey where
  id : Nat
  keyHash : Text
  scopes : List Text
  isActive : Bool
  expiresAt : Option Text
  lastUsedAt : Option Text
  deriving DecidableEq

/-- What chrono and SQLite say of the text of a time; times are seconds. -/
structure TimeTexts where
  /-- `parse_timestamp`, for `expires_at`. -/
  parseTimestamp : Text → Option Int
  /-- `NaiveDateTime::parse_from_str`, for `last_used_at`. -/
  parseStamp : Text → Option Int
  formatStamp : Int → Text
  /-- The seconds since a stamp, by `julianday`. -/
  julianSeconds : Int → Text → Option Int

/-- Why a call is rejected. -/
inductive AuthError
  | invalid
  | inactive
  | expiresAtCheck
  | expired
  | scope
  deriving DecidableEq

def AuthError.message : AuthError → Text
  | invalid => "invalid api key".toList
  | inactive => "api key revoked or inactive".toList
  | expiresAtCheck => "expires_at check: ".toList
  | expired => "api key expired".toList
  | scope => "api key lacks required scope".toList

def lastUsedThrottleSecs : Int := 300

/-- `is_expired`; `none` is a text that is no time. -/
def isExpired (times : TimeTexts) (expiresAt : Option Text) (utc : Int) : Option Bool :=
  match expiresAt with
  | none => some false
  | some s => (times.parseTimestamp s).map fun dt => decide (dt ≤ utc)

def validateKeyRecordAnyScope (times : TimeTexts) (utc : Int) (key : ApiKey) (allowedScopes : List Text) :
    Except AuthError Unit :=
  if !key.isActive then .error .inactive
  else
    match isExpired times key.expiresAt utc with
    | none => .error .expiresAtCheck
    | some true => .error .expired
    | some false =>
      if !allowedScopes.isEmpty && !key.scopes.any fun s => allowedScopes.contains s then .error .scope else .ok ()

def lastUsedNeedsStamp (times : TimeTexts) (utc : Int) (lastUsedAt : Option Text) : Bool :=
  match lastUsedAt with
  | none => true
  | some text =>
    match times.parseStamp text with
    | some stamp => decide (lastUsedThrottleSecs < utc - stamp)
    | none => true

/-! ### The table -/

/-- The table `api_keys`, with its primary key and its unique column; ids are given out in order and never twice. -/
structure Database where
  rows : List ApiKey
  nextId : Nat
  ids : (rows.map ApiKey.id).Nodup
  hashes : (rows.map ApiKey.keyHash).Nodup
  lt_nextId : ∀ r ∈ rows, r.id < nextId

/-- What an `UPDATE` does to a row: it leaves the id and the hash. -/
structure RowUpdate where
  apply : ApiKey → ApiKey
  id_eq : ∀ r, (apply r).id = r.id
  keyHash_eq : ∀ r, (apply r).keyHash = r.keyHash

/-- A field that is left, cleared or set. -/
inductive UpdateField (α : Type)
  | ignore
  | reset
  | set (value : α)
  deriving DecidableEq

def UpdateField.apply {α : Type} (field : UpdateField α) (old : Option α) : Option α :=
  match field with
  | ignore => old
  | reset => none
  | set value => some value

/-- What is used of `UpdateParams`. -/
structure UpdateParams where
  scopes : Option (List Text)
  isActive : Option Bool
  expiresAt : UpdateField Text
  deriving DecidableEq

namespace RowUpdate

def ofParams (params : UpdateParams) : RowUpdate where
  apply r :=
    { r with
      scopes := params.scopes.getD r.scopes
      isActive := params.isActive.getD r.isActive
      expiresAt := params.expiresAt.apply r.expiresAt }
  id_eq _ := rfl
  keyHash_eq _ := rfl

def deactivate : RowUpdate where
  apply r := { r with isActive := false }
  id_eq _ := rfl
  keyHash_eq _ := rfl

/-- The condition of the `UPDATE` of `touch_last_used`. -/
def stampDue (times : TimeTexts) (utc : Int) (r : ApiKey) : Bool :=
  match r.lastUsedAt with
  | none => true
  | some stamp => (times.julianSeconds utc stamp).any fun seconds => lastUsedThrottleSecs < seconds

def stamp (times : TimeTexts) (utc : Int) : RowUpdate where
  apply r := { r with lastUsedAt := if stampDue times utc r then some (times.formatStamp utc) else r.lastUsedAt }
  id_eq _ := rfl
  keyHash_eq _ := rfl

end RowUpdate

namespace Database

def getById (db : Database) (id : Nat) : Option ApiKey := db.rows.find? fun r => decide (r.id = id)

def getByHash (db : Database) (keyHash : Text) : Option ApiKey := db.rows.find? fun r => decide (r.keyHash = keyHash)

/-- There is an active row for the credential. -/
def active (db : Database) (keyHash : Text) : Bool := db.rows.any fun r => r.keyHash == keyHash && r.isActive

/-- An `UPDATE` of the row with an id. -/
def updateRow (db : Database) (id : Nat) (u : RowUpdate) : Database where
  rows := db.rows.map fun r => if r.id = id then u.apply r else r
  nextId := db.nextId
  ids := by
    have hsame : (db.rows.map fun r => if r.id = id then u.apply r else r).map ApiKey.id = db.rows.map ApiKey.id := by
      rw [List.map_map]
      refine List.map_congr_left fun r _ => ?_
      show (if r.id = id then u.apply r else r).id = r.id
      split
      · exact u.id_eq r
      · rfl
    rw [hsame]
    exact db.ids
  hashes := by
    have hsame : (db.rows.map fun r => if r.id = id then u.apply r else r).map ApiKey.keyHash =
        db.rows.map ApiKey.keyHash := by
      rw [List.map_map]
      refine List.map_congr_left fun r _ => ?_
      show (if r.id = id then u.apply r else r).keyHash = r.keyHash
      split
      · exact u.keyHash_eq r
      · rfl
    rw [hsame]
    exact db.hashes
  lt_nextId := by
    intro r hr
    obtain ⟨old, hold, rfl⟩ := List.mem_map.mp hr
    have hlt := db.lt_nextId old hold
    split
    · rw [u.id_eq]
      exact hlt
    · exact hlt

/-- `create`; a hash that is there already is refused. -/
def create (db : Database) (keyHash : Text) (scopes : List Text) (expiresAt : Option Text) : Option (Database × ApiKey) :=
  let row : ApiKey := ⟨db.nextId, keyHash, scopes, true, expiresAt, none⟩
  if scopes = [] then none
  else if h : keyHash ∈ db.rows.map ApiKey.keyHash then none
  else
    some ({ rows := db.rows ++ [row]
            nextId := db.nextId + 1
            ids := by
              rw [List.map_append, List.nodup_append]
              refine ⟨db.ids, List.nodup_singleton _, ?_⟩
              intro a ha b hb
              obtain ⟨r, hr, rfl⟩ := List.mem_map.mp ha
              have hb : b = db.nextId := List.mem_singleton.mp hb
              have hlt := db.lt_nextId r hr
              omega
            hashes := by
              rw [List.map_append, List.nodup_append]
              refine ⟨db.hashes, List.nodup_singleton _, ?_⟩
              intro a ha b hb heq
              rw [heq, List.mem_singleton.mp hb] at ha
              exact h ha
            lt_nextId := by
              intro r hr
              rcases List.mem_append.mp hr with hr | hr
              · exact Nat.lt_succ_of_lt (db.lt_nextId r hr)
              · rw [List.mem_singleton.mp hr]
                exact Nat.lt_succ_self _ }, row)

def update (db : Database) (id : Nat) (params : UpdateParams) : Option Database :=
  if params.scopes = some [] then none
  else if (db.getById id).isNone then none
  else some (db.updateRow id (.ofParams params))

def revoke (db : Database) (id : Nat) : Option Database :=
  if (db.getById id).isNone then none
  else some (db.updateRow id .deactivate)

def hardDelete (db : Database) (id : Nat) : Database where
  rows := db.rows.filter fun r => r.id != id
  nextId := db.nextId
  ids := db.ids.sublist (List.filter_sublist.map _)
  hashes := db.hashes.sublist (List.filter_sublist.map _)
  lt_nextId := fun r hr => db.lt_nextId r (List.mem_filter.mp hr).1

/-- The row of `regenerate`. -/
def rehash (id : Nat) (keyHash : Text) (r : ApiKey) : ApiKey :=
  if r.id = id then { r with keyHash := keyHash, isActive := true, lastUsedAt := none } else r

theorem rehash_id (id : Nat) (keyHash : Text) (r : ApiKey) : (rehash id keyHash r).id = r.id := by
  unfold rehash
  split <;> rfl

/-- `regenerate`; a hash that another row has is refused. -/
def regenerate (db : Database) (id : Nat) (keyHash : Text) : Option Database :=
  if (db.getById id).isNone then none
  else if h : ∀ r ∈ db.rows, r.keyHash = keyHash → r.id = id then
    some { rows := db.rows.map (rehash id keyHash)
           nextId := db.nextId
           ids := by
             have hsame : (db.rows.map (rehash id keyHash)).map ApiKey.id = db.rows.map ApiKey.id := by
               rw [List.map_map]
               exact List.map_congr_left fun r _ => rehash_id id keyHash r
             rw [hsame]
             exact db.ids
           hashes := by
             rw [List.map_map]
             refine (db.ids.of_map _).map_on ?_
             intro r hr r' hr' heq
             have hid := List.inj_on_of_nodup_map db.ids hr hr'
             have hhash := List.inj_on_of_nodup_map db.hashes hr hr'
             simp only [Function.comp_apply, rehash] at heq
             split at heq
             · rename_i hthis
               split at heq
               · rename_i hother
                 exact hid (hthis.trans hother.symm)
               · rename_i hother
                 exact absurd (h r' hr' heq.symm) hother
             · rename_i hthis
               split at heq
               · exact absurd (h r hr heq) hthis
               · exact hhash heq
           lt_nextId := by
             intro r hr
             obtain ⟨old, hold, rfl⟩ := List.mem_map.mp hr
             rw [rehash_id]
             exact db.lt_nextId old hold }
  else none

def touchLastUsed (times : TimeTexts) (utc : Int) (db : Database) (id : Nat) : Database :=
  db.updateRow id (.stamp times utc)

end Database

/-! ### The requests of the administrator -/

inductive Request
  | create (keyHash : Text) (scopes : List Text) (expiresAt : Option Text)
  | update (id : Nat) (params : UpdateParams)
  | revoke (id : Nat)
  | delete (id : Nat)
  | regenerate (id : Nat) (keyHash : Text)
  deriving DecidableEq

namespace Request

/-- The write of a request, and the row that `create` gives back. -/
def perform (db : Database) : Request → Option (Database × Option ApiKey)
  | create keyHash scopes expiresAt => (db.create keyHash scopes expiresAt).map fun c => (c.1, some c.2)
  | update id params => (db.update id params).map fun db' => (db', none)
  | revoke id => (db.revoke id).map fun db' => (db', none)
  | delete id => some (db.hardDelete id, none)
  | regenerate id keyHash => (db.regenerate id keyHash).map fun db' => (db', none)

/-- The key that the request revokes. -/
def deactivates : Request → Option Nat
  | revoke id => some id
  | delete id => some id
  | update id params => if params.isActive = some false then some id else none
  | _ => none

/-- The credential that the request revokes. -/
def ends (db : Database) (q : Request) : Option Text := (q.deactivates.bind db.getById).map ApiKey.keyHash

/-- The credential that the request makes active. -/
def activates (db : Database) : Request → Option Text
  | create keyHash _ _ => some keyHash
  | update id params => if params.isActive = some true then (db.getById id).map ApiKey.keyHash else none
  | regenerate _ keyHash => some keyHash
  | _ => none

end Request

/-! ### Which credentials are active -/

namespace Database

variable {db : Database} {keyHash : Text}

theorem active_eq_true : db.active keyHash = true ↔ ∃ r ∈ db.rows, r.keyHash = keyHash ∧ r.isActive = true := by
  simp [active, List.any_eq_true]

theorem getByHash_eq_some {r : ApiKey} : db.getByHash keyHash = some r ↔ r ∈ db.rows ∧ r.keyHash = keyHash :=
  find?_key_eq_some ApiKey.keyHash db.hashes

theorem getById_eq_some {id : Nat} {r : ApiKey} : db.getById id = some r ↔ r ∈ db.rows ∧ r.id = id :=
  find?_key_eq_some ApiKey.id db.ids

/-- A row that is active after an `UPDATE` was so before, or has been made so. -/
theorem active_updateRow {id : Nat} {u : RowUpdate} (h : (db.updateRow id u).active keyHash = true) :
    db.active keyHash = true ∨
      ∃ r, db.getById id = some r ∧ r.keyHash = keyHash ∧ r.isActive = false ∧ (u.apply r).isActive = true := by
  obtain ⟨r', hr', hhash, hactive⟩ := active_eq_true.mp h
  obtain ⟨r, hr, rfl⟩ := List.mem_map.mp hr'
  split at hhash
  · rename_i hid
    rw [if_pos hid] at hactive
    rw [u.keyHash_eq] at hhash
    cases hbefore : r.isActive with
    | true => exact Or.inl (active_eq_true.mpr ⟨r, hr, hhash, hbefore⟩)
    | false => exact Or.inr ⟨r, getById_eq_some.mpr ⟨hr, hid⟩, hhash, hbefore, hactive⟩
  · rename_i hid
    rw [if_neg hid] at hactive
    exact Or.inl (active_eq_true.mpr ⟨r, hr, hhash, hactive⟩)

/-- A row that the `UPDATE` has made inactive was the only one of its credential. -/
theorem not_active_updateRow {id : Nat} {u : RowUpdate} {r : ApiKey} (hr : db.getById id = some r)
    (hinactive : (u.apply r).isActive = false) : (db.updateRow id u).active r.keyHash = false := by
  rw [Bool.eq_false_iff]
  intro h
  obtain ⟨r', hr', hhash, hactive⟩ := active_eq_true.mp h
  obtain ⟨old, hold, rfl⟩ := List.mem_map.mp hr'
  obtain ⟨hmem, hid⟩ := getById_eq_some.mp hr
  have hsame : old.keyHash = r.keyHash := by
    split at hhash
    · rwa [u.keyHash_eq] at hhash
    · exact hhash
  have heq := List.inj_on_of_nodup_map db.hashes hold hmem hsame
  rw [heq, if_pos hid, hinactive] at hactive
  cases hactive

theorem active_touchLastUsed {times : TimeTexts} {utc : Int} {id : Nat}
    (h : (db.touchLastUsed times utc id).active keyHash = true) : db.active keyHash = true := by
  rcases active_updateRow h with h | ⟨r, -, -, hbefore, hafter⟩
  · exact h
  · have hsame : ((RowUpdate.stamp times utc).apply r).isActive = r.isActive := rfl
    rw [hsame, hbefore] at hafter
    cases hafter

theorem active_hardDelete {id : Nat} (h : (db.hardDelete id).active keyHash = true) : db.active keyHash = true := by
  obtain ⟨r, hr, hhash, hactive⟩ := active_eq_true.mp h
  exact active_eq_true.mpr ⟨r, (List.mem_filter.mp hr).1, hhash, hactive⟩

end Database

open Database

/-- Only the requests that make a credential active do so. -/
theorem active_of_perform {db : Database} {q : Request} {result : Database × Option ApiKey} (h : q.perform db = some result)
    {keyHash : Text} (hactive : result.1.active keyHash = true) :
    db.active keyHash = true ∨ q.activates db = some keyHash := by
  cases q with
  | create keyHash' scopes expiresAt =>
    obtain ⟨⟨db', row⟩, hcreate, rfl⟩ := Option.map_eq_some_iff.mp h
    simp only [create] at hcreate
    split at hcreate
    · cases hcreate
    · split at hcreate
      · cases hcreate
      · obtain rfl := (Prod.mk.inj (Option.some.inj hcreate)).1
        obtain ⟨r, hr, hhash, hr'⟩ := active_eq_true.mp hactive
        rcases List.mem_append.mp hr with hr | hr
        · exact Or.inl (active_eq_true.mpr ⟨r, hr, hhash, hr'⟩)
        · rw [List.mem_singleton.mp hr] at hhash
          exact Or.inr (congrArg some hhash)
  | update id params =>
    obtain ⟨db', hupdate, rfl⟩ := Option.map_eq_some_iff.mp h
    unfold update at hupdate
    split at hupdate
    · cases hupdate
    · split at hupdate
      · cases hupdate
      · obtain rfl := Option.some.inj hupdate
        rcases active_updateRow hactive with hbefore | ⟨r, hr, hhash, hbefore, hafter⟩
        · exact Or.inl hbefore
        · right
          have hset : params.isActive = some true := by
            have hafter : params.isActive.getD r.isActive = true := hafter
            cases hparam : params.isActive with
            | none =>
              rw [hparam, Option.getD_none, hbefore] at hafter
              cases hafter
            | some b =>
              rw [hparam, Option.getD_some] at hafter
              rw [hafter]
          show (if params.isActive = some true then _ else _) = _
          rw [if_pos hset, hr, ← hhash]
          rfl
  | revoke id =>
    obtain ⟨db', hrevoke, rfl⟩ := Option.map_eq_some_iff.mp h
    unfold revoke at hrevoke
    split at hrevoke
    · cases hrevoke
    · obtain rfl := Option.some.inj hrevoke
      rcases active_updateRow hactive with hbefore | ⟨r, -, -, -, hafter⟩
      · exact Or.inl hbefore
      · cases hafter
  | delete id =>
    obtain rfl := Option.some.inj h
    exact Or.inl (active_hardDelete hactive)
  | regenerate id keyHash' =>
    obtain ⟨db', hregenerate, rfl⟩ := Option.map_eq_some_iff.mp h
    unfold regenerate at hregenerate
    split at hregenerate
    · cases hregenerate
    · split at hregenerate
      · obtain rfl := Option.some.inj hregenerate
        obtain ⟨r', hr', hhash, hr''⟩ := active_eq_true.mp hactive
        obtain ⟨r, hr, rfl⟩ := List.mem_map.mp hr'
        unfold rehash at hhash hr''
        split at hhash
        · exact Or.inr (congrArg some hhash)
        · rename_i hid
          rw [if_neg hid] at hr''
          exact Or.inl (active_eq_true.mpr ⟨r, hr, hhash, hr''⟩)
      · cases hregenerate

/-- After the write of a revocation the credential is not active. -/
theorem not_active_of_ends {db : Database} {q : Request} {result : Database × Option ApiKey} (h : q.perform db = some result)
    {keyHash : Text} (hends : q.ends db = some keyHash) : result.1.active keyHash = false := by
  obtain ⟨r, hr, rfl⟩ := Option.map_eq_some_iff.mp hends
  obtain ⟨id, hid, hr⟩ := Option.bind_eq_some_iff.mp hr
  cases q with
  | create keyHash' scopes expiresAt => cases hid
  | regenerate id' keyHash' => cases hid
  | update id' params =>
    simp only [Request.deactivates, Option.ite_none_right_eq_some] at hid
    obtain ⟨hset, hid⟩ := hid
    obtain rfl := Option.some.inj hid
    obtain ⟨db', hupdate, rfl⟩ := Option.map_eq_some_iff.mp h
    unfold update at hupdate
    split at hupdate
    · cases hupdate
    · split at hupdate
      · cases hupdate
      · obtain rfl := Option.some.inj hupdate
        refine not_active_updateRow hr ?_
        show params.isActive.getD r.isActive = false
        rw [hset]
        rfl
  | revoke id' =>
    obtain rfl := Option.some.inj hid
    obtain ⟨db', hrevoke, rfl⟩ := Option.map_eq_some_iff.mp h
    unfold revoke at hrevoke
    split at hrevoke
    · cases hrevoke
    · obtain rfl := Option.some.inj hrevoke
      exact not_active_updateRow hr rfl
  | delete id' =>
    obtain rfl := Option.some.inj hid
    obtain rfl := Option.some.inj h
    rw [Bool.eq_false_iff]
    intro hactive
    obtain ⟨r', hr', hhash, -⟩ := active_eq_true.mp hactive
    obtain ⟨hmem', hne⟩ := List.mem_filter.mp hr'
    obtain rfl := List.inj_on_of_nodup_map db.hashes hmem' (getById_eq_some.mp hr).1 hhash
    rw [(getById_eq_some.mp hr).2, bne_self_eq_false] at hne
    cases hne

end OpenProxy.Auth
