import OpenProxy.Data.Encoding
import OpenProxy.Data.JsonDecode

/-!
# Restoring a backup

The model of `backup/restore.rs`, with `decrypt_bundle_payload` and the migrations.  SQLite is a parameter: it executes a
statement or refuses it, and a transaction that is not committed leaves the rows as they were.  The pragma for foreign keys
is a state of the connection and is not rolled back.  A restore that fails after it has switched them off leaves them off,
so that a failed restore leaves everything as it was exactly if it was refused before (`unchanged_iff`).
-/

namespace OpenProxy.Backup

open Json

/-! ### SQLite -/

/-- The errors of a restore. -/
inductive CoreError
  | validation (message : Text)
  | database (message : Text)
  | internal (message : Text)
  | parse (message : Text)
  | migration (version : Int) (message : Text)
  deriving DecidableEq

/-- A value that is bound to a statement. -/
inductive SqlValue
  | null
  | integer (n : Int)
  | real (n : JsonNumber)
  | text (t : Text)
  | blob (b : Bytes)
  deriving DecidableEq

/-- The values of a row, by their columns. -/
abbrev Row := List (Text × SqlValue)

/-- The statements that change rows. -/
inductive Statement
  | delete (table : String)
  /-- `UPDATE usage SET api_key_id = NULL`. -/
  | clearUsageKeys
  /-- `DELETE FROM sqlite_sequence WHERE name IN (…)`. -/
  | resetSequences (tables : List String)
  | insert (table : String) (row : Row)
  | insertOrIgnore (table : String) (row : Row)
  | insertOrReplace (table : Text) (row : Row)
  /-- `INSERT … ON CONFLICT(key) DO UPDATE`, for `app_config`. -/
  | upsertConfig (row : Row)
  | update (table : String) (column : Text) (value : SqlValue) (pkCol : String) (pkVal : SqlValue)
  /-- `CREATE TABLE IF NOT EXISTS schema_migrations`. -/
  | createTrackingTable

/-- `foreign_key_check`: the table and the row that refer to a row of another table that is missing. -/
structure FkViolation where
  table : Text
  rowid : Int
  targetTable : Text
  fkid : Int

structure Migration where
  version : Int
  /-- The migration has `PRAGMA foreign_keys = OFF`. -/
  needsFkOff : Bool

/-- A database with rows of type `δ`; an error is given by its text. -/
structure Sqlite (δ : Type) where
  /-- One statement, with or without the check of foreign keys; a statement that fails changes nothing. -/
  execute : Bool → Statement → δ → Except Text δ
  prepareInsert : Text → δ → Except Text Unit
  tableColumns : Text → δ → Except Text (List Text)
  proxyExists : Text → δ → Bool
  prepareCheck : δ → Except Text Unit
  foreignKeyCheck : δ → Except Text (List (Except Text FkViolation))
  /-- `PRAGMA foreign_keys`, which may fail. -/
  pragma : Bool → δ → Except Text Unit
  beginImmediate : δ → Except Text Unit
  commit : δ → Except Text Unit
  migrations : List Migration
  appliedVersions : δ → Except Text (List Int)
  /-- A batch of migrations in a transaction, with its retries. -/
  applyMigrationBatch : Bool → List Migration → δ → Except CoreError δ

/-- The rows that are committed, and the pragma. -/
structure Connection (δ : Type) where
  rows : δ
  foreignKeys : Bool

/-- `map_db_error`. -/
def mapDbError {α : Type} : Except Text α → Except CoreError α
  | .ok a => .ok a
  | .error e => .error (.database e)

/-- `map_db_error_ctx`. -/
def mapDbErrorCtx {α : Type} (ctx : Text) : Except Text α → Except CoreError α
  | .ok a => .ok a
  | .error e => .error (.database (ctx ++ ": ".toList ++ e))

/-! ### Bundles -/

/-- `BackupProvider`.  In the structures of this section, `columns` has the values that are bound as they are. -/
structure BackupProvider where
  id : Text
  currentProxyId : Option Text
  columns : Row
  extraFields : List (Text × Json)

/-- `BackupAccount`. -/
structure BackupAccount where
  id : Int
  apiKey : Option Text
  accessToken : Option Text
  refreshToken : Option Text
  oauthProviderSpecific : Option Text
  currentProxyId : Option Text
  columns : Row
  extraFields : List (Text × Json)

/-- `BackupModel`. -/
structure BackupModel where
  id : Int
  modelId : Text
  columns : Row
  extraFields : List (Text × Json)

/-- `BackupCombo`. -/
structure BackupCombo where
  id : Int
  name : Text
  columns : Row
  extraFields : List (Text × Json)

/-- `BackupComboTarget`. -/
structure BackupComboTarget where
  id : Int
  accountId : Option Int
  modelRowId : Option Int
  subComboId : Option Int
  columns : Row
  extraFields : List (Text × Json)

/-- `BackupProxySource`. -/
structure BackupProxySource where
  id : Text
  name : Text
  columns : Row
  extraFields : List (Text × Json)

/-- `BackupApiKey`. -/
structure BackupApiKey where
  id : Int
  columns : Row
  extraFields : List (Text × Json)

/-- `BackupAppConfig`. -/
structure BackupAppConfig where
  key : Text
  value : Text
  updatedAt : Int

/-- `BackupPayload`. -/
structure BackupPayload where
  providers : List BackupProvider := []
  accounts : List BackupAccount := []
  models : List BackupModel := []
  combos : List BackupCombo := []
  comboTargets : List BackupComboTarget := []
  proxySources : List BackupProxySource := []
  apiKeys : List BackupApiKey := []
  appConfig : List BackupAppConfig := []
  extraTables : List (Text × List Json) := []

/-- `BackupBundle`. -/
structure BackupBundle where
  version : Nat
  encrypted : Bool
  kdf : Option Text
  kdfSalt : Option Text
  kdfIterations : Option Nat
  nonce : Option Text
  ciphertext : Option Text
  payload : Option BackupPayload

/-- The decoders, the cipher and serde, with the texts of their errors. -/
structure Crypto where
  decodeBase64 : Text → Except Text Bytes
  deriveKey : (passphrase : Text) → (salt : Bytes) → (iterations : Nat) → (algo : Text) → Bytes
  decrypt : (key nonce ciphertext : Bytes) → Option Bytes
  fromSlice : Bytes → Except Text BackupPayload
  defaultKdfIterations : Nat

def kdfAlgoLegacy : Text := "sha256_iter".toList

/-- `NONCE_LEN`. -/
def nonceLen : Nat := 12

/-- A field of an encrypted bundle, decoded. -/
def decodeField (crypto : Crypto) (name : String) (missing : String) (field : Option Text) : Except CoreError Bytes :=
  match field with
  | none => .error (.validation missing.toList)
  | some t =>
    match crypto.decodeBase64 (trim t) with
    | .ok bytes => .ok bytes
    | .error e => .error (.validation ("invalid ".toList ++ name.toList ++ " base64: ".toList ++ e))

/-- `decrypt_bundle_payload`. -/
def decryptBundlePayload (crypto : Crypto) (bundle : BackupBundle) (passphrase : Option Text) :
    Except CoreError BackupPayload :=
  if !bundle.encrypted then
    match bundle.payload with
    | some payload => .ok payload
    | none => .error (.validation "Backup payload is missing".toList)
  else
    match passphrase.filter fun p => !(trim p).isEmpty with
    | none => .error (.validation "Backup bundle is encrypted: passphrase is required".toList)
    | some passphrase =>
      -- all three fields are looked up before the first one is decoded
      if bundle.kdfSalt.isNone then .error (.validation "Missing kdf_salt in encrypted backup".toList)
      else if bundle.nonce.isNone then .error (.validation "Missing nonce in encrypted backup".toList)
      else if bundle.ciphertext.isNone then .error (.validation "Missing ciphertext in encrypted backup".toList)
      else do
        let salt ← decodeField crypto "salt" "Missing kdf_salt in encrypted backup" bundle.kdfSalt
        let nonce ← decodeField crypto "nonce" "Missing nonce in encrypted backup" bundle.nonce
        let ciphertext ← decodeField crypto "ciphertext" "Missing ciphertext in encrypted backup" bundle.ciphertext
        if nonce.length ≠ nonceLen then
          .error (.validation ("invalid nonce length: expected ".toList ++ Nat.toDigits 10 nonceLen ++ ", got ".toList ++
            Nat.toDigits 10 nonce.length))
        else
          let iterations := bundle.kdfIterations.getD crypto.defaultKdfIterations
          let key := crypto.deriveKey passphrase salt iterations (bundle.kdf.getD kdfAlgoLegacy)
          match crypto.decrypt key nonce ciphertext with
          | none =>
            .error (.validation "Decryption failed: incorrect passphrase or corrupted backup file".toList)
          | some bytes =>
            match crypto.fromSlice bytes with
            | .ok payload => .ok payload
            | .error e => .error (.parse ("deserialize payload: ".toList ++ e))

/-! ### Columns and tables that the structures do not name -/

variable {δ : Type} (sqlite : Sqlite δ)

/-- The value that is bound for a JSON value. -/
def sqlOfJson : Json → SqlValue
  | .null => .null
  | .bool b => .integer (if b then 1 else 0)
  | .number n =>
    match decodeI64 (.number n) with
    | some i => .integer i
    | none => .real n
  | .string s => .text s
  | v => .text (write v)

/-- `restore_extra_columns`: an update that fails is passed over. -/
def restoreExtraColumns (table : String) (pkCol : String) (pkVal : SqlValue) (existing : List Text) :
    List (Text × Json) → δ → δ
  | [], db => db
  | (col, json) :: fields, db =>
    if existing.contains col then
      match sqlite.execute false (.update table col (sqlOfJson json) pkCol pkVal) db with
      | .ok db => restoreExtraColumns table pkCol pkVal existing fields db
      | .error _ => restoreExtraColumns table pkCol pkVal existing fields db
    else restoreExtraColumns table pkCol pkVal existing fields db

/-- The rows of one unmapped table; the error has the rows up to a statement that cannot be prepared. -/
def restoreExtraRows (table : Text) (columns : List Text) : List Json → δ → Except δ δ
  | [], db => .ok db
  | row :: rows, db =>
    match row.asObject with
    | none => restoreExtraRows table columns rows db
    | some obj =>
      let matching := obj.filter fun field => columns.contains field.1
      if matching.isEmpty then restoreExtraRows table columns rows db
      else
        match sqlite.prepareInsert table db with
        | .error _ => .error db
        | .ok () =>
          match sqlite.execute false (.insertOrReplace table (matching.map fun field => (field.1, sqlOfJson field.2))) db with
          | .ok db => restoreExtraRows table columns rows db
          | .error _ => restoreExtraRows table columns rows db

/-- `restore_extra_tables`, of which the caller ignores the error. -/
def restoreExtraTables : List (Text × List Json) → δ → δ
  | [], db => db
  | (table, rows) :: tables, db =>
    match sqlite.tableColumns table db with
    | .ok (column :: columns) =>
      match restoreExtraRows sqlite table (column :: columns) rows db with
      | .ok db => restoreExtraTables tables db
      | .error db => db
    | _ => restoreExtraTables tables db

/-! ### Tables -/

/-- What is inserted for a row of a bundle. -/
structure Insertion where
  context : Text
  key : SqlValue
  row : Row
  extraFields : List (Text × Json)

/-- The rows of a table. -/
def restoreRows {ρ : Type} (table : String) (columns : List Text) (insertion : ρ → δ → Except CoreError Insertion) :
    List ρ → δ → Except CoreError δ
  | [], db => .ok db
  | r :: rs, db => do
    let i ← insertion r db
    let db ← mapDbErrorCtx i.context (sqlite.execute false (.insert table (("id".toList, i.key) :: i.row)) db)
    restoreRows table columns insertion rs (restoreExtraColumns sqlite table "id" i.key columns i.extraFields db)

/-- One table: its columns, the prepared statement and the rows. -/
def restoreTable {ρ : Type} (table : String) (insertion : ρ → δ → Except CoreError Insertion) (rs : List ρ) (db : δ) :
    Except CoreError δ := do
  let columns := (sqlite.tableColumns table.toList db).toOption.getD []
  mapDbError (sqlite.prepareInsert table.toList db)
  restoreRows sqlite table columns insertion rs db

def optionText (t : Option Text) : SqlValue := (t.map SqlValue.text).getD .null

def optionInteger (n : Option Int) : SqlValue := (n.map SqlValue.integer).getD .null

def showInt (n : Int) : Text := (toString n).toList

/-- `existing_proxy_id`. -/
def existingProxyId (db : δ) (proxyId : Option Text) : Option Text := proxyId.filter fun id => sqlite.proxyExists id db

def BackupProvider.insertion (p : BackupProvider) (db : δ) : Except CoreError Insertion :=
  .ok ⟨"restore provider ".toList ++ p.id, .text p.id,
    ("current_proxy_id".toList, optionText (existingProxyId sqlite db p.currentProxyId)) :: p.columns, p.extraFields⟩

/-- `MasterKey::encrypt`, of which the nonce is drawn for each call. -/
abbrev MasterKey := Text → Except CoreError Bytes

/-- An optional secret. -/
def MasterKey.encryptOption (masterKey : MasterKey) (secret : Option Text) : Except CoreError SqlValue :=
  match secret with
  | none => .ok .null
  | some s => (masterKey s).map SqlValue.blob

/-- `encrypt_oauth_provider_specific`. -/
def MasterKey.encryptOauthProviderSpecific (masterKey : MasterKey) (value : Option Text) : Except CoreError SqlValue :=
  match value with
  | none => .ok .null
  | some s => (masterKey s).map fun blob => SqlValue.text (encodeBase64 blob)

def BackupAccount.insertion (masterKey : MasterKey) (a : BackupAccount) (db : δ) : Except CoreError Insertion := do
  let apiKey ← masterKey (a.apiKey.getD [])
  let accessToken ← masterKey.encryptOption a.accessToken
  let refreshToken ← masterKey.encryptOption a.refreshToken
  let oauthSpecific ← masterKey.encryptOauthProviderSpecific a.oauthProviderSpecific
  return ⟨"restore account ".toList ++ showInt a.id, .integer a.id,
    ("api_key_encrypted".toList, .blob apiKey) :: ("access_token_encrypted".toList, accessToken) ::
      ("refresh_token_encrypted".toList, refreshToken) :: ("oauth_provider_specific".toList, oauthSpecific) ::
      ("current_proxy_id".toList, optionText (existingProxyId sqlite db a.currentProxyId)) :: a.columns, a.extraFields⟩

def BackupModel.insertion (m : BackupModel) (_ : δ) : Except CoreError Insertion :=
  .ok ⟨"restore model ".toList ++ m.modelId, .integer m.id, ("model_id".toList, .text m.modelId) :: m.columns,
    m.extraFields⟩

def BackupCombo.insertion (c : BackupCombo) (_ : δ) : Except CoreError Insertion :=
  .ok ⟨"restore combo ".toList ++ c.name, .integer c.id, ("name".toList, .text c.name) :: c.columns, c.extraFields⟩

/-- A reference to a row that the bundle does not have is dropped. -/
def BackupComboTarget.insertion (payload : BackupPayload) (t : BackupComboTarget) (_ : δ) : Except CoreError Insertion :=
  let safeAccountId := t.accountId.filter fun id => payload.accounts.any (·.id == id)
  let safeModelRowId := t.modelRowId.filter fun id => payload.models.any (·.id == id)
  let safeSubComboId := t.subComboId.filter fun id => payload.combos.any (·.id == id)
  .ok ⟨"restore combo target ".toList ++ showInt t.id, .integer t.id,
    ("account_id".toList, optionInteger safeAccountId) :: ("model_row_id".toList, optionInteger safeModelRowId) ::
      ("sub_combo_id".toList, optionInteger safeSubComboId) :: t.columns, t.extraFields⟩

def BackupProxySource.insertion (ps : BackupProxySource) (_ : δ) : Except CoreError Insertion :=
  .ok ⟨"restore proxy source ".toList ++ ps.name, .text ps.id, ("name".toList, .text ps.name) :: ps.columns,
    ps.extraFields⟩

def BackupApiKey.insertion (k : BackupApiKey) (_ : δ) : Except CoreError Insertion :=
  .ok ⟨"restore api key ".toList ++ showInt k.id, .integer k.id, k.columns, k.extraFields⟩

/-- The rows of `app_config`. -/
def restoreAppConfig : List BackupAppConfig → δ → Except CoreError δ
  | [], db => .ok db
  | cfg :: cfgs, db => do
    let row := [("key".toList, SqlValue.text cfg.key), ("value".toList, .text cfg.value),
      ("updated_at".toList, .integer cfg.updatedAt)]
    let db ← mapDbErrorCtx ("restore app_config ".toList ++ cfg.key) (sqlite.execute false (.upsertConfig row) db)
    restoreAppConfig cfgs db

/-- The statements of a batch, up to the first one that fails. -/
def executeBatch : List Statement → δ → Except Text δ
  | [], db => .ok db
  | statement :: statements, db => do
    let db ← sqlite.execute false statement db
    executeBatch statements db

/-- The statements that clear the tables. -/
def clearTables : List Statement :=
  [.delete "target_cooldowns", .delete "provider_proxy_cooldowns", .delete "provider_favicons",
    .delete "live_limited_models", .delete "oauth_device_tickets", .clearUsageKeys, .delete "combo_targets",
    .delete "combos", .delete "accounts", .delete "models", .delete "providers", .delete "proxy_sources",
    .delete "api_keys", .delete "app_config",
    .resetSequences ["combo_targets", "combos", "accounts", "models", "api_keys"]]

/-- The virtual provider of combos. -/
def virtualComboProvider : Row :=
  [("id".toList, .text "combo".toList), ("name".toList, .text "Virtual Combo Provider".toList),
    ("base_url".toList, .text "http://virtual.combo".toList), ("auth_type".toList, .text "bearer".toList),
    ("format".toList, .text "openai".toList), ("rate_limit_scope".toList, .text "account".toList)]

def FkViolation.show (v : FkViolation) : Text :=
  v.table ++ " (rowid ".toList ++ showInt v.rowid ++ ") references invalid ".toList ++ v.targetTable ++
    " (fkid ".toList ++ showInt v.fkid ++ ")".toList

/-- The check of foreign keys before the commit. -/
def verifyForeignKeys (db : δ) : Except CoreError Unit := do
  mapDbErrorCtx "prepare foreign_key_check".toList (sqlite.prepareCheck db)
  let rows ← mapDbErrorCtx "query foreign_key_check".toList (sqlite.foreignKeyCheck db)
  let violations ← mapDbErrorCtx "collect foreign_key_check".toList (rows.mapM id)
  if violations.isEmpty then .ok ()
  else
    .error (.validation ("Foreign key constraints failed during restore: ".toList ++
      List.intercalate ", ".toList (violations.map FkViolation.show)))

/-- What is done in the transaction. -/
def restoreTables (masterKey : MasterKey) (payload : BackupPayload) (db : δ) : Except CoreError δ := do
  let db ← mapDbErrorCtx "clean tables for restore".toList (executeBatch sqlite clearTables db)
  let db ← restoreTable sqlite "providers" (BackupProvider.insertion sqlite) payload.providers db
  let db ← mapDbErrorCtx "seed virtual combo provider".toList
    (sqlite.execute false (.insertOrIgnore "providers" virtualComboProvider) db)
  let db ← restoreTable sqlite "accounts" (BackupAccount.insertion sqlite masterKey) payload.accounts db
  let db ← restoreTable sqlite "models" BackupModel.insertion payload.models db
  let db ← restoreTable sqlite "combos" BackupCombo.insertion payload.combos db
  let db ← restoreTable sqlite "combo_targets" (BackupComboTarget.insertion payload) payload.comboTargets db
  let db ← restoreTable sqlite "proxy_sources" BackupProxySource.insertion payload.proxySources db
  let db ← restoreTable sqlite "api_keys" BackupApiKey.insertion payload.apiKeys db
  mapDbError (sqlite.prepareInsert "app_config".toList db)
  let db ← restoreAppConfig sqlite payload.appConfig db
  let db := restoreExtraTables sqlite payload.extraTables db
  verifyForeignKeys sqlite db
  return db

/-! ### Migrations -/

/-- `run_migrations_with_fk_guard`. -/
def runMigrationsWithFkGuard (pending : List Migration) (conn : Connection δ) : Except CoreError Unit × Connection δ :=
  let setPragma (enabled : Bool) (conn : Connection δ) : Except CoreError Unit × Connection δ :=
    match sqlite.pragma enabled conn.rows with
    | .ok () => (.ok (), { conn with foreignKeys := enabled })
    | .error e =>
      (.error (.migration 0 ((if enabled then "PRAGMA foreign_keys = ON: " else "PRAGMA foreign_keys = OFF: ").toList ++ e)),
        conn)
  let apply (conn : Connection δ) : Except CoreError Unit × Connection δ :=
    match sqlite.applyMigrationBatch conn.foreignKeys pending conn.rows with
    | .ok rows => (.ok (), { conn with rows := rows })
    | .error e => (.error e, conn)
  if !pending.any (·.needsFkOff) then apply conn
  else
    match setPragma false conn with
    | (.error e, conn) => (.error e, conn)
    | (.ok (), conn) =>
      let (res, conn) := apply conn
      let (fkRes, conn) := setPragma true conn
      (res.bind fun _ => fkRes, conn)

/-- `migrations::run`. -/
def runMigrations (conn : Connection δ) : Except CoreError Unit × Connection δ :=
  match mapDbError (sqlite.execute conn.foreignKeys .createTrackingTable conn.rows) with
  | .error e => (.error e, conn)
  | .ok rows =>
    let conn := { conn with rows := rows }
    match mapDbError (sqlite.appliedVersions conn.rows) with
    | .error e => (.error e, conn)
    | .ok applied =>
      let pending := sqlite.migrations.filter fun m => !applied.contains m.version
      if pending.isEmpty then (.ok (), conn) else runMigrationsWithFkGuard sqlite pending conn

/-! ### The restore -/

/-- `BACKUP_FORMAT_VERSION`. -/
def backupFormatVersion : Nat := 1

/-- `RestoreReport`, without what is the same in all reports. -/
structure RestoreReport where
  safetyBackupPath : Option Text
  providersRestored : Nat
  accountsRestored : Nat
  modelsRestored : Nat
  combosRestored : Nat
  comboTargetsRestored : Nat
  proxySourcesRestored : Nat
  apiKeysRestored : Nat
  appConfigRestored : Nat

def BackupPayload.report (payload : BackupPayload) (safetyBackupPath : Option Text) : RestoreReport :=
  ⟨safetyBackupPath, payload.providers.length, payload.accounts.length, payload.models.length, payload.combos.length,
    payload.comboTargets.length, payload.proxySources.length, payload.apiKeys.length, payload.appConfig.length⟩

/-- The rest of a restore, from the pragma on. -/
def restoreWithoutForeignKeys (masterKey : MasterKey) (safetyBackupPath : Option Text) (payload : BackupPayload)
    (conn : Connection δ) : Except CoreError RestoreReport × Connection δ :=
  match mapDbErrorCtx "disable foreign keys".toList (sqlite.pragma false conn.rows) with
  | .error e => (.error e, conn)
  | .ok () =>
    let conn := { conn with foreignKeys := false }
    match mapDbErrorCtx "begin restore transaction".toList (sqlite.beginImmediate conn.rows) with
    | .error e => (.error e, conn)
    | .ok () =>
      match restoreTables sqlite masterKey payload conn.rows with
      -- the transaction is dropped
      | .error e => (.error e, conn)
      | .ok rows =>
        match mapDbErrorCtx "commit restore transaction".toList (sqlite.commit rows) with
        | .error e => (.error e, conn)
        | .ok () =>
          let conn := { conn with rows := rows }
          match mapDbErrorCtx "re-enable foreign keys".toList (sqlite.pragma true conn.rows) with
          | .error e => (.error e, conn)
          | .ok () => (.ok (payload.report safetyBackupPath), { conn with foreignKeys := true })

/-- `restore_backup`, with the passphrase of the options and the copy that is made of the database file. -/
def restoreBackup (crypto : Crypto) (masterKey : MasterKey) (bundle : BackupBundle) (passphrase : Option Text)
    (safetyBackupPath : Option Text) (conn : Connection δ) : Except CoreError RestoreReport × Connection δ :=
  if bundle.version = 0 ∨ backupFormatVersion + 1 < bundle.version then
    (.error (.validation ("Unsupported backup format version: ".toList ++ Nat.toDigits 10 bundle.version ++
      ". Expected <= ".toList ++ Nat.toDigits 10 backupFormatVersion)), conn)
  else
    match decryptBundlePayload crypto bundle passphrase with
    | .error e => (.error e, conn)
    | .ok payload =>
      match runMigrations sqlite conn with
      | (.error e, conn) => (.error e, conn)
      | (.ok (), conn) => restoreWithoutForeignKeys sqlite masterKey safetyBackupPath payload conn

/-! ### Failed restores -/

/-- The tracking table is there and has every migration. -/
structure AtLatestSchema (rows : δ) : Prop where
  tracked : ∀ foreignKeys rows', sqlite.execute foreignKeys .createTrackingTable rows = .ok rows' → rows' = rows
  applied : ∀ versions, sqlite.appliedVersions rows = .ok versions → ∀ m ∈ sqlite.migrations, m.version ∈ versions

/-- The restore is refused before the foreign keys are switched off. -/
def RefusedEarly (crypto : Crypto) (bundle : BackupBundle) (passphrase : Option Text) (conn : Connection δ) : Prop :=
  bundle.version = 0 ∨ backupFormatVersion + 1 < bundle.version ∨
    (∃ e, decryptBundlePayload crypto bundle passphrase = .error e) ∨
    (∃ e, sqlite.execute conn.foreignKeys .createTrackingTable conn.rows = .error e) ∨
    (∃ e, sqlite.appliedVersions conn.rows = .error e) ∨ ∃ e, sqlite.pragma false conn.rows = .error e

variable {sqlite}

/-- Migrations of a database that has them all change nothing. -/
theorem runMigrations_cases {conn : Connection δ} (hschema : AtLatestSchema sqlite conn.rows) :
    ((∃ e, runMigrations sqlite conn = (.error e, conn)) ∧
        ((∃ e, sqlite.execute conn.foreignKeys .createTrackingTable conn.rows = .error e) ∨
          ∃ e, sqlite.appliedVersions conn.rows = .error e)) ∨
      (runMigrations sqlite conn = (.ok (), conn) ∧
        (¬ ∃ e, sqlite.execute conn.foreignKeys .createTrackingTable conn.rows = .error e) ∧
        ¬ ∃ e, sqlite.appliedVersions conn.rows = .error e) := by
  unfold runMigrations
  cases htrack : sqlite.execute conn.foreignKeys .createTrackingTable conn.rows with
  | error e => exact Or.inl ⟨⟨_, rfl⟩, Or.inl ⟨e, rfl⟩⟩
  | ok rows =>
    obtain rfl := hschema.tracked _ _ htrack
    dsimp only [mapDbError]
    cases hversions : sqlite.appliedVersions conn.rows with
    | error e => exact Or.inl ⟨⟨_, rfl⟩, Or.inr ⟨e, rfl⟩⟩
    | ok applied =>
      right
      have hnone : (sqlite.migrations.filter fun m => !applied.contains m.version) = [] := by
        rw [List.filter_eq_nil_iff]
        intro m hm
        simp [hschema.applied applied hversions m hm]
      dsimp only
      rw [hnone]
      refine ⟨rfl, ?_, ?_⟩ <;> (rintro ⟨e, h⟩; cases h)

/-- A restore that fails after the pragma leaves the foreign keys off, and the rows unless it fails at the very end. -/
theorem restoreWithoutForeignKeys_error {masterKey : MasterKey} {safetyBackupPath : Option Text} {payload : BackupPayload}
    {conn conn' : Connection δ} {e : CoreError}
    (h : restoreWithoutForeignKeys sqlite masterKey safetyBackupPath payload conn = (.error e, conn')) :
    ((∃ e, sqlite.pragma false conn.rows = .error e) ∧ conn' = conn) ∨
      ((¬ ∃ e, sqlite.pragma false conn.rows = .error e) ∧ conn'.foreignKeys = false ∧
        (conn'.rows = conn.rows ∨ ∃ e, sqlite.pragma true conn'.rows = .error e)) := by
  unfold restoreWithoutForeignKeys at h
  cases hoff : sqlite.pragma false conn.rows with
  | error e =>
    rw [hoff] at h
    cases h
    exact Or.inl ⟨⟨e, rfl⟩, rfl⟩
  | ok u =>
    right
    have hoff' : ¬ ∃ e, (Except.ok u : Except Text Unit) = .error e := by
      rintro ⟨e, h⟩
      cases h
    refine ⟨hoff', ?_⟩
    rw [hoff] at h
    dsimp only [mapDbErrorCtx] at h
    split at h
    · cases h
      exact ⟨rfl, Or.inl rfl⟩
    · split at h
      · cases h
        exact ⟨rfl, Or.inl rfl⟩
      · rename_i rows _
        split at h
        · cases h
          exact ⟨rfl, Or.inl rfl⟩
        · cases hon : sqlite.pragma true rows with
          | error e =>
            rw [hon] at h
            cases h
            exact ⟨rfl, Or.inr ⟨e, hon⟩⟩
          | ok u =>
            rw [hon] at h
            cases h

/-- A restore that succeeds switches the foreign keys on again, and the rows are those of the bundle. -/
theorem restoreWithoutForeignKeys_ok {masterKey : MasterKey} {safetyBackupPath : Option Text} {payload : BackupPayload}
    {conn conn' : Connection δ} {report : RestoreReport}
    (h : restoreWithoutForeignKeys sqlite masterKey safetyBackupPath payload conn = (.ok report, conn')) :
    conn'.foreignKeys = true ∧ restoreTables sqlite masterKey payload conn.rows = .ok conn'.rows := by
  unfold restoreWithoutForeignKeys at h
  dsimp only at h
  split at h
  · cases h
  · split at h
    · cases h
    · split at h
      · cases h
      · rename_i rows hrows
        split at h
        · cases h
        · split at h
          · cases h
          · cases h
            exact ⟨rfl, hrows⟩

/-- A failed restore leaves everything as it was exactly if it is refused before the foreign keys are switched off. -/
theorem unchanged_iff {crypto : Crypto} {masterKey : MasterKey} {bundle : BackupBundle} {passphrase : Option Text}
    {safetyBackupPath : Option Text} {conn conn' : Connection δ} {e : CoreError}
    (hschema : AtLatestSchema sqlite conn.rows) (hkeys : conn.foreignKeys = true)
    (h : restoreBackup sqlite crypto masterKey bundle passphrase safetyBackupPath conn = (.error e, conn')) :
    (conn'.rows = conn.rows ∧ conn'.foreignKeys = true) ↔ RefusedEarly sqlite crypto bundle passphrase conn := by
  unfold restoreBackup at h
  unfold RefusedEarly
  split at h
  · rename_i hversion
    cases h
    exact iff_of_true ⟨rfl, hkeys⟩ (hversion.imp_right Or.inl)
  · rename_i hversion
    rw [not_or] at hversion
    cases hpayload : decryptBundlePayload crypto bundle passphrase with
    | error _ =>
      rw [hpayload] at h
      cases h
      exact iff_of_true ⟨rfl, hkeys⟩ (Or.inr (Or.inr (Or.inl ⟨_, rfl⟩)))
    | ok payload =>
      rw [hpayload] at h
      dsimp only at h
      rcases runMigrations_cases hschema with ⟨⟨e', hrun⟩, hfailed⟩ | ⟨hrun, htracked, happlied⟩
      · rw [hrun] at h
        cases h
        refine iff_of_true ⟨rfl, hkeys⟩ (Or.inr (Or.inr (Or.inr ?_)))
        rcases hfailed with hfailed | hfailed
        · exact Or.inl hfailed
        · exact Or.inr (Or.inl hfailed)
      · rw [hrun] at h
        rcases restoreWithoutForeignKeys_error h with ⟨hoff, rfl⟩ | ⟨hoff, hfalse, _⟩
        · exact iff_of_true ⟨rfl, hkeys⟩ (Or.inr (Or.inr (Or.inr (Or.inr (Or.inr hoff)))))
        · refine iff_of_false ?_ ?_
          · rintro ⟨_, htrue⟩
            rw [hfalse] at htrue
            cases htrue
          · rintro (hzero | hlarge | ⟨e', herror⟩ | hfailed | hfailed | hfailed)
            · exact hversion.1 hzero
            · exact hversion.2 hlarge
            · cases herror
            · exact htracked hfailed
            · exact happlied hfailed
            · exact hoff hfailed

/-! ### A small database -/

/-- Rows of tables. -/
abbrev SmallDb := List (String × Row)

def columnOf (column : String) (row : Row) : Option SqlValue := (row.find? fun c => c.1 == column.toList).map (·.2)

/-- The table has a row with the id. -/
def SmallDb.has (db : SmallDb) (table : String) (id : Option SqlValue) : Bool :=
  db.any fun entry => entry.1 == table && columnOf "id" entry.2 == id

/-- Ids are unique, and an account needs its provider. -/
def SmallDb.insert (foreignKeys : Bool) (table : String) (row : Row) (db : SmallDb) : Except Text SmallDb :=
  if db.has table (columnOf "id" row) then .error ("UNIQUE constraint failed: ".toList ++ table.toList ++ ".id".toList)
  else if foreignKeys && table == "accounts" && !db.has "providers" (columnOf "provider_id" row) then
    .error "FOREIGN KEY constraint failed".toList
  else .ok (db ++ [(table, row)])

/-- SQLite with the tables of providers and accounts. -/
def smallSqlite : Sqlite SmallDb where
  execute foreignKeys statement db :=
    match statement with
    | .delete table => .ok (db.filter fun entry => entry.1 != table)
    | .insert table row => db.insert foreignKeys table row
    | .insertOrIgnore table row => .ok ((db.insert foreignKeys table row).toOption.getD db)
    | _ => .ok db
  prepareInsert _ _ := .ok ()
  tableColumns _ _ := .ok []
  proxyExists _ _ := false
  prepareCheck _ := .ok ()
  foreignKeyCheck _ := .ok []
  pragma _ _ := .ok ()
  beginImmediate _ := .ok ()
  commit _ := .ok ()
  migrations := [⟨1, false⟩]
  appliedVersions _ := .ok [1]
  applyMigrationBatch _ _ db := .ok db

theorem atLatestSchema_smallSqlite (db : SmallDb) : AtLatestSchema smallSqlite db := by
  refine ⟨fun _ rows' h => ?_, fun versions h m hm => ?_⟩
  · cases h
    rfl
  · cases h
    rw [List.mem_singleton.mp hm]
    exact List.mem_singleton_self _

/-- A bundle that is not encrypted is not decrypted. -/
def noCrypto : Crypto := ⟨fun _ => .ok [], fun _ _ _ _ => [], fun _ _ _ => none, fun _ => .error [], 0⟩

def bundleOf (version : Nat) (payload : BackupPayload) : BackupBundle :=
  ⟨version, false, none, none, none, none, none, some payload⟩

def sentinel : SmallDb := [("providers", [("id".toList, .text "sentinel".toList)])]

/-- A bundle of a version that is not known changes nothing. -/
theorem unknownVersion_unchanged :
    let conn : Connection SmallDb := ⟨sentinel, true⟩
    let (_, conn') := restoreBackup smallSqlite noCrypto (fun _ => .ok []) (bundleOf 3 {}) none none conn
    conn'.rows = conn.rows ∧ conn'.foreignKeys = true := by
  have hkeys : (⟨sentinel, true⟩ : Connection SmallDb).foreignKeys = true := rfl
  have hlarge : backupFormatVersion + 1 < (bundleOf 3 {}).version := by decide
  have hfails : restoreBackup smallSqlite noCrypto (fun _ => .ok []) (bundleOf 3 {}) none none ⟨sentinel, true⟩ =
      (.error (.validation "Unsupported backup format version: 3. Expected <= 1".toList), ⟨sentinel, true⟩) := rfl
  exact (unchanged_iff (atLatestSchema_smallSqlite sentinel) hkeys hfails).mpr (Or.inr (Or.inl hlarge))

def duplicate : BackupProvider := ⟨"dup_prov".toList, none, [], []⟩

/-- An account of a provider that does not exist. -/
def strayAccount : Statement := .insert "accounts" [("id".toList, .integer 1), ("provider_id".toList, .text "none".toList)]

/-- A bundle with a provider twice is refused, and then an account without a provider is accepted. -/
theorem not_unchanged :
    let conn : Connection SmallDb := ⟨sentinel, true⟩
    let (result, conn') := restoreBackup smallSqlite noCrypto (fun _ => .ok [])
      (bundleOf 1 { providers := [duplicate, duplicate] }) none none conn
    AtLatestSchema smallSqlite conn.rows ∧
      result.toOption.isNone ∧ conn'.rows = conn.rows ∧ ¬ conn'.foreignKeys = true ∧
      (smallSqlite.execute conn.foreignKeys strayAccount conn.rows).toOption.isNone ∧
      (smallSqlite.execute conn'.foreignKeys strayAccount conn'.rows).toOption.isSome := by
  refine ⟨atLatestSchema_smallSqlite sentinel, ?_⟩
  decide +kernel

end OpenProxy.Backup
