import OpenProxy.Routing.Time
import OpenProxy.Data.Table

/-!
# The database, and routing by SQL

The rows of the tables that routing reads, and `resolve_with_options`, which turns a model string into a routing plan
by queries on them.  A query is the relational lookup it spells.  A cell holds a value of the type it is decoded to;
the text columns that are compared or parsed on the way (the time of a cooldown, the client profile of a target) hold
their text.
-/

namespace OpenProxy.Routing

/-! ### Rows -/

inductive RateLimitScope
  | account
  | model
  deriving DecidableEq, Repr

inductive Strategy
  | priority
  | roundRobin
  | shuffle
  deriving DecidableEq, Repr

inductive CooldownMode
  | flat
  | exponential
  | none
  deriving DecidableEq, Repr

inductive ClientProfile
  | claudeCode
  | codex
  | cline
  | kilocode
  | kiro
  | minimax
  | commandCode
  | codeBuddy
  | opencode
  | antigravity
  deriving DecidableEq, Repr

namespace ClientProfile

/-- The spellings of each profile. -/
def spellings : List (Text × ClientProfile) :=
  [("claude-code".toList, claudeCode), ("claude".toList, claudeCode), ("claudecode".toList, claudeCode),
    ("codex".toList, codex), ("cline".toList, cline), ("kilocode".toList, kilocode), ("kiro".toList, kiro),
    ("minimax".toList, minimax), ("commandcode".toList, commandCode), ("cmd".toList, commandCode),
    ("command-code".toList, commandCode), ("codebuddy".toList, codeBuddy), ("code-buddy".toList, codeBuddy),
    ("opencode".toList, opencode), ("antigravity".toList, antigravity)]

/-- `ClientProfile::from_str`, with `none` for an unknown profile. -/
def fromStr (s : Text) : Option ClientProfile :=
  let normalized := (lower (trim s)).map fun c => if c = '_' then '-' else c
  (spellings.find? fun entry => entry.1 = normalized).map (·.2)

end ClientProfile

structure ProviderRow where
  id : Text
  active : Bool
  rateLimitScope : RateLimitScope
  deriving DecidableEq, Repr

structure ModelRow where
  id : Int
  providerId : Text
  modelId : Text
  active : Bool
  deriving DecidableEq, Repr

structure AccountRow where
  id : Int
  providerId : Text
  deriving DecidableEq, Repr

/-- The columns of a combo that a routing plan has. -/
structure Combo where
  id : Int
  name : Text
  strategy : Strategy
  raceSize : Nat
  deriving DecidableEq, Repr

structure ComboTargetRow where
  id : Int
  comboId : Int
  providerId : Text
  accountId : Option Int
  modelRowId : Option Int
  subComboId : Option Int
  priorityOrder : Int
  weight : Int
  active : Bool
  cooldownMode : Option CooldownMode
  cooldownBaseSecs : Option Nat
  cooldownMaxSecs : Option Nat
  cooldownFactor : Option Nat
  thinkingEffort : Option Text
  description : Option Text
  selectedAccounts : Option (List Int)
  clientProfile : Option Text
  deriving DecidableEq, Repr

/-- A row of `target_cooldowns`; `cooldown_until` holds the text `toRfc3339` of the time. -/
structure TargetCooldownRow where
  comboTargetId : Int
  cooldownUntil : Timestamp
  deriving DecidableEq

/-- The tables, with their keys and the foreign keys between them. -/
structure Database where
  providers : List ProviderRow
  models : List ModelRow
  accounts : List AccountRow
  combos : List Combo
  comboTargets : List ComboTargetRow
  targetCooldowns : List TargetCooldownRow
  provider_ids : (providers.map (·.id)).Nodup
  model_ids : (models.map (·.id)).Nodup
  account_ids : (accounts.map (·.id)).Nodup
  combo_ids : (combos.map (·.id)).Nodup
  combo_names : (combos.map (·.name)).Nodup
  /-- Row ids are assigned by the database. -/
  combo_ids_pos : ∀ c ∈ combos, 0 < c.id
  target_ids : (comboTargets.map (·.id)).Nodup
  cooldown_targets : (targetCooldowns.map (·.comboTargetId)).Nodup
  model_provider : ∀ m ∈ models, m.providerId ∈ providers.map (·.id)
  account_provider : ∀ a ∈ accounts, a.providerId ∈ providers.map (·.id)
  target_combo : ∀ ct ∈ comboTargets, ct.comboId ∈ combos.map (·.id)
  target_provider : ∀ ct ∈ comboTargets, ct.providerId ∈ providers.map (·.id)
  target_account : ∀ ct ∈ comboTargets, ∀ a ∈ ct.accountId, a ∈ accounts.map (·.id)
  target_model : ∀ ct ∈ comboTargets, ∀ m ∈ ct.modelRowId, m ∈ models.map (·.id)
  target_sub_combo : ∀ ct ∈ comboTargets, ∀ c ∈ ct.subComboId, c ∈ combos.map (·.id)
  cooldown_target : ∀ tc ∈ targetCooldowns, tc.comboTargetId ∈ comboTargets.map (·.id)

/-! ### Plans -/

/-- `ComboTarget`. -/
structure ComboTarget where
  id : Int
  comboId : Int
  providerId : Text
  accountId : Option Int
  modelRowId : Option Int
  subComboId : Option Int
  priorityOrder : Int
  weight : Int
  active : Bool
  rateLimitScope : RateLimitScope
  cooldownMode : Option CooldownMode
  cooldownBaseSecs : Option Nat
  cooldownMaxSecs : Option Nat
  cooldownFactor : Option Nat
  thinkingEffort : Option Text
  description : Option Text
  selectedAccounts : Option (List Int)
  clientProfile : Option ClientProfile
  inheritedTargetId : Option Int
  deriving DecidableEq, Repr

/-- `RoutingPlan`. -/
inductive RoutingPlan
  | combo (comboId : Int) (comboName : Text) (strategy : Strategy) (raceSize : Nat) (targets : List ComboTarget)
  | notFound (model : Text) (hint : Option Text)
  deriving DecidableEq, Repr

/-- `SYNTHETIC_COMBO_ID`. -/
def syntheticComboId : Int := -1

/-- `SYNTHETIC_COMBO_NAME`. -/
def syntheticComboName : Text := "__direct__".toList

/-- `build_synthetic_combo`: the combo with a single target for a model that is addressed directly. -/
def buildSyntheticCombo (providerId : Text) (accountId : Option Int) (modelRowId : Int)
    (rateLimitScope : RateLimitScope) : Combo × List ComboTarget :=
  let target : ComboTarget :=
    { id := 0, comboId := syntheticComboId, providerId := providerId, accountId := accountId
      modelRowId := some modelRowId, subComboId := none, priorityOrder := 0, weight := 1, active := true
      rateLimitScope := rateLimitScope, cooldownMode := none, cooldownBaseSecs := none, cooldownMaxSecs := none
      cooldownFactor := none, thinkingEffort := none, description := none, selectedAccounts := none
      clientProfile := none, inheritedTargetId := none }
  ({ id := syntheticComboId, name := syntheticComboName, strategy := .priority, raceSize := 1 }, [target])

/-- `row_to_target`: the columns 0 to 16 of a target and its provider, and column 17 of the query. -/
def rowToTarget (ct : ComboTargetRow) (rateLimitScope : RateLimitScope) (column17 : Option Text) : ComboTarget :=
  { id := ct.id, comboId := ct.comboId, providerId := ct.providerId, accountId := ct.accountId
    modelRowId := ct.modelRowId, subComboId := ct.subComboId, priorityOrder := ct.priorityOrder, weight := ct.weight
    active := ct.active, rateLimitScope := rateLimitScope, cooldownMode := ct.cooldownMode
    cooldownBaseSecs := ct.cooldownBaseSecs, cooldownMaxSecs := ct.cooldownMaxSecs
    cooldownFactor := ct.cooldownFactor, thinkingEffort := ct.thinkingEffort, description := ct.description
    selectedAccounts := ct.selectedAccounts, clientProfile := column17.bind ClientProfile.fromStr
    inheritedTargetId := none }

/-! ### Queries -/

namespace Database

/-- `MAX` of a text column. -/
def maxText : List Text → Option Text
  | [] => none
  | s :: rest => some (rest.foldl (fun a b => if textLt a b then b else a) s)

/-- The rows of `target_cooldowns` for targets of a model that lie in the future. -/
def liveModelCooldowns (db : Database) (now : Timestamp) (modelRowId : Int) : List TargetCooldownRow :=
  db.targetCooldowns.filter fun tc => tc.cooldownUntil.datetimeGt now &&
    db.comboTargets.any fun ct => ct.id = tc.comboTargetId && ct.modelRowId = some modelRowId

/-- A target with what the joins of the target queries add to it. -/
structure JoinedRow where
  ct : ComboTargetRow
  p : ProviderRow
  tc : Option TargetCooldownRow
  m : Option ModelRow
  modelCooldownUntil : Option Text

/-- The joins of the target queries at a time. -/
def joinTargets (db : Database) (now : Timestamp) : List JoinedRow :=
  db.comboTargets.filterMap fun ct => (db.providers.find? fun p => p.id = ct.providerId).map fun p =>
    { ct := ct
      p := p
      tc := db.targetCooldowns.find? fun tc => tc.comboTargetId = ct.id
      m := ct.modelRowId.bind fun r => db.models.find? fun m => m.id = r
      modelCooldownUntil := ct.modelRowId.bind fun r =>
        maxText ((db.liveModelCooldowns now r).map fun tc => tc.cooldownUntil.toRfc3339) }

/-- `ORDER BY ct.priority_order ASC, ct.id ASC`. -/
def byPriority (a b : JoinedRow) : Prop :=
  a.ct.priorityOrder < b.ct.priorityOrder ∨ a.ct.priorityOrder = b.ct.priorityOrder ∧ a.ct.id ≤ b.ct.id

instance : DecidableRel byPriority := fun _ _ => inferInstanceAs (Decidable (_ ∨ _))

/-- The conditions of `list_targets` on a target, its provider and its model. -/
def JoinedRow.eligible (r : JoinedRow) : Bool :=
  r.p.active && r.ct.active && (r.ct.modelRowId.isNone || r.m.any (·.active)) &&
    !(r.ct.modelRowId.isNone && r.ct.subComboId.isNone)

/-- Its conditions on the cooldowns. -/
def JoinedRow.cooled (now : Timestamp) (r : JoinedRow) : Bool :=
  (r.tc.isNone || r.tc.any fun tc => tc.cooldownUntil.datetimeLe now) && r.modelCooldownUntil.isNone

/-- `list_targets`. -/
def listTargets (db : Database) (now : Timestamp) (comboId : Int) : List ComboTarget :=
  (((db.joinTargets now).filter fun r => decide (r.ct.comboId = comboId) && (r.eligible && r.cooled now)).insertionSort
    byPriority).map fun r => rowToTarget r.ct r.p.rateLimitScope r.ct.clientProfile

/-- `ORDER BY id ASC` on models. -/
def byId (a b : ModelRow) : Prop := a.id ≤ b.id

instance : DecidableRel byId := fun a b => inferInstanceAs (Decidable (a.id ≤ b.id))

/-- `provider_id IN (SELECT id FROM providers WHERE active = 1)`. -/
def providerActive (db : Database) (providerId : Text) : Bool :=
  db.providers.any fun p => decide (p.id = providerId) && p.active

/-- `find_active_by_name`. -/
def findActiveByName (db : Database) (modelId : Text) : Option ModelRow :=
  ((db.models.filter fun m => decide (m.modelId = modelId) && m.active && db.providerActive m.providerId).insertionSort
    byId).head?

/-- `find_active_by_provider_and_name`. -/
def findActiveByProviderAndName (db : Database) (providerId modelId : Text) : Option ModelRow :=
  ((db.models.filter fun m => decide (m.providerId = providerId) && decide (m.modelId = modelId) && m.active &&
    db.providerActive m.providerId).insertionSort byId).head?

/-- `strip_proxy_prefix`: the prefix before the first slash when it is the id of a provider. -/
def stripProxyPrefix (db : Database) (modelStr : Text) : Text × Option Text :=
  if "combo:".toList.isPrefixOf modelStr then (modelStr, none)
  else
    match splitOnce '/' modelStr with
    | none => (modelStr, none)
    | some (pre, rest) =>
      if pre.isEmpty then (modelStr, none)
      else if db.providers.any fun p => p.id = pre then (rest, some pre)
      else (modelStr, none)

/-- `provider_active_and_scope`. -/
def providerActiveAndScope (db : Database) (providerId : Text) : Bool × RateLimitScope :=
  match db.providers.find? fun p => p.id = providerId with
  | some p => (p.active, p.rateLimitScope)
  | none => (false, .account)

/-! ### Resolution -/

end Database

/-- The plan for a model that is addressed directly. -/
def directPlan (providerId : Text) (accountId : Option Int) (modelRowId : Int) (scope : RateLimitScope) : RoutingPlan :=
  let (combo, targets) := buildSyntheticCombo providerId accountId modelRowId scope
  .combo combo.id combo.name combo.strategy combo.raceSize targets

/-- The body that `pin_account_to_targets` and `pin_account` share: targets of the provider of the account get the
account, and other targets are dropped unless they are combos. -/
def pinTargets (prov : Text) (targets : List ComboTarget) (aid : Int) : List ComboTarget :=
  if targets.any fun t => t.providerId = prov then
    (targets.map fun t => if t.providerId = prov then { t with accountId := some aid } else t).filter fun t =>
      decide (t.providerId = prov) || t.subComboId.isSome
  else targets

namespace Database

/-- `try_resolve_direct_model`. -/
def tryResolveDirectModel (db : Database) (modelId : Text) (providerPrefix : Option Text)
    (accountOverride : Option Int) : Option RoutingPlan :=
  let model := match providerPrefix with
    | some pre => db.findActiveByProviderAndName pre modelId
    | none => db.findActiveByName modelId
  model.bind fun model =>
    let (active, scope) := db.providerActiveAndScope model.providerId
    if active then
      let accountId := accountOverride.bind fun aid =>
        if db.accounts.any fun a => decide (a.id = aid) && decide (a.providerId = model.providerId) then some aid
        else none
      some (directPlan model.providerId accountId model.id scope)
    else none

/-- `pin_account_to_targets`. -/
def pinAccountToTargets (db : Database) (targets : List ComboTarget) (aid : Int) : List ComboTarget :=
  match db.accounts.find? fun a => a.id = aid with
  | none => targets
  | some a => pinTargets a.providerId targets aid

end Database

/-- The name of the combo that a model string without provider prefix stands for. -/
def comboNameOf (stripped : Text) : Text := (stripPrefix "combo:".toList stripped).getD stripped

/-- The plan when no combo has the name. -/
def notFoundPlan (modelStr stripped : Text) : RoutingPlan :=
  .notFound modelStr (if comboNameOf stripped = stripped then none else some ("combo:".toList ++ comboNameOf stripped))

namespace Database

/-- `resolve_with_options`, at the time `now`. -/
def resolveWithOptions (db : Database) (now : Timestamp) (modelStr : Text) (providerOverride : Option Text)
    (accountOverride : Option Int) : RoutingPlan :=
  let (stripped, providerPrefix) := db.stripProxyPrefix modelStr
  let providerPrefix := providerPrefix.or providerOverride
  match db.tryResolveDirectModel stripped providerPrefix accountOverride with
  | some plan => plan
  | none =>
    match db.combos.find? fun c => c.name = comboNameOf stripped with
    | some combo =>
      let targets := db.listTargets now combo.id
      let targets := match accountOverride with
        | some aid => db.pinAccountToTargets targets aid
        | none => targets
      .combo combo.id combo.name combo.strategy combo.raceSize targets
    | none => notFoundPlan modelStr stripped

end Database

end OpenProxy.Routing
