import OpenProxy.Routing.Database

/-!
# Routing by the snapshot

The in-memory snapshot of the routing tables: `build` fills its maps from the rows at one time, and
`resolveWithOptionsSnap` answers from the maps at a later time.

The maps return the rows that the queries find, except for a model name that several providers have.  The targets of a
combo are described for both paths as selections from one list, the targets of the database in the order of the queries
(`sortedTargets`).
-/

namespace OpenProxy.Routing

/-- `TargetRow`: a target with the columns that its filter needs. -/
structure TargetRow where
  target : ComboTarget
  cooldownUntil : Option Text
  modelCooldownUntil : Option Text
  modelActive : Bool
  providerActive : Bool

/-- `ModelRowIdProvider`. -/
structure ModelRowIdProvider where
  rowId : Int
  providerId : Text
  deriving DecidableEq

/-- `RoutingSnapshot`. -/
structure RoutingSnapshot where
  modelsByName : Table Text ModelRowIdProvider
  modelsByProviderName : Table (Text × Text) ModelRowIdProvider
  providers : Table Text (Bool × RateLimitScope)
  /-- From account ids to their providers. -/
  accounts : Table Int Text
  combosByName : Table Text Combo
  comboTargets : Table Int (List TargetRow)

/-! ### Building -/

namespace Database

/-- `SELECT ... FROM models WHERE active = 1 ORDER BY id ASC`. -/
def activeModels (db : Database) : List ModelRow := (db.models.filter (·.active)).insertionSort byId

/-- `ORDER BY ct.combo_id, ct.priority_order ASC, ct.id ASC`. -/
def byComboAndPriority (a b : JoinedRow) : Prop :=
  a.ct.comboId < b.ct.comboId ∨ a.ct.comboId = b.ct.comboId ∧ byPriority a b

instance : DecidableRel byComboAndPriority := fun _ _ => inferInstanceAs (Decidable (_ ∨ _))

/-- `ORDER BY id` on combos. -/
def comboById (a b : Combo) : Prop := a.id ≤ b.id

instance : DecidableRel comboById := fun a b => inferInstanceAs (Decidable (a.id ≤ b.id))

/-- `list_combos`. -/
def listCombos (db : Database) : List Combo := db.combos.insertionSort comboById

end Database

/-- The row that the target query of `build` decodes.  Its column 17 is `tc.cooldown_until`. -/
def buildTargetRow (providers : Table Text (Bool × RateLimitScope)) (r : Database.JoinedRow) : TargetRow :=
  let cooldownUntil := r.tc.map fun tc => tc.cooldownUntil.toRfc3339
  let target := rowToTarget r.ct r.p.rateLimitScope cooldownUntil
  { target := target
    cooldownUntil := cooldownUntil
    modelCooldownUntil := r.modelCooldownUntil
    modelActive := r.m.any (·.active)
    providerActive := ((providers.lookup target.providerId).map (·.1)).getD false }

/-- `build`, at the time `now`. -/
def build (db : Database) (now : Timestamp) : RoutingSnapshot :=
  let entry (m : ModelRow) : ModelRowIdProvider := ⟨m.id, m.providerId⟩
  let providers : Table Text (Bool × RateLimitScope) :=
    db.providers.foldl (fun t p => t.insert p.id (p.active, p.rateLimitScope)) ∅
  { modelsByName := db.activeModels.foldl (fun t m => t.orInsert m.modelId (entry m)) ∅
    modelsByProviderName :=
      db.activeModels.foldl (fun t m => t.orInsert (m.providerId, m.modelId) (entry m)) ∅
    providers := providers
    accounts := db.accounts.foldl (fun t a => t.insert a.id a.providerId) ∅
    combosByName := db.listCombos.foldl (fun t c => t.insert c.name c) ∅
    comboTargets := ((db.joinTargets now).insertionSort Database.byComboAndPriority).foldl
      (fun t r => t.push (buildTargetRow providers r).target.comboId (buildTargetRow providers r)) ∅ }

/-! ### Resolution -/

/-- `target_row_active`, with the text of the current time. -/
def targetRowActive (r : TargetRow) (now : Text) : Bool :=
  if !r.target.active || !r.providerActive then false
  else if r.target.modelRowId.isNone && r.target.subComboId.isNone then false
  else if r.target.modelRowId.isSome && !r.modelActive then false
  else if r.cooldownUntil.any fun c => textLt now c then false
  else if r.modelCooldownUntil.isSome then false
  else true

namespace RoutingSnapshot

/-- `strip_prefix`. -/
def stripPrefix (snap : RoutingSnapshot) (modelStr : Text) : Text × Option Text :=
  if "combo:".toList.isPrefixOf modelStr then (modelStr, none)
  else
    match splitOnce '/' modelStr with
    | none => (modelStr, none)
    | some (pre, rest) =>
      if pre.isEmpty then (modelStr, none)
      else if (snap.providers.lookup pre).isSome then (rest, some pre)
      else (modelStr, none)

/-- `try_resolve_direct`. -/
def tryResolveDirect (snap : RoutingSnapshot) (modelId : Text) (providerPrefix : Option Text)
    (accountOverride : Option Int) : Option RoutingPlan :=
  let model := match providerPrefix with
    | some pre => snap.modelsByProviderName.lookup (pre, modelId)
    | none => snap.modelsByName.lookup modelId
  model.bind fun model =>
    let (active, scope) := (snap.providers.lookup model.providerId).getD (false, .account)
    if active then
      let accountId := accountOverride.bind fun aid =>
        match snap.accounts.lookup aid with
        | some prov => if prov = model.providerId then some aid else none
        | none => none
      some (directPlan model.providerId accountId model.rowId scope)
    else none

/-- `pin_account`. -/
def pinAccount (snap : RoutingSnapshot) (targets : List ComboTarget) (aid : Int) : List ComboTarget :=
  match snap.accounts.lookup aid with
  | none => targets
  | some prov => pinTargets prov targets aid

/-- The targets of a combo that `resolve_with_options_snap` selects at the time `now`. -/
def selectTargets (snap : RoutingSnapshot) (now : Timestamp) (comboId : Int) : List ComboTarget :=
  (((snap.comboTargets.lookup comboId).getD []).filter fun r => targetRowActive r now.nowStr).map (·.target)

/-- `resolve_with_options_snap`, at the time `now`. -/
def resolveWithOptionsSnap (snap : RoutingSnapshot) (now : Timestamp) (modelStr : Text)
    (providerOverride : Option Text) (accountOverride : Option Int) : RoutingPlan :=
  let (stripped, providerPrefix) := snap.stripPrefix modelStr
  let providerPrefix := providerPrefix.or providerOverride
  match snap.tryResolveDirect stripped providerPrefix accountOverride with
  | some plan => plan
  | none =>
    match snap.combosByName.lookup (comboNameOf stripped) with
    | some combo =>
      let targets := snap.selectTargets now combo.id
      let targets := match accountOverride with
        | some aid => snap.pinAccount targets aid
        | none => targets
      .combo combo.id combo.name combo.strategy combo.raceSize targets
    | none => notFoundPlan modelStr stripped

end RoutingSnapshot

namespace Database

/-! ### Orders -/

theorem byId_total (a b : ModelRow) : byId a b ∨ byId b a := by
  unfold byId
  omega

theorem byId_trans (a b c : ModelRow) : byId a b → byId b c → byId a c := by
  unfold byId
  omega

theorem byId_antisymm (db : Database) : ∀ a ∈ db.models, ∀ b ∈ db.models, byId a b → byId b a → a = b := by
  intro a ha b hb hab hba
  unfold byId at hab hba
  exact List.inj_on_of_nodup_map db.model_ids ha hb (by omega)

/-- The order of the target queries, on the rows of `combo_targets` themselves. -/
def targetByPriority (a b : ComboTargetRow) : Prop :=
  a.priorityOrder < b.priorityOrder ∨ a.priorityOrder = b.priorityOrder ∧ a.id ≤ b.id

instance : DecidableRel targetByPriority := fun _ _ => inferInstanceAs (Decidable (_ ∨ _))

/-- The rows of `combo_targets` in the order of the target queries. -/
def sortedTargets (db : Database) : List ComboTargetRow := db.comboTargets.insertionSort targetByPriority

theorem mem_sortedTargets {db : Database} {ct : ComboTargetRow} : ct ∈ db.sortedTargets ↔ ct ∈ db.comboTargets :=
  (List.perm_insertionSort targetByPriority db.comboTargets).mem_iff

theorem sortedTargets_nodup (db : Database) : (db.sortedTargets.map (·.id)).Nodup :=
  ((List.perm_insertionSort targetByPriority db.comboTargets).map _).nodup_iff.mpr db.target_ids

private theorem targetByPriority_total (a b : ComboTargetRow) : targetByPriority a b ∨ targetByPriority b a := by
  unfold targetByPriority
  omega

private theorem targetByPriority_trans (a b c : ComboTargetRow) :
    targetByPriority a b → targetByPriority b c → targetByPriority a c := by
  unfold targetByPriority
  omega

private theorem byPriority_total (a b : JoinedRow) : byPriority a b ∨ byPriority b a := by
  unfold byPriority
  omega

private theorem byPriority_trans (a b c : JoinedRow) : byPriority a b → byPriority b c → byPriority a c := by
  unfold byPriority
  omega

private theorem byComboAndPriority_total (a b : JoinedRow) : byComboAndPriority a b ∨ byComboAndPriority b a := by
  unfold byComboAndPriority byPriority
  omega

private theorem byComboAndPriority_trans (a b c : JoinedRow) :
    byComboAndPriority a b → byComboAndPriority b c → byComboAndPriority a c := by
  unfold byComboAndPriority byPriority
  omega

/-! ### The join -/

/-- The joined row of a target. -/
def joinRow (db : Database) (now : Timestamp) (ct : ComboTargetRow) : Option JoinedRow :=
  (db.providers.find? fun p => p.id = ct.providerId).map fun p =>
    { ct := ct
      p := p
      tc := db.targetCooldowns.find? fun tc => tc.comboTargetId = ct.id
      m := ct.modelRowId.bind fun r => db.models.find? fun m => m.id = r
      modelCooldownUntil := ct.modelRowId.bind fun r =>
        maxText ((db.liveModelCooldowns now r).map fun tc => tc.cooldownUntil.toRfc3339) }

theorem joinTargets_eq (db : Database) (now : Timestamp) :
    db.joinTargets now = db.comboTargets.filterMap (db.joinRow now) := rfl

theorem joinRow_ct {db : Database} {now : Timestamp} {ct : ComboTargetRow} {r : JoinedRow}
    (h : db.joinRow now ct = some r) : r.ct = ct := by
  simp only [joinRow, Option.map_eq_some_iff] at h
  obtain ⟨p, -, rfl⟩ := h
  rfl

private theorem joinTargets_antisymm (db : Database) (now : Timestamp) :
    ∀ x ∈ db.joinTargets now, ∀ y ∈ db.joinTargets now, byPriority x y → byPriority y x → x = y := by
  intro x hx y hy hxy hyx
  rw [joinTargets_eq, List.mem_filterMap] at hx hy
  obtain ⟨a, ha, hax⟩ := hx
  obtain ⟨b, hb, hby⟩ := hy
  have hid : a.id = b.id := by
    rw [← joinRow_ct hax, ← joinRow_ct hby]
    unfold byPriority at hxy hyx
    omega
  have hab := List.inj_on_of_nodup_map db.target_ids ha hb hid
  subst hab
  rw [hax] at hby
  exact Option.some.inj hby

/-- Selecting and ordering joined rows is selecting from the ordered targets. -/
private theorem sort_filter_joinTargets (db : Database) (now : Timestamp) (p : JoinedRow → Bool) :
    ((db.joinTargets now).filter p).insertionSort byPriority =
      db.sortedTargets.filterMap fun ct => (db.joinRow now ct).filter p := by
  have heq : (db.joinTargets now).filter p = db.comboTargets.filterMap fun ct => (db.joinRow now ct).filter p := by
    rw [joinTargets_eq, List.filter_filterMap]
  rw [heq]
  refine insertionSort_filterMap (r := targetByPriority) _ targetByPriority_total targetByPriority_trans
    byPriority_total byPriority_trans ?_ ?_
  · intro a b x y hx hy hab
    simp only [Option.filter_eq_some_iff] at hx hy
    unfold byPriority
    rw [joinRow_ct hx.1, joinRow_ct hy.1]
    exact hab
  · rw [← heq]
    intro x hx y hy
    exact joinTargets_antisymm db now x (List.mem_filter.mp hx).1 y (List.mem_filter.mp hy).1

/-- What `list_targets` makes of a target: nothing when it is not selected. -/
def sqlTarget (db : Database) (now : Timestamp) (comboId : Int) (ct : ComboTargetRow) : Option ComboTarget :=
  ((db.joinRow now ct).filter fun r => decide (r.ct.comboId = comboId) && (r.eligible && r.cooled now)).map fun r =>
    rowToTarget r.ct r.p.rateLimitScope r.ct.clientProfile

theorem listTargets_eq (db : Database) (now : Timestamp) (comboId : Int) :
    db.listTargets now comboId = db.sortedTargets.filterMap (db.sqlTarget now comboId) := by
  unfold listTargets
  rw [sort_filter_joinTargets, List.map_filterMap]
  rfl

end Database

/-! ### Lookups -/

theorem build_providers (db : Database) (now : Timestamp) (id : Text) :
    (build db now).providers.lookup id =
      (db.providers.find? fun p => p.id = id).map fun p => (p.active, p.rateLimitScope) := by
  have := Table.lookup_foldl_insert (fun p : ProviderRow => p.id) (fun p => (p.active, p.rateLimitScope)) db.providers
    db.provider_ids ∅ id
  simpa [build] using this

theorem build_accounts (db : Database) (now : Timestamp) (aid : Int) :
    (build db now).accounts.lookup aid = (db.accounts.find? fun a => a.id = aid).map (·.providerId) := by
  have := Table.lookup_foldl_insert (fun a : AccountRow => a.id) (fun a => a.providerId) db.accounts db.account_ids ∅ aid
  simpa [build] using this

theorem build_combosByName (db : Database) (now : Timestamp) (name : Text) :
    (build db now).combosByName.lookup name = db.combos.find? fun c => c.name = name := by
  have hperm : db.listCombos.Perm db.combos := List.perm_insertionSort _ _
  have hnodup : (db.listCombos.map (·.name)).Nodup := (hperm.map _).nodup_iff.mpr db.combo_names
  have := Table.lookup_foldl_insert (fun c : Combo => c.name) (fun c => c) db.listCombos hnodup ∅ name
  rw [find?_key_perm (fun c : Combo => c.name) hperm db.combo_names] at this
  simpa [build] using this

theorem build_modelsByName (db : Database) (now : Timestamp) (name : Text) :
    (build db now).modelsByName.lookup name =
      (db.activeModels.find? fun m => m.modelId = name).map fun m => ⟨m.id, m.providerId⟩ := by
  have := Table.lookup_foldl_orInsert (fun m : ModelRow => m.modelId)
    (fun m => (⟨m.id, m.providerId⟩ : ModelRowIdProvider)) db.activeModels ∅ name
  simpa [build] using this

theorem build_modelsByProviderName (db : Database) (now : Timestamp) (prov name : Text) :
    (build db now).modelsByProviderName.lookup (prov, name) =
      (db.activeModels.find? fun m => (m.providerId, m.modelId) = (prov, name)).map fun m => ⟨m.id, m.providerId⟩ := by
  have := Table.lookup_foldl_orInsert (fun m : ModelRow => (m.providerId, m.modelId))
    (fun m => (⟨m.id, m.providerId⟩ : ModelRowIdProvider)) db.activeModels ∅ (prov, name)
  simpa [build] using this

/-! ### The targets of a combo -/

namespace Database

/-- What the snapshot makes of a target: nothing when it is not selected. -/
def snapTarget (db : Database) (t₀ now : Timestamp) (comboId : Int) (ct : ComboTargetRow) : Option ComboTarget :=
  ((db.joinRow t₀ ct).filter fun r => decide (r.ct.comboId = comboId) &&
    targetRowActive (buildTargetRow (build db t₀).providers r) now.nowStr).map fun r =>
      (buildTargetRow (build db t₀).providers r).target

theorem selectTargets_eq (db : Database) (t₀ now : Timestamp) (comboId : Int) :
    (build db t₀).selectTargets now comboId = db.sortedTargets.filterMap (db.snapTarget t₀ now comboId) := by
  have hpush := Table.lookup_foldl_push (fun r : JoinedRow => r.ct.comboId)
    (fun r => buildTargetRow (build db t₀).providers r) ((db.joinTargets t₀).insertionSort byComboAndPriority) ∅ comboId
  have hlookup : ((build db t₀).comboTargets.lookup comboId).getD [] =
      (((db.joinTargets t₀).insertionSort byComboAndPriority).filter fun r => r.ct.comboId = comboId).map
        fun r => buildTargetRow (build db t₀).providers r := by
    rw [AList.lookup_empty, Option.getD_none, List.nil_append] at hpush
    exact hpush
  have hsort : (((db.joinTargets t₀).insertionSort byComboAndPriority).filter fun r => r.ct.comboId = comboId) =
      ((db.joinTargets t₀).filter fun r => r.ct.comboId = comboId).insertionSort byPriority := by
    refine filter_insertionSort _ byComboAndPriority_total byComboAndPriority_trans byPriority_total byPriority_trans
      ?_ ?_
    · intro a b ha hb hab
      unfold byComboAndPriority at hab
      simp only [decide_eq_true_eq] at ha hb
      rcases hab with hlt | ⟨-, h⟩
      · omega
      · exact h
    · exact joinTargets_antisymm db t₀
  unfold RoutingSnapshot.selectTargets
  rw [hlookup, hsort, sort_filter_joinTargets, List.filter_map, List.filter_filterMap, List.map_map, List.map_filterMap]
  apply List.filterMap_congr
  intro ct _
  unfold snapTarget
  rw [Option.filter_filter]
  rfl

end Database

end OpenProxy.Routing
