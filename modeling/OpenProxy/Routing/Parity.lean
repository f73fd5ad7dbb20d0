import OpenProxy.Routing.Expiry

/-!
# Snapshot routing against SQL routing

A snapshot just built from the database, asked at the same instant, against `resolve_with_options`.  The two return the
same plan unless the oldest active model of the name belongs to an inactive provider while another one is routable, or a
target of the combo that the plan would keep has a client profile or a cooldown of its own that ended earlier on the
same day (or lies beyond the year 9999).  `resolve_parity_iff` is the exact statement.
-/

namespace OpenProxy.Routing

namespace Database

/-! ### Models addressed directly -/

/-- The models in the order of their ids. -/
def sortedModels (db : Database) : List ModelRow := db.models.insertionSort byId

private theorem head?_sort_filter (db : Database) (p : ModelRow → Bool) :
    ((db.models.filter p).insertionSort byId).head? = db.sortedModels.find? p := by
  rw [← filter_insertionSort (r := byId) (s := byId) p byId_total byId_trans byId_total byId_trans
    (fun _ _ _ _ h => h) db.byId_antisymm, List.head?_filter]
  rfl

private theorem find?_activeModels (db : Database) (p : ModelRow → Bool) :
    db.activeModels.find? p = db.sortedModels.find? fun m => m.active && p m := by
  unfold activeModels
  rw [← filter_insertionSort (r := byId) (s := byId) _ byId_total byId_trans byId_total byId_trans
    (fun _ _ _ _ h => h) db.byId_antisymm, List.find?_filter]
  simp only [Bool.decide_and, Bool.decide_eq_true]
  rfl

/-- A routable model: it is active, and so is its provider. -/
def routable (db : Database) (m : ModelRow) : Bool := m.active && db.providerActive m.providerId

/-- The model is one of those that a name, with or without a provider, can stand for. -/
def named (modelId : Text) (providerPrefix : Option Text) (m : ModelRow) : Bool :=
  decide (m.modelId = modelId) && providerPrefix.all fun pre => m.providerId = pre

/-- The model that SQL finds. -/
def sqlModel (db : Database) (modelId : Text) (providerPrefix : Option Text) : Option ModelRow :=
  db.sortedModels.find? fun m => named modelId providerPrefix m && db.routable m

/-- The model that the snapshot finds, if its provider is active. -/
def snapModel (db : Database) (modelId : Text) (providerPrefix : Option Text) : Option ModelRow :=
  (db.sortedModels.find? fun m => named modelId providerPrefix m && m.active).filter fun m =>
    db.providerActive m.providerId

/-- The plan for a model that is found. -/
def planOf (db : Database) (accountOverride : Option Int) (m : ModelRow) : RoutingPlan :=
  directPlan m.providerId
    (accountOverride.bind fun aid =>
      if db.accounts.any fun a => decide (a.id = aid) && decide (a.providerId = m.providerId) then some aid else none)
    m.id (db.providerActiveAndScope m.providerId).2

private theorem providerActiveAndScope_fst (db : Database) (id : Text) :
    (db.providerActiveAndScope id).1 = db.providerActive id := by
  unfold providerActiveAndScope
  cases hf : db.providers.find? fun p => p.id = id with
  | none => exact (providerActive_of_none hf).symm
  | some p => exact (providerActive_eq hf).symm

private theorem findActiveByName_eq (db : Database) (modelId : Text) :
    db.findActiveByName modelId = db.sqlModel modelId none := by
  unfold findActiveByName sqlModel named routable
  rw [head?_sort_filter]
  simp [Bool.and_assoc]

private theorem findActiveByProviderAndName_eq (db : Database) (pre modelId : Text) :
    db.findActiveByProviderAndName pre modelId = db.sqlModel modelId (some pre) := by
  unfold findActiveByProviderAndName sqlModel named routable
  rw [head?_sort_filter]
  congr 1
  funext m
  rw [Option.all_some, Bool.and_comm (decide (m.providerId = pre)), Bool.and_assoc]

theorem tryResolveDirectModel_eq (db : Database) (modelId : Text) (providerPrefix : Option Text)
    (accountOverride : Option Int) :
    db.tryResolveDirectModel modelId providerPrefix accountOverride =
      (db.sqlModel modelId providerPrefix).map (db.planOf accountOverride) := by
  have hplan : ∀ m, db.sqlModel modelId providerPrefix = some m →
      (db.providerActiveAndScope m.providerId).1 = true := by
    intro m hm
    have hr := List.find?_some hm
    simp only [routable, Bool.and_eq_true] at hr
    rw [providerActiveAndScope_fst]
    exact hr.2.2
  cases providerPrefix with
  | none =>
    simp only [tryResolveDirectModel, findActiveByName_eq]
    cases hm : db.sqlModel modelId none with
    | none => rfl
    | some m => simp [planOf, hplan m hm]
  | some pre =>
    simp only [tryResolveDirectModel, findActiveByProviderAndName_eq]
    cases hm : db.sqlModel modelId (some pre) with
    | none => rfl
    | some m => simp [planOf, hplan m hm]

/-- The account of a direct plan, as the snapshot finds it. -/
private theorem pinnedAccount_eq (db : Database) (now : Timestamp) (accountOverride : Option Int) (providerId : Text) :
    (accountOverride.bind fun aid =>
      match (build db now).accounts.lookup aid with
      | some prov => if prov = providerId then some aid else none
      | none => none) =
      accountOverride.bind fun aid =>
        if db.accounts.any fun a => decide (a.id = aid) && decide (a.providerId = providerId) then some aid
        else none := by
  cases accountOverride with
  | none => rfl
  | some aid =>
    simp only [Option.bind_some, build_accounts]
    cases hf : db.accounts.find? fun a => a.id = aid with
    | none =>
      rw [List.find?_eq_none] at hf
      rw [if_neg]
      · rfl
      · rw [List.any_eq_true]
        rintro ⟨a, ha, haa⟩
        rw [Bool.and_eq_true] at haa
        exact hf a ha haa.1
    | some a =>
      have ha := (find?_key_eq_some (fun a : AccountRow => a.id) db.account_ids).mp hf
      have hiff : a.providerId = providerId ↔
          (db.accounts.any fun a => decide (a.id = aid) && decide (a.providerId = providerId)) = true := by
        rw [List.any_eq_true]
        constructor
        · intro hp
          exact ⟨a, ha.1, by simp [ha.2, hp]⟩
        · rintro ⟨b, hb, hba⟩
          rw [Bool.and_eq_true, decide_eq_true_eq, decide_eq_true_eq] at hba
          rw [← List.inj_on_of_nodup_map db.account_ids hb ha.1 (hba.1.trans ha.2.symm)]
          exact hba.2
      simp only [Option.map_some, hiff]

private theorem lookup_scope (db : Database) (now : Timestamp) (providerId : Text) :
    ((build db now).providers.lookup providerId).getD (false, .account) = db.providerActiveAndScope providerId := by
  rw [build_providers]
  unfold providerActiveAndScope
  cases db.providers.find? fun p => p.id = providerId <;> rfl

private theorem modelsByName_eq (db : Database) (now : Timestamp) (modelId : Text) :
    (build db now).modelsByName.lookup modelId =
      (db.sortedModels.find? fun m => named modelId none m && m.active).map fun m => ⟨m.id, m.providerId⟩ := by
  rw [build_modelsByName, find?_activeModels]
  simp [named, Bool.and_comm]

private theorem modelsByProviderName_eq (db : Database) (now : Timestamp) (pre modelId : Text) :
    (build db now).modelsByProviderName.lookup (pre, modelId) =
      (db.sortedModels.find? fun m => named modelId (some pre) m && m.active).map fun m => ⟨m.id, m.providerId⟩ := by
  rw [build_modelsByProviderName, find?_activeModels]
  congr 2
  funext m
  simp only [named, Option.all_some, Prod.mk.injEq, Bool.decide_and]
  rw [Bool.and_comm m.active, Bool.and_comm (decide (m.providerId = pre))]

theorem tryResolveDirect_eq (db : Database) (now : Timestamp) (modelId : Text) (providerPrefix : Option Text)
    (accountOverride : Option Int) :
    (build db now).tryResolveDirect modelId providerPrefix accountOverride =
      (db.snapModel modelId providerPrefix).map (db.planOf accountOverride) := by
  have hfst := providerActiveAndScope_fst db
  have hplan := fun m : ModelRow =>
    congrArg (fun account => some (directPlan m.providerId account m.id (db.providerActiveAndScope m.providerId).2))
      (pinnedAccount_eq db now accountOverride m.providerId)
  cases providerPrefix with
  | none =>
    simp only [RoutingSnapshot.tryResolveDirect, snapModel, modelsByName_eq]
    cases db.sortedModels.find? fun m => named modelId none m && m.active with
    | none => rfl
    | some m =>
      simp only [Option.map_some, Option.bind_some, lookup_scope, hfst, Option.filter_some]
      cases db.providerActive m.providerId with
      | false => rfl
      | true => exact hplan m
  | some pre =>
    simp only [RoutingSnapshot.tryResolveDirect, snapModel, modelsByProviderName_eq]
    cases db.sortedModels.find? fun m => named modelId (some pre) m && m.active with
    | none => rfl
    | some m =>
      simp only [Option.map_some, Option.bind_some, lookup_scope, hfst, Option.filter_some]
      cases db.providerActive m.providerId with
      | false => rfl
      | true => exact hplan m

/-- Of the active models that the name can stand for, the one with the lowest id has an active provider, or none has. -/
def OldestRoutable (db : Database) (modelId : Text) (providerPrefix : Option Text) : Prop :=
  ∀ m ∈ db.models, (named modelId providerPrefix m && m.active) = true →
    (∀ m' ∈ db.models, (named modelId providerPrefix m' && m'.active) = true → m.id ≤ m'.id) →
    db.providerActive m.providerId = true ∨
      ∀ m' ∈ db.models, (named modelId providerPrefix m' && db.routable m') = false

/-- No model that the name can stand for is routable. -/
def NoneRoutable (db : Database) (modelId : Text) (providerPrefix : Option Text) : Prop :=
  ∀ m ∈ db.models, (named modelId providerPrefix m && db.routable m) = false

private theorem mem_sortedModels {db : Database} {m : ModelRow} : m ∈ db.sortedModels ↔ m ∈ db.models :=
  (List.perm_insertionSort byId db.models).mem_iff

private theorem sqlModel_eq_none {db : Database} {modelId : Text} {providerPrefix : Option Text} :
    db.sqlModel modelId providerPrefix = none ↔ db.NoneRoutable modelId providerPrefix := by
  simp only [sqlModel, List.find?_eq_none, mem_sortedModels, Bool.not_eq_true]
  rfl

/-- The snapshot finds the model that SQL finds, or else it finds none although SQL finds one. -/
private theorem snapModel_cases (db : Database) (modelId : Text) (providerPrefix : Option Text) :
    db.OldestRoutable modelId providerPrefix ∧ db.snapModel modelId providerPrefix = db.sqlModel modelId providerPrefix ∨
      ¬ db.OldestRoutable modelId providerPrefix ∧ db.snapModel modelId providerPrefix = none ∧
        db.sqlModel modelId providerPrefix ≠ none := by
  have hleast := fun (p : ModelRow → Bool) (m : ModelRow) =>
    find?_insertionSort_eq_some (r := byId) (l := db.models) (p := p) (a := m) byId_total byId_trans db.byId_antisymm
  cases hf : db.sortedModels.find? fun m => named modelId providerPrefix m && m.active with
  | none =>
    rw [List.find?_eq_none] at hf
    have hnone : db.sqlModel modelId providerPrefix = none := by
      rw [sqlModel_eq_none]
      intro m hm
      have := hf m (mem_sortedModels.mpr hm)
      rw [Bool.not_eq_true, Bool.and_eq_false_iff] at this
      unfold routable
      rcases this with h | h
      · simp [h]
      · simp [h]
    refine Or.inl ⟨?_, ?_⟩
    · intro m hm hp _
      exact absurd hp (hf m (mem_sortedModels.mpr hm))
    · have : db.snapModel modelId providerPrefix = none := by
        unfold snapModel
        rw [List.find?_eq_none.mpr hf]
        rfl
      rw [hnone, this]
  | some m =>
    have hm := (hleast _ m).mp hf
    have hsnap : db.snapModel modelId providerPrefix = if db.providerActive m.providerId then some m else none := by
      unfold snapModel
      rw [hf]
      rfl
    cases hp : db.providerActive m.providerId with
    | true =>
      have hsql : db.sqlModel modelId providerPrefix = some m := by
        apply (hleast _ m).mpr
        refine ⟨hm.1, ?_, ?_⟩
        · have := hm.2.1
          rw [Bool.and_eq_true] at this
          simp [routable, this.1, this.2, hp]
        · intro m' hm' hr
          rw [Bool.and_eq_true, routable, Bool.and_eq_true] at hr
          exact hm.2.2 m' hm' (by simp [hr.1, hr.2.1])
      refine Or.inl ⟨?_, by rw [hsnap, hp, hsql]; rfl⟩
      intro m' hm' hp' hle
      have := hle m hm.1 hm.2.1
      have hge : m.id ≤ m'.id := hm.2.2 m' hm' hp'
      rw [List.inj_on_of_nodup_map db.model_ids hm' hm.1 (by omega)]
      exact Or.inl hp
    | false =>
      have hsnap' : db.snapModel modelId providerPrefix = none := by
        rw [hsnap, hp]
        rfl
      by_cases hno : db.NoneRoutable modelId providerPrefix
      · refine Or.inl ⟨fun m' hm' _ _ => Or.inr hno, ?_⟩
        rw [hsnap', sqlModel_eq_none.mpr hno]
      · refine Or.inr ⟨?_, hsnap', fun h => hno (sqlModel_eq_none.mp h)⟩
        intro h
        rcases h m hm.1 hm.2.1 hm.2.2 with hact | hall
        · rw [hp] at hact
          exact absurd hact (by simp)
        · exact hno hall

/-! ### Targets -/

/-- The target, decoded with a client profile, when it belongs to the combo and is selected. -/
def pick (db : Database) (comboId : Int) (selects : ComboTargetRow → Bool) (profile : ComboTargetRow → Option Text)
    (ct : ComboTargetRow) : Option ComboTarget :=
  if ct.comboId = comboId ∧ selects ct = true then some (db.decodeTarget ct (profile ct)) else none

theorem snapTarget_eq_pick (db : Database) (t₀ now : Timestamp) (comboId : Int) :
    db.snapTarget t₀ now comboId = db.pick comboId (db.snapSelects t₀ now) fun _ => none :=
  funext fun ct => snapTarget_eq db t₀ now comboId ct

theorem sqlTarget_eq_pick (db : Database) (now : Timestamp) (comboId : Int) :
    db.sqlTarget now comboId = db.pick comboId (db.sqlSelects now) (·.clientProfile) :=
  funext fun ct => sqlTarget_eq db now comboId ct

/-- A target is decoded alike on both paths: its own cooldown is judged alike, and it has no client profile if it is
selected. -/
def TargetAgrees (db : Database) (now : Timestamp) (ct : ComboTargetRow) : Prop :=
  db.targetEligible ct = true →
    db.ExpiresTogether now now ct ∧ (db.sqlSelects now ct = true → ct.clientProfile.bind ClientProfile.fromStr = none)

theorem not_later_self (t : Timestamp) : ¬ t.Later t := by
  unfold Timestamp.Later
  omega

private theorem pick_eq_iff {db : Database} {now : Timestamp} {comboId : Int} {ct : ComboTargetRow}
    (hc : ct.comboId = comboId) :
    db.pick comboId (db.snapSelects now now) (fun _ => none) ct =
      db.pick comboId (db.sqlSelects now) (·.clientProfile) ct ↔ db.TargetAgrees now ct := by
  unfold pick TargetAgrees
  simp only [hc, true_and]
  by_cases hel : db.targetEligible ct = true
  · rw [← selects_eq_iff (not_later_self now) hel]
    cases hs : db.snapSelects now now ct <;> cases hq : db.sqlSelects now ct
    · simp
    · simp [hel]
    · simp [hel]
    · simp [hel, decodeTarget, rowToTarget, eq_comm]
  · simp [hel, snapSelects, sqlSelects]

/-! ### Pinned accounts -/

/-- What pinning makes of a target. -/
private def pinOne (prov : Text) (aid : Int) (t : ComboTarget) : Option ComboTarget :=
  if t.providerId = prov then some { t with accountId := some aid } else if t.subComboId.isSome then some t else none

private theorem pinTargets_eq (prov : Text) (targets : List ComboTarget) (aid : Int) :
    pinTargets prov targets aid =
      if targets.any fun t => t.providerId = prov then targets.filterMap (pinOne prov aid) else targets := by
  unfold pinTargets
  split
  · rw [← List.filterMap_eq_filter, List.filterMap_map]
    apply List.filterMap_congr
    intro t _
    unfold pinOne
    by_cases h : t.providerId = prov
    · simp [Option.guard, h]
    · simp only [Function.comp_apply, h, ↓reduceIte, decide_false, Bool.false_or, Option.guard]
  · rfl

section Pick

variable {db : Database} {comboId : Int} {selects selects' : ComboTargetRow → Bool}
  {profile profile' : ComboTargetRow → Option Text}

private theorem pick_some {ct : ComboTargetRow} {x : ComboTarget} (h : db.pick comboId selects profile ct = some x) :
    ct.comboId = comboId ∧ selects ct = true ∧ x = db.decodeTarget ct (profile ct) := by
  unfold pick at h
  split at h
  · rename_i hc
    exact ⟨hc.1, hc.2, (Option.some.inj h).symm⟩
  · simp at h

/-- Some target of the provider is selected. -/
def Pinned (db : Database) (comboId : Int) (selects : ComboTargetRow → Bool) (prov : Text) : Prop :=
  ∃ ct ∈ db.comboTargets, ct.comboId = comboId ∧ ct.providerId = prov ∧ selects ct = true

private theorem any_pick (profile : ComboTargetRow → Option Text) {prov : Text} :
    ((db.sortedTargets.filterMap (db.pick comboId selects profile)).any fun t => t.providerId = prov) = true ↔
      db.Pinned comboId selects prov := by
  rw [List.any_eq_true]
  constructor
  · rintro ⟨x, hx, hp⟩
    obtain ⟨ct, hct, h⟩ := List.mem_filterMap.mp hx
    obtain ⟨hc, hs, rfl⟩ := pick_some h
    exact ⟨ct, mem_sortedTargets.mp hct, hc, of_decide_eq_true hp, hs⟩
  · rintro ⟨ct, hct, hc, hp, hs⟩
    refine ⟨db.decodeTarget ct (profile ct), ?_, decide_eq_true hp⟩
    rw [List.mem_filterMap]
    exact ⟨ct, mem_sortedTargets.mpr hct, if_pos ⟨hc, hs⟩⟩

private theorem filterMap_pick_eq_iff :
    db.sortedTargets.filterMap (db.pick comboId selects profile) =
      db.sortedTargets.filterMap (db.pick comboId selects' profile') ↔
      ∀ ct ∈ db.comboTargets, db.pick comboId selects profile ct = db.pick comboId selects' profile' ct := by
  rw [filterMap_eq_iff (fun ct : ComboTargetRow => ct.id) (fun t : ComboTarget => t.id)
    db.sortedTargets_nodup]
  · simp only [mem_sortedTargets]
  · intro ct x h
    rw [(pick_some h).2.2]
    rfl
  · intro ct x h
    rw [(pick_some h).2.2]
    rfl

/-- A target that pinning keeps can be read off what pinning makes of it. -/
private theorem pick_eq_of_pinOne {ct : ComboTargetRow} {prov : Text} {aid : Int}
    (hkeep : ct.providerId = prov ∨ ct.subComboId.isSome = true)
    (h : (db.pick comboId selects profile ct).bind (pinOne prov aid) =
      (db.pick comboId selects' profile' ct).bind (pinOne prov aid)) :
    db.pick comboId selects profile ct = db.pick comboId selects' profile' ct := by
  have hpin : ∀ p, ∃ x, pinOne prov aid (db.decodeTarget ct p) = some x ∧
      x.clientProfile = p.bind ClientProfile.fromStr := by
    intro p
    unfold pinOne
    by_cases hp : (db.decodeTarget ct p).providerId = prov
    · exact ⟨_, if_pos hp, rfl⟩
    · have hsub : (db.decodeTarget ct p).subComboId.isSome = true := hkeep.resolve_left hp
      exact ⟨_, by rw [if_neg hp, if_pos hsub], rfl⟩
  obtain ⟨x, hx, hxp⟩ := hpin (profile ct)
  obtain ⟨y, hy, hyp⟩ := hpin (profile' ct)
  unfold pick at h ⊢
  by_cases h1 : ct.comboId = comboId ∧ selects ct = true
  · by_cases h2 : ct.comboId = comboId ∧ selects' ct = true
    · rw [if_pos h1, if_pos h2, Option.bind_some, Option.bind_some, hx, hy, Option.some.injEq] at h
      rw [h, hyp] at hxp
      rw [if_pos h1, if_pos h2, decodeTarget, decodeTarget, rowToTarget, rowToTarget, hxp]
    · rw [if_pos h1, if_neg h2, Option.bind_some, hx] at h
      exact absurd h (by simp)
  · by_cases h2 : ct.comboId = comboId ∧ selects' ct = true
    · rw [if_neg h1, if_pos h2, Option.bind_some, hy] at h
      exact absurd h (by simp)
    · rw [if_neg h1, if_neg h2]

/-- Two selections are equal after pinning if and only if they agree on the targets that pinning keeps. -/
private theorem pinTargets_pick_eq_iff {prov : Text} {aid : Int} :
    pinTargets prov (db.sortedTargets.filterMap (db.pick comboId selects profile)) aid =
      pinTargets prov (db.sortedTargets.filterMap (db.pick comboId selects' profile')) aid ↔
      ∀ ct ∈ db.comboTargets,
        (db.Pinned comboId selects' prov → ct.providerId = prov ∨ ct.subComboId.isSome = true) →
        db.pick comboId selects profile ct = db.pick comboId selects' profile' ct := by
  rw [pinTargets_eq, pinTargets_eq]
  have hyes : ∀ {sel : ComboTargetRow → Bool} {prof : ComboTargetRow → Option Text}, db.Pinned comboId sel prov →
      ((db.sortedTargets.filterMap (db.pick comboId sel prof)).any fun t => t.providerId = prov) = true :=
    (any_pick _).mpr
  have hno : ∀ {sel : ComboTargetRow → Bool} {prof : ComboTargetRow → Option Text}, ¬ db.Pinned comboId sel prov →
      ¬ ((db.sortedTargets.filterMap (db.pick comboId sel prof)).any fun t => t.providerId = prov) = true :=
    mt (any_pick _).mp
  constructor
  · intro h
    by_cases h' : db.Pinned comboId selects' prov
    · -- the selection that is not pinned would lack the target of the provider
      have h0 : db.Pinned comboId selects prov := by
        by_contra h0
        rw [if_neg (hno h0), if_pos (hyes h')] at h
        apply h0
        rw [← any_pick profile, h, List.any_eq_true]
        obtain ⟨ct, hct, hc, hp, hs⟩ := h'
        refine ⟨{ db.decodeTarget ct (profile' ct) with accountId := some aid }, ?_, decide_eq_true hp⟩
        rw [List.mem_filterMap]
        refine ⟨db.decodeTarget ct (profile' ct), ?_, if_pos hp⟩
        rw [List.mem_filterMap]
        exact ⟨ct, mem_sortedTargets.mpr hct, if_pos ⟨hc, hs⟩⟩
      rw [if_pos (hyes h0), if_pos (hyes h'), List.filterMap_filterMap, List.filterMap_filterMap] at h
      have hid : ∀ (sel : ComboTargetRow → Bool) (prof : ComboTargetRow → Option Text) (ct : ComboTargetRow)
          (x : ComboTarget), (db.pick comboId sel prof ct).bind (pinOne prov aid) = some x → x.id = ct.id := by
        intro sel prof ct x hx
        rw [Option.bind_eq_some_iff] at hx
        obtain ⟨y, hy, hyx⟩ := hx
        obtain ⟨-, -, rfl⟩ := pick_some hy
        unfold pinOne at hyx
        split at hyx
        · cases hyx
          rfl
        · split at hyx
          · cases hyx
            rfl
          · simp at hyx
      have hall := (filterMap_eq_iff (fun ct : ComboTargetRow => ct.id) (fun t : ComboTarget => t.id)
        db.sortedTargets_nodup (hid _ _) (hid _ _)).mp h
      intro ct hct hkeep
      exact pick_eq_of_pinOne (hkeep h') (hall ct (mem_sortedTargets.mpr hct))
    · have h0 : ¬ db.Pinned comboId selects prov := by
        intro h0
        rw [if_pos (hyes h0), if_neg (hno h')] at h
        apply h'
        rw [← any_pick profile', ← h, List.any_eq_true]
        obtain ⟨ct, hct, hc, hp, hs⟩ := h0
        refine ⟨{ db.decodeTarget ct (profile ct) with accountId := some aid }, ?_, decide_eq_true hp⟩
        rw [List.mem_filterMap]
        refine ⟨db.decodeTarget ct (profile ct), ?_, if_pos hp⟩
        rw [List.mem_filterMap]
        exact ⟨ct, mem_sortedTargets.mpr hct, if_pos ⟨hc, hs⟩⟩
      rw [if_neg (hno h0), if_neg (hno h'), filterMap_pick_eq_iff] at h
      exact fun ct hct _ => h ct hct
  · intro h
    have hpinned : db.Pinned comboId selects prov ↔ db.Pinned comboId selects' prov := by
      constructor
      · rintro ⟨ct, hct, hc, hp, hs⟩
        have heq := h ct hct fun _ => Or.inl hp
        have hsome : db.pick comboId selects profile ct = some (db.decodeTarget ct (profile ct)) := if_pos ⟨hc, hs⟩
        rw [hsome] at heq
        exact ⟨ct, hct, hc, hp, (pick_some heq.symm).2.1⟩
      · rintro ⟨ct, hct, hc, hp, hs⟩
        have heq := h ct hct fun _ => Or.inl hp
        have hsome : db.pick comboId selects' profile' ct = some (db.decodeTarget ct (profile' ct)) := if_pos ⟨hc, hs⟩
        rw [hsome] at heq
        exact ⟨ct, hct, hc, hp, (pick_some heq).2.1⟩
    by_cases h' : db.Pinned comboId selects' prov
    · rw [if_pos (hyes (hpinned.mpr h')), if_pos (hyes h'), List.filterMap_filterMap, List.filterMap_filterMap]
      apply List.filterMap_congr
      intro ct hct
      by_cases hkeep : ct.providerId = prov ∨ ct.subComboId.isSome = true
      · rw [h ct (mem_sortedTargets.mp hct) fun _ => hkeep]
      · -- the target is dropped from both
        have hdrop : ∀ (sel : ComboTargetRow → Bool) (prof : ComboTargetRow → Option Text),
            (db.pick comboId sel prof ct).bind (pinOne prov aid) = none := by
          intro sel prof
          unfold pick
          split
          · rw [not_or] at hkeep
            rw [Option.bind_some, pinOne, if_neg (show ¬ (db.decodeTarget ct (prof ct)).providerId = prov from hkeep.1),
              if_neg (show ¬ (db.decodeTarget ct (prof ct)).subComboId.isSome = true from hkeep.2)]
          · rfl
        rw [hdrop, hdrop]
    · rw [if_neg (hno fun h0 => h' (hpinned.mp h0)), if_neg (hno h'), filterMap_pick_eq_iff]
      exact fun ct hct => h ct hct fun hp => absurd hp h'

end Pick

/-! ### Plans -/

theorem stripPrefix_eq (db : Database) (now : Timestamp) (modelStr : Text) :
    (build db now).stripPrefix modelStr = db.stripProxyPrefix modelStr := by
  have hprov : ∀ pre : Text, ((build db now).providers.lookup pre).isSome = db.providers.any fun p => p.id = pre := by
    intro pre
    rw [build_providers, Option.isSome_map, Bool.eq_iff_iff, List.find?_isSome, List.any_eq_true]
  unfold RoutingSnapshot.stripPrefix stripProxyPrefix
  cases "combo:".toList.isPrefixOf modelStr with
  | true => rfl
  | false =>
    cases splitOnce '/' modelStr with
    | none => rfl
    | some parts => simp only [hprov]

/-- The target is not dropped when the account is pinned. -/
def Kept (db : Database) (now : Timestamp) (comboId : Int) (accountOverride : Option Int) (ct : ComboTargetRow) : Prop :=
  ∀ aid ∈ accountOverride, ∀ a ∈ db.accounts, a.id = aid →
    db.Pinned comboId (db.sqlSelects now) a.providerId → ct.providerId = a.providerId ∨ ct.subComboId.isSome = true

/-- The targets of a combo, with the account pinned. -/
private theorem targets_eq_iff (db : Database) (now : Timestamp) (comboId : Int) (accountOverride : Option Int) :
    (match accountOverride with
      | some aid => (build db now).pinAccount ((build db now).selectTargets now comboId) aid
      | none => (build db now).selectTargets now comboId) =
      (match accountOverride with
      | some aid => db.pinAccountToTargets (db.listTargets now comboId) aid
      | none => db.listTargets now comboId) ↔
      ∀ ct ∈ db.comboTargets, ct.comboId = comboId → db.Kept now comboId accountOverride ct → db.TargetAgrees now ct := by
  have hpick : ∀ ct, db.pick comboId (db.snapSelects now now) (fun _ => none) ct =
      db.pick comboId (db.sqlSelects now) (·.clientProfile) ct ↔ (ct.comboId = comboId → db.TargetAgrees now ct) := by
    intro ct
    by_cases hc : ct.comboId = comboId
    · simp only [hc, true_implies]
      exact pick_eq_iff hc
    · simp [pick, hc]
  have hplain : (build db now).selectTargets now comboId = db.listTargets now comboId ↔
      ∀ ct ∈ db.comboTargets, ct.comboId = comboId → db.TargetAgrees now ct := by
    rw [selectTargets_eq, listTargets_eq, snapTarget_eq_pick, sqlTarget_eq_pick, filterMap_pick_eq_iff]
    simp only [hpick]
  cases accountOverride with
  | none => simpa [Kept] using hplain
  | some aid =>
    simp only [RoutingSnapshot.pinAccount, pinAccountToTargets, build_accounts]
    cases hf : db.accounts.find? fun a => a.id = aid with
    | none =>
      rw [find?_key_eq_none (fun a : AccountRow => a.id)] at hf
      simp only [Option.map_none, hplain]
      refine forall₃_congr fun ct _ _ => ?_
      rw [forall_prop_of_true]
      rintro _ ⟨⟩ a ha hid
      exact absurd hid (hf a ha)
    | some a =>
      have ha := (find?_key_eq_some (fun a : AccountRow => a.id) db.account_ids).mp hf
      simp only [Option.map_some]
      rw [selectTargets_eq, listTargets_eq, snapTarget_eq_pick, sqlTarget_eq_pick, pinTargets_pick_eq_iff]
      simp only [hpick]
      refine forall₂_congr fun ct _ => ?_
      have hkept : db.Kept now comboId (some aid) ct ↔ (db.Pinned comboId (db.sqlSelects now) a.providerId →
          ct.providerId = a.providerId ∨ ct.subComboId.isSome = true) := by
        constructor
        · intro h
          exact h aid rfl a ha.1 ha.2
        · rintro h _ ⟨⟩ b hb hid
          rw [List.inj_on_of_nodup_map db.account_ids hb ha.1 (hid.trans ha.2.symm)]
          exact h
      rw [hkept]
      constructor
      · intro h hc hk
        exact h hk hc
      · intro h hk hc
        exact h hc hk

/-- The conditions under which the snapshot and SQL make the same plan. -/
def Agrees (db : Database) (now : Timestamp) (modelStr : Text) (providerOverride : Option Text)
    (accountOverride : Option Int) : Prop :=
  let stripped := (db.stripProxyPrefix modelStr).1
  let providerPrefix := (db.stripProxyPrefix modelStr).2.or providerOverride
  db.OldestRoutable stripped providerPrefix ∧
    (db.NoneRoutable stripped providerPrefix → ∀ combo ∈ db.combos, combo.name = comboNameOf stripped →
      ∀ ct ∈ db.comboTargets, ct.comboId = combo.id → db.Kept now combo.id accountOverride ct → db.TargetAgrees now ct)

/-- Snapshot routing equals SQL routing: for every database, instant, model string and overrides, the snapshot built at
the instant makes the plan that the queries make, if and only if the conditions hold. -/
theorem resolve_parity_iff (db : Database) (now : Timestamp) (modelStr : Text) (providerOverride : Option Text)
    (accountOverride : Option Int) :
    (build db now).resolveWithOptionsSnap now modelStr providerOverride accountOverride =
      db.resolveWithOptions now modelStr providerOverride accountOverride ↔
      db.Agrees now modelStr providerOverride accountOverride := by
  unfold RoutingSnapshot.resolveWithOptionsSnap resolveWithOptions Agrees
  rw [stripPrefix_eq]
  generalize db.stripProxyPrefix modelStr = parts
  obtain ⟨stripped, pre⟩ := parts
  simp only [tryResolveDirect_eq, tryResolveDirectModel_eq, build_combosByName]
  generalize pre.or providerOverride = pre
  rcases snapModel_cases db stripped pre with ⟨hold, heq⟩ | ⟨hold, hnone, hsome⟩
  · rw [heq]
    simp only [hold, true_and]
    cases hm : db.sqlModel stripped pre with
    | some m =>
      have hno : ¬ db.NoneRoutable stripped pre := by
        rw [← sqlModel_eq_none, hm]
        simp
      simp [hno]
    | none =>
      have hno : db.NoneRoutable stripped pre := sqlModel_eq_none.mp hm
      simp only [Option.map_none, hno, true_implies]
      cases hc : db.combos.find? fun c => c.name = comboNameOf stripped with
      | none =>
        rw [find?_key_eq_none (fun c : Combo => c.name)] at hc
        simp only [true_iff]
        exact fun combo hcombo hname => absurd hname (hc combo hcombo)
      | some combo =>
        have hcombo := (find?_key_eq_some (fun c : Combo => c.name) db.combo_names).mp hc
        simp only [RoutingPlan.combo.injEq, true_and]
        refine (targets_eq_iff db now combo.id accountOverride).trans ?_
        constructor
        · intro h c hmem hname
          rw [List.inj_on_of_nodup_map db.combo_names hmem hcombo.1 (hname.trans hcombo.2.symm)]
          exact h
        · intro h
          exact h combo hcombo.1 hcombo.2
  · -- SQL addresses the model directly; the snapshot has a combo with a positive id, or none
    obtain ⟨m, hm⟩ := Option.ne_none_iff_exists'.mp hsome
    rw [hnone, hm]
    simp only [Option.map_none, Option.map_some, hold, false_and, iff_false]
    have hid : ∃ name strategy raceSize targets,
        db.planOf accountOverride m = .combo syntheticComboId name strategy raceSize targets := ⟨_, _, _, _, rfl⟩
    obtain ⟨name, strategy, raceSize, targets, hplan⟩ := hid
    rw [hplan]
    cases hc : db.combos.find? fun c => c.name = comboNameOf stripped with
    | none =>
      unfold notFoundPlan
      intro heq
      cases heq
    | some combo =>
      have hpos := db.combo_ids_pos combo (List.mem_of_find?_eq_some hc)
      simp only [RoutingPlan.combo.injEq, not_and]
      intro heq
      simp only [syntheticComboId] at heq
      omega

/-- The model `m` of an inactive provider, and of an active one. -/
def twoProviders : Database where
  providers := [⟨"old".toList, false, .account⟩, ⟨"new".toList, true, .account⟩]
  models := [⟨1, "old".toList, "m".toList, true⟩, ⟨2, "new".toList, "m".toList, true⟩]
  accounts := []
  combos := []
  comboTargets := []
  targetCooldowns := []
  provider_ids := by decide
  model_ids := by decide
  account_ids := List.nodup_nil
  combo_ids := by decide
  combo_names := by decide
  combo_ids_pos := by decide
  target_ids := by decide
  cooldown_targets := by decide
  model_provider := by decide
  account_provider := by decide
  target_combo := by decide
  target_provider := by decide
  target_account := by decide
  target_model := by decide
  target_sub_combo := by decide
  cooldown_target := by decide

/-- SQL routes the model to its active provider; the snapshot does not find it. -/
theorem resolve_inactive_provider_first :
    (build twoProviders ⟨2025, 3, 1, 10, 0, 0, 0, by decide⟩).resolveWithOptionsSnap
        ⟨2025, 3, 1, 10, 0, 0, 0, by decide⟩ "m".toList none none = .notFound "m".toList none ∧
      twoProviders.resolveWithOptions ⟨2025, 3, 1, 10, 0, 0, 0, by decide⟩ "m".toList none none =
        directPlan "new".toList none 2 .account ∧
      (build twoProviders ⟨2025, 3, 1, 10, 0, 0, 0, by decide⟩).resolveWithOptionsSnap
          ⟨2025, 3, 1, 10, 0, 0, 0, by decide⟩ "m".toList none none ≠
        twoProviders.resolveWithOptions ⟨2025, 3, 1, 10, 0, 0, 0, by decide⟩ "m".toList none none := by
  decide

end Database

end OpenProxy.Routing
