import OpenProxy.Text.Basic

/-!
# What a key may be used for

The model of `api_keys/matching.rs`.  A key names the models and the providers that it may or may not be used for, with
wildcards at both ends of an entry.

Longer blacklists permit less, a longer `allowed_models` permits more (`Stricter.permitsLess`).  That a
model is allowed at a provider does not say that the provider is: where `allowed_providers` names the provider that the
model string begins with, the provider of the call is not asked for (`isModelAllowed_iff_provider`).
-/

namespace OpenProxy.Auth

/-! ### Entries -/

/-- `str::strip_suffix` of a character. -/
def stripLast (c : Char) (s : Text) : Option Text := if s.getLast? = some c then some s.dropLast else none

def matchesModelSpec (spec candidate : Text) : Bool :=
  spec == ['*'] || spec == candidate ||
    (match stripLast '*' spec with
      | some pre => pre.isPrefixOf candidate
      | none => false) ||
    (match stripPrefix ['*'] spec with
      | some ending => ending.isSuffixOf candidate
      | none => false)

def modelMatchesPattern (pattern model bareModel : Text) (fullId : Option Text) : Bool :=
  matchesModelSpec pattern model || matchesModelSpec pattern bareModel ||
    (match fullId with
      | some f => matchesModelSpec pattern f
      | none => false)

def isProviderBlacklisted (blacklisted : Option (List Text)) (provider : Option Text) : Bool :=
  match blacklisted, provider with
  | some bp, some p => bp.any fun b => b == p || b == ['*']
  | _, _ => false

def isProviderInAllowlist (allowed : Option (List Text)) (provider : Option Text) : Bool :=
  match allowed with
  | none => true
  | some ap =>
    if ap.isEmpty then true
    else
      match provider with
      | some p => ap.any fun a => a == p || a == ['*']
      | none => false

def isModelBlockedByBlacklist (blacklistedModels : Option (List Text)) (model bareModel : Text) (fullId : Option Text) :
    Bool :=
  match blacklistedModels with
  | none => false
  | some blacklisted => blacklisted.any fun b => modelMatchesPattern b model bareModel fullId

/-! ### Keys -/

/-- The fields of an `ApiKey` that say what it may be used for. -/
structure KeyAccess where
  allowedModels : Option (List Text)
  allowedCombos : Option (List Int)
  blacklistedProviders : Option (List Text)
  allowedProviders : Option (List Text)
  blacklistedModels : Option (List Text)
  onlyWhitelisted : Bool
  deriving DecidableEq

/-- The provider that a model string begins with. -/
def provFromModel (model : Text) : Option Text := (splitOnce '/' model).map Prod.fst

/-- A model string without the provider that it begins with. -/
def bareModel (model : Text) : Text := ((splitOnce '/' model).map Prod.snd).getD model

/-- A model string with the provider in front, where it is not there already. -/
def fullId (effectiveProv : Option Text) (model : Text) : Option Text :=
  effectiveProv.bind fun p => if (p ++ ['/']).isPrefixOf model then none else some (p ++ '/' :: model)

namespace KeyAccess

/-- `is_model_blacklisted` of a call. -/
def blocksModel (key : KeyAccess) (model : Text) (effectiveProv : Option Text) : Bool :=
  isModelBlockedByBlacklist key.blacklistedModels model (bareModel model) (fullId effectiveProv model)

/-- `explicitly_allowed` of a call. -/
def listsModel (key : KeyAccess) (model : Text) (effectiveProv : Option Text) : Bool :=
  match key.allowedModels with
  | none => false
  | some allowed =>
    !allowed.isEmpty && allowed.any fun m => modelMatchesPattern m model (bareModel model) (fullId effectiveProv model)

def isModelAllowed (key : KeyAccess) (model : Text) (providerId : Option Text) : Bool :=
  let effectiveProv := providerId.or (provFromModel model)
  let isModelBlacklisted := key.blocksModel model effectiveProv
  let explicitlyAllowed := key.listsModel model effectiveProv
  if key.onlyWhitelisted then explicitlyAllowed && !isModelBlacklisted
  else if "combo:".toList.isPrefixOf model || effectiveProv.isNone then !isModelBlacklisted
  else if explicitlyAllowed then true
  else if isModelBlacklisted then false
  else if isProviderBlacklisted key.blacklistedProviders providerId ||
      isProviderBlacklisted key.blacklistedProviders (provFromModel model) then false
  else isProviderInAllowlist key.allowedProviders providerId ||
    isProviderInAllowlist key.allowedProviders (provFromModel model)

def isProviderAllowed (key : KeyAccess) (providerId : Text) : Bool :=
  if isProviderBlacklisted key.blacklistedProviders (some providerId) then false
  else isProviderInAllowlist key.allowedProviders (some providerId)

def isComboAllowed (key : KeyAccess) (comboId : Int) : Bool :=
  match key.allowedCombos with
  | none => true
  | some allowed => allowed.isEmpty || allowed.contains comboId

end KeyAccess

/-! ### Longer lists -/

section

variable {l l' : Option (List Text)} {model bare : Text} {full provider : Option Text}

/-- Every entry of a list is one of another; a list that is absent has none. -/
def EntriesIn (l l' : Option (List Text)) : Prop := ∀ e ∈ l.getD [], e ∈ l'.getD []

theorem isProviderBlacklisted_iff :
    isProviderBlacklisted l provider = true ↔ ∃ e ∈ l.getD [], ∃ p ∈ provider, e = p ∨ e = ['*'] := by
  unfold isProviderBlacklisted
  cases l with
  | none => simp
  | some bp =>
    cases provider with
    | none => simp
    | some p => simp

theorem isModelBlockedByBlacklist_iff :
    isModelBlockedByBlacklist l model bare full = true ↔
      ∃ e ∈ l.getD [], modelMatchesPattern e model bare full = true := by
  unfold isModelBlockedByBlacklist
  cases l with
  | none => simp
  | some blacklisted => simp

theorem KeyAccess.listsModel_iff {key : KeyAccess} :
    key.listsModel model provider = true ↔
      ∃ e ∈ key.allowedModels.getD [], modelMatchesPattern e model (bareModel model) (fullId provider model) = true := by
  unfold KeyAccess.listsModel
  cases key.allowedModels with
  | none => simp
  | some allowed =>
    cases allowed with
    | nil => simp
    | cons e allowed => simp

theorem isProviderBlacklisted_mono (h : EntriesIn l l') (hblack : isProviderBlacklisted l provider = true) :
    isProviderBlacklisted l' provider = true := by
  rw [isProviderBlacklisted_iff] at hblack ⊢
  obtain ⟨e, he, hmatch⟩ := hblack
  exact ⟨e, h e he, hmatch⟩

theorem isModelBlockedByBlacklist_mono (h : EntriesIn l l') (hblocked : isModelBlockedByBlacklist l model bare full = true) :
    isModelBlockedByBlacklist l' model bare full = true := by
  rw [isModelBlockedByBlacklist_iff] at hblocked ⊢
  obtain ⟨e, he, hmatch⟩ := hblocked
  exact ⟨e, h e he, hmatch⟩

end

namespace KeyAccess

/-- A key that says the same of the provider lists, and that has no other entries in its blacklists. -/
structure Stricter (key key' : KeyAccess) : Prop where
  models : EntriesIn key.blacklistedModels key'.blacklistedModels
  providers : EntriesIn key.blacklistedProviders key'.blacklistedProviders
  allowedModels : EntriesIn key'.allowedModels key.allowedModels
  allowedProviders : key'.allowedProviders = key.allowedProviders
  onlyWhitelisted : key'.onlyWhitelisted = key.onlyWhitelisted

variable {key key' : KeyAccess} {model : Text} {provider : Option Text}

theorem Stricter.listsModel (h : key.Stricter key') (hlists : key'.listsModel model provider = true) :
    key.listsModel model provider = true := by
  rw [listsModel_iff] at hlists ⊢
  obtain ⟨e, he, hmatch⟩ := hlists
  exact ⟨e, h.allowedModels e he, hmatch⟩

theorem Stricter.blocksModel (h : key.Stricter key') (hblocks : key'.blocksModel model provider = false) :
    key.blocksModel model provider = false := by
  rw [← Bool.not_eq_true] at hblocks ⊢
  exact fun hblocked => hblocks (isModelBlockedByBlacklist_mono h.models hblocked)

theorem Stricter.blacklisted (h : key.Stricter key')
    (hblack : isProviderBlacklisted key'.blacklistedProviders provider = false) :
    isProviderBlacklisted key.blacklistedProviders provider = false := by
  rw [← Bool.not_eq_true] at hblack ⊢
  exact fun hblacklisted => hblack (isProviderBlacklisted_mono h.providers hblacklisted)

/-- What a stricter key permits was permitted before. -/
theorem Stricter.isModelAllowed (h : key.Stricter key') (hallowed : key'.isModelAllowed model provider = true) :
    key.isModelAllowed model provider = true := by
  unfold KeyAccess.isModelAllowed at hallowed ⊢
  dsimp only at hallowed ⊢
  rw [h.onlyWhitelisted, h.allowedProviders] at hallowed
  by_cases honly : key.onlyWhitelisted = true
  · rw [if_pos honly] at hallowed ⊢
    rw [Bool.and_eq_true, Bool.not_eq_true'] at hallowed ⊢
    exact ⟨h.listsModel hallowed.1, h.blocksModel hallowed.2⟩
  · rw [if_neg honly] at hallowed ⊢
    by_cases hcombo : ("combo:".toList.isPrefixOf model || (provider.or (provFromModel model)).isNone) = true
    · rw [if_pos hcombo, Bool.not_eq_true'] at hallowed ⊢
      exact h.blocksModel hallowed
    · rw [if_neg hcombo] at hallowed ⊢
      by_cases hlists : key.listsModel model (provider.or (provFromModel model)) = true
      · rw [if_pos hlists]
      · rw [if_neg fun hlists' => hlists (h.listsModel hlists')] at hallowed
        rw [if_neg hlists]
        split at hallowed
        · cases hallowed
        · rename_i hblocks
          rw [Bool.not_eq_true] at hblocks
          rw [h.blocksModel hblocks]
          split at hallowed
          · cases hallowed
          · rename_i hblack
            rw [Bool.not_eq_true, Bool.or_eq_false_iff] at hblack
            rw [h.blacklisted hblack.1, h.blacklisted hblack.2]
            exact hallowed

theorem Stricter.isProviderAllowed (h : key.Stricter key') {p : Text} (hallowed : key'.isProviderAllowed p = true) :
    key.isProviderAllowed p = true := by
  unfold KeyAccess.isProviderAllowed at hallowed ⊢
  rw [h.allowedProviders] at hallowed
  split at hallowed
  · cases hallowed
  · rename_i hblack
    rw [Bool.not_eq_true] at hblack
    rw [h.blacklisted hblack]
    exact hallowed

/-! ### The provider of a call -/

/-- The allowlist names the provider that the model string begins with and not the provider of the call, and no blacklist
denies the call. -/
structure PassesAs (key : KeyAccess) (p model : Text) : Prop where
  listed : isProviderInAllowlist key.allowedProviders (provFromModel model) = true
  unlisted : isProviderInAllowlist key.allowedProviders (some p) = false
  notBlacklisted : isProviderBlacklisted key.blacklistedProviders (some p) = false
  prefixNotBlacklisted : isProviderBlacklisted key.blacklistedProviders (provFromModel model) = false
  notBlocked : key.blocksModel model (some p) = false

/-- No entry of `allowed_models` is about a model. -/
def Unlisted (key : KeyAccess) (p model : Text) : Prop :=
  ∀ spec ∈ key.allowedModels.getD [], matchesModelSpec spec model = false ∧
    matchesModelSpec spec (bareModel model) = false ∧ matchesModelSpec spec (p ++ '/' :: model) = false

instance (key : KeyAccess) (p model : Text) : Decidable (key.Unlisted p model) :=
  inferInstanceAs (Decidable (∀ _ ∈ _, _))

variable {p : Text}

theorem Unlisted.listsModel (h : key.Unlisted p model) : key.listsModel model (some p) = false := by
  rw [← Bool.not_eq_true, listsModel_iff]
  rintro ⟨spec, hspec, hmatch⟩
  obtain ⟨hmodel, hbare, hfull⟩ := h spec hspec
  unfold modelMatchesPattern fullId at hmatch
  rw [Option.bind_some, hmodel, hbare] at hmatch
  split at hmatch
  · rename_i f hf
    split at hf
    · cases hf
    · rw [← Option.some.inj hf, hfull] at hmatch
      cases hmatch
  · cases hmatch

/-- What is left of `is_model_allowed` for a model that is not listed. -/
theorem isModelAllowed_of_unlisted (honly : key.onlyWhitelisted = false) (hcombo : ¬ "combo:".toList <+: model)
    (hlist : key.Unlisted p model) :
    key.isModelAllowed model (some p) = true ↔
      key.blocksModel model (some p) = false ∧ isProviderBlacklisted key.blacklistedProviders (some p) = false ∧
        isProviderBlacklisted key.blacklistedProviders (provFromModel model) = false ∧
        (isProviderInAllowlist key.allowedProviders (some p) = true ∨
          isProviderInAllowlist key.allowedProviders (provFromModel model) = true) := by
  have hpre : "combo:".toList.isPrefixOf model = false := by
    rw [← Bool.not_eq_true, List.isPrefixOf_iff_prefix]
    exact hcombo
  unfold isModelAllowed
  dsimp only
  rw [Option.some_or, honly, hpre, hlist.listsModel]
  by_cases hblocks : key.blocksModel model (some p) = true
  · simp [hblocks]
  · rw [Bool.not_eq_true] at hblocks
    simp [hblocks, and_assoc]

theorem isProviderAllowed_iff :
    key.isProviderAllowed p = true ↔ isProviderBlacklisted key.blacklistedProviders (some p) = false ∧
      isProviderInAllowlist key.allowedProviders (some p) = true := by
  unfold isProviderAllowed
  by_cases hblack : isProviderBlacklisted key.blacklistedProviders (some p) = true
  · simp [hblack]
  · simp [hblack]

/-- A model that is allowed says that the provider is, unless the model string passes as one of another provider. -/
theorem isModelAllowed_iff_provider (honly : key.onlyWhitelisted = false) (hcombo : ¬ "combo:".toList <+: model)
    (hlist : key.Unlisted p model) :
    (key.isModelAllowed model (some p) = true → key.isProviderAllowed p = true) ↔ ¬ key.PassesAs p model := by
  rw [isModelAllowed_of_unlisted honly hcombo hlist, isProviderAllowed_iff]
  constructor
  · intro h hpass
    have hallowed := h ⟨hpass.notBlocked, hpass.notBlacklisted, hpass.prefixNotBlacklisted, Or.inr hpass.listed⟩
    rw [hpass.unlisted] at hallowed
    exact absurd hallowed.2 Bool.false_ne_true
  · rintro hpass ⟨hblocks, hblack, hpre, hlisted⟩
    refine ⟨hblack, ?_⟩
    by_contra hun
    rw [Bool.not_eq_true] at hun
    rcases hlisted with h | h
    · rw [hun] at h
      cases h
    · exact hpass ⟨h, hun, hblack, hpre, hblocks⟩

/-! ### Restrictions -/

/-- An entry is added to a list, which is made if it is absent. -/
def AddsEntry (e : Text) (l l' : Option (List Text)) : Prop :=
  ∃ before after, l.getD [] = before ++ after ∧ l' = some (before ++ e :: after)

theorem AddsEntry.entriesIn {e : Text} {l l' : Option (List Text)} (h : AddsEntry e l l') : EntriesIn l l' := by
  obtain ⟨before, after, hl, rfl⟩ := h
  intro e' he'
  rw [hl, List.mem_append] at he'
  rw [Option.getD_some, List.mem_append, List.mem_cons]
  rcases he' with he' | he'
  · exact Or.inl he'
  · exact Or.inr (Or.inr he')

/-- What a key permits, another one permits, too. -/
structure PermitsLess (key' key : KeyAccess) : Prop where
  models : ∀ model provider, key'.isModelAllowed model provider = true → key.isModelAllowed model provider = true
  providers : ∀ p, key'.isProviderAllowed p = true → key.isProviderAllowed p = true

theorem Stricter.permitsLess (h : key.Stricter key') : PermitsLess key' key :=
  ⟨fun _ _ => h.isModelAllowed, fun _ => h.isProviderAllowed⟩

/-- The provider restrictions of a key hold for a model, unless the model string passes as one of another provider; and
entries of the blacklists permit nothing, entries of `allowed_models` deny nothing. -/
theorem restrictions_iff (key : KeyAccess) :
    (∀ p model : Text, key.onlyWhitelisted = false → ¬ "combo:".toList <+: model → key.Unlisted p model →
      ((key.isModelAllowed model (some p) = true → key.isProviderAllowed p = true) ↔ ¬ key.PassesAs p model)) ∧
      ∀ (e : Text) (l : Option (List Text)),
        (AddsEntry e key.blacklistedModels l → PermitsLess { key with blacklistedModels := l } key) ∧
        (AddsEntry e key.blacklistedProviders l → PermitsLess { key with blacklistedProviders := l } key) ∧
        (AddsEntry e key.allowedModels l → PermitsLess key { key with allowedModels := l }) := by
  refine ⟨fun p model honly hcombo hlist => isModelAllowed_iff_provider honly hcombo hlist, fun e l => ⟨?_, ?_, ?_⟩⟩
  · intro h
    exact Stricter.permitsLess ⟨h.entriesIn, fun _ => id, fun _ => id, rfl, rfl⟩
  · intro h
    exact Stricter.permitsLess ⟨fun _ => id, h.entriesIn, fun _ => id, rfl, rfl⟩
  · intro h
    exact Stricter.permitsLess ⟨fun _ => id, fun _ => id, h.entriesIn, rfl, rfl⟩

/-- A key for the models of one provider. -/
def onlyFor (provider : String) : KeyAccess := ⟨none, none, none, some [provider.toList], none, false⟩

theorem restrictions_iff_openai :
    ((onlyFor "openai").isModelAllowed "gpt-4o".toList (some "openai".toList) = true →
      (onlyFor "openai").isProviderAllowed "openai".toList = true) ∧
      PermitsLess { onlyFor "openai" with blacklistedModels := some ["gpt-4o".toList] } (onlyFor "openai") :=
  ⟨((restrictions_iff (onlyFor "openai")).1 "openai".toList "gpt-4o".toList rfl (by decide) (by decide)).mpr
      fun h => absurd h.unlisted (by decide),
    ((restrictions_iff (onlyFor "openai")).2 "gpt-4o".toList (some ["gpt-4o".toList])).1 ⟨[], [], rfl, rfl⟩⟩

/-- A router's own key for a model passes as one of the provider that the model is named after. -/
theorem not_restricted_openrouter :
    ¬ ∀ (key : KeyAccess) (p model : Text), key.onlyWhitelisted = false → ¬ "combo:".toList <+: model →
      key.Unlisted p model → key.isModelAllowed model (some p) = true → key.isProviderAllowed p = true := by
  intro h
  have hprovider := h (onlyFor "anthropic") "openrouter".toList "anthropic/claude-3".toList rfl (by decide) (by decide)
    (by decide)
  exact absurd hprovider (by decide)

end KeyAccess

end OpenProxy.Auth
