import OpenProxy.Routing.Database
import OpenProxy.Data.Machine

/-!
# Targets of combos

`add_target` and `delete_target`, the two operations that change the targets of a combo.  A target is a model or another
combo, and a combo may become a target of another one if `combo_in_chain` does not find the way back: a search, level by
level, through at most `MAX_SUB_COMBO_DEPTH` levels of sub-combos.

Two functions follow the sub-combos of a combo: `resolve_combo_to_targets` flattens a combo into its models, and
`compute_effective_context_window` takes the least window of its targets.  Both stop with an error below
`MAX_SUB_COMBO_DEPTH` levels, or at a combo that they are inside of already.  The recursion is on the number of levels that
may still be opened, `MAX_SUB_COMBO_DEPTH + 1 - depth`.  The list of visited combos is pushed to at the start of a call and
popped at its end, so a call gets the combos that are open above it.
-/

namespace OpenProxy.Combos

open Routing

/-! ### The store -/

/-- The errors of this crate that the operations on targets return. -/
inductive CoreError
  | validation (message : Text)
  | comboNotFound (id : Int)
  | accountNotFound (id : Int)
  | database (message : Text)
  deriving DecidableEq, Repr

/-- The database, with the columns that only the context window of a combo reads, and the last id that was given to a
target. -/
structure ComboStore where
  db : Database
  /-- `combos.context_window`. -/
  contextWindow : Int → Option Int
  /-- `models.context_length`. -/
  contextLength : Int → Option Int
  /-- The entry of `combo_targets` in `sqlite_sequence`. -/
  targetSeq : Int
  target_ids_le : ∀ ct ∈ db.comboTargets, ct.id ≤ targetSeq

structure AddTargetInput where
  comboId : Int
  providerId : Text
  accountId : Option Int
  modelRowId : Option Int
  subComboId : Option Int
  priorityOrder : Int
  description : Option Text
  selectedAccounts : Option (List Int)
  clientProfile : Option ClientProfile
  deriving DecidableEq, Repr

/-- `MAX_SUB_COMBO_DEPTH`. -/
def maxSubComboDepth : Nat := 5

/-! ### Formatting -/

/-- An `i64` in decimal. -/
def intText : Int → Text
  | .ofNat n => Nat.toDigits 10 n
  | .negSucc n => '-' :: Nat.toDigits 10 (n + 1)

/-- The debug format of an optional id of the type `name`. -/
def debugId (name : Text) : Option Int → Text
  | none => "None".toList
  | some id => "Some(".toList ++ name ++ "(".toList ++ intText id ++ "))".toList

/-- `ClientProfile::as_str`. -/
def profileText : ClientProfile → Text
  | .claudeCode => "claude-code".toList
  | .codex => "codex".toList
  | .cline => "cline".toList
  | .kilocode => "kilocode".toList
  | .kiro => "kiro".toList
  | .minimax => "minimax".toList
  | .commandCode => "commandcode".toList
  | .codeBuddy => "codebuddy".toList
  | .opencode => "opencode".toList
  | .antigravity => "antigravity".toList

/-! ### Sub-combos -/

/-- `SELECT DISTINCT sub_combo_id FROM combo_targets WHERE combo_id IN ...`. -/
def fetchSubComboIds (db : Database) (currentLevel : List Int) : List Int :=
  ((db.comboTargets.filter fun ct => currentLevel.contains ct.comboId).filterMap (·.subComboId)).dedup

/-- The loop of `combo_in_chain`, with the number of levels that are left. -/
def chainLoop (db : Database) (target : Int) : Nat → List Int → Bool
  | 0, _ => false
  | n + 1, currentLevel =>
    if currentLevel.isEmpty then false
    else
      let subIds := fetchSubComboIds db currentLevel
      if subIds.contains target then true else chainLoop db target n subIds

/-- `combo_in_chain`: a combo is the start or lies within `maxDepth` levels below it. -/
def comboInChain (db : Database) (target start : Int) (maxDepth : Nat) : Bool :=
  if start = target then true else chainLoop db target maxDepth [start]

/-! ### Validation -/

def validateFlatTarget (db : Database) (modelRowId : Int) (providerId : Text) : Except CoreError Unit :=
  match db.models.find? fun m => m.id = modelRowId with
  | none => throw (.validation ("model_row_id does not exist: ".toList ++ intText modelRowId))
  | some m =>
    if m.providerId ≠ providerId then
      throw (.validation ("model ".toList ++ intText modelRowId ++ " belongs to provider '".toList ++ m.providerId ++
        "', not '".toList ++ providerId ++ "'".toList))
    -- a provider that is not found counts as active
    else if !(db.providers.find? fun p => p.id = providerId).all (·.active) then
      throw (.validation ("provider '".toList ++ providerId ++
        "' is deactivated; reactivate it before adding it as a combo target".toList))
    else pure ()

def checkSubComboCycle (db : Database) (comboId subId : Int) : Except CoreError Unit :=
  if comboInChain db comboId subId maxSubComboDepth then
    throw (.validation ("adding sub-combo ".toList ++ intText subId ++ " to combo ".toList ++ intText comboId ++
      " would create a cycle".toList))
  else pure ()

def validateSubComboTarget (db : Database) (comboId subId : Int) : Except CoreError Unit :=
  if subId = comboId then throw (.validation "combo cannot contain itself".toList)
  else if !db.combos.any fun c => c.id = subId then
    throw (.validation ("sub_combo_id does not exist: ".toList ++ intText subId))
  else checkSubComboCycle db comboId subId

def validateAccount (db : Database) (accountId modelRowId : Option Int) : Except CoreError Unit :=
  match accountId with
  | none => pure ()
  | some aid =>
    if modelRowId.isNone then throw (.validation "account_id is only valid on flat (model) targets".toList)
    else if !db.accounts.any fun a => a.id = aid then throw (.accountNotFound aid)
    else pure ()

def duplicateTarget (input : AddTargetInput) : CoreError :=
  .validation ("duplicate target for combo ".toList ++ intText input.comboId ++ " (provider=".toList ++
    input.providerId ++ ", account=".toList ++ debugId "AccountId".toList input.accountId ++ ", model=".toList ++
    debugId "ModelRowId".toList input.modelRowId ++ ", sub_combo=".toList ++
    debugId "ComboId".toList input.subComboId ++ ")".toList)

/-- `check_duplicate_target`, which compares with `COALESCE(.., -1)`. -/
def checkDuplicateTarget (db : Database) (input : AddTargetInput) : Except CoreError Unit :=
  if db.comboTargets.any fun ct => decide (ct.comboId = input.comboId) && decide (ct.providerId = input.providerId) &&
      decide (ct.accountId.getD (-1) = input.accountId.getD (-1)) &&
      decide (ct.modelRowId.getD (-1) = input.modelRowId.getD (-1)) &&
      decide (ct.subComboId.getD (-1) = input.subComboId.getD (-1)) then
    throw (duplicateTarget input)
  else pure ()

def validateAddTarget (db : Database) (input : AddTargetInput) : Except CoreError Unit :=
  if input.modelRowId.isSome = input.subComboId.isSome then
    throw (.validation "must provide exactly one of model_row_id or sub_combo_id".toList)
  else if !db.combos.any fun c => c.id = input.comboId then throw (.comboNotFound input.comboId)
  else do
    match input.modelRowId with
    | some modelRowId => validateFlatTarget db modelRowId input.providerId
    | none => pure ()
    match input.subComboId with
    | some subId => validateSubComboTarget db input.comboId subId
    | none => pure ()
    validateAccount db input.accountId input.modelRowId
    checkDuplicateTarget db input

/-! ### Insertion -/

/-- The row that `add_target` inserts, with the defaults of the columns that it does not name. -/
def targetRow (id : Int) (input : AddTargetInput) : ComboTargetRow :=
  { id := id, comboId := input.comboId, providerId := input.providerId, accountId := input.accountId
    modelRowId := input.modelRowId, subComboId := input.subComboId, priorityOrder := input.priorityOrder, weight := 1
    active := true, cooldownMode := none, cooldownBaseSecs := none, cooldownMaxSecs := none, cooldownFactor := none
    thinkingEffort := none, description := input.description, selectedAccounts := input.selectedAccounts
    clientProfile := input.clientProfile.map profileText }

/-- `UNIQUE(combo_id, account_id, model_row_id)`, where a null differs from every value. -/
def violatesUnique (db : Database) (row : ComboTargetRow) : Bool :=
  row.accountId.isSome && row.modelRowId.isSome && db.comboTargets.any fun ct =>
    decide (ct.comboId = row.comboId) && decide (ct.accountId = row.accountId) &&
      decide (ct.modelRowId = row.modelRowId)

/-- The foreign keys of a row of `combo_targets`. -/
structure References (db : Database) (row : ComboTargetRow) : Prop where
  combo : row.comboId ∈ db.combos.map (·.id)
  provider : row.providerId ∈ db.providers.map (·.id)
  account : ∀ a ∈ row.accountId, a ∈ db.accounts.map (·.id)
  model : ∀ m ∈ row.modelRowId, m ∈ db.models.map (·.id)
  subCombo : ∀ c ∈ row.subComboId, c ∈ db.combos.map (·.id)

instance (db : Database) (row : ComboTargetRow) : Decidable (References db row) :=
  decidable_of_iff
    (row.comboId ∈ db.combos.map (·.id) ∧ row.providerId ∈ db.providers.map (·.id) ∧
      (∀ a ∈ row.accountId, a ∈ db.accounts.map (·.id)) ∧ (∀ m ∈ row.modelRowId, m ∈ db.models.map (·.id)) ∧
      ∀ c ∈ row.subComboId, c ∈ db.combos.map (·.id))
    ⟨fun ⟨h₁, h₂, h₃, h₄, h₅⟩ => ⟨h₁, h₂, h₃, h₄, h₅⟩, fun ⟨h₁, h₂, h₃, h₄, h₅⟩ => ⟨h₁, h₂, h₃, h₄, h₅⟩⟩

private theorem forall_mem_concat {α : Type} {p : α → Prop} {l : List α} {a : α} (hl : ∀ b ∈ l, p b) (ha : p a) :
    ∀ b ∈ l ++ [a], p b := by
  intro b hb
  rcases List.mem_append.mp hb with h | h
  · exact hl b h
  · rw [List.mem_singleton.mp h]
    exact ha

/-- The table with one more row. -/
def insertRow (st : ComboStore) (row : ComboTargetRow) (hid : row.id = st.targetSeq + 1)
    (hrefs : References st.db row) : ComboStore where
  db :=
    { st.db with
      comboTargets := st.db.comboTargets ++ [row]
      target_ids := by
        rw [List.map_append, List.nodup_append]
        refine ⟨st.db.target_ids, List.nodup_singleton _, ?_⟩
        intro i hi j hj hij
        obtain ⟨ct, hct, rfl⟩ := List.mem_map.mp hi
        have hle := st.target_ids_le ct hct
        rw [List.map_singleton, List.mem_singleton] at hj
        omega
      target_combo := forall_mem_concat st.db.target_combo hrefs.combo
      target_provider := forall_mem_concat st.db.target_provider hrefs.provider
      target_account := forall_mem_concat st.db.target_account hrefs.account
      target_model := forall_mem_concat st.db.target_model hrefs.model
      target_sub_combo := forall_mem_concat st.db.target_sub_combo hrefs.subCombo
      cooldown_target := by
        intro tc htc
        rw [List.map_append]
        exact List.mem_append_left _ (st.db.cooldown_target tc htc) }
  contextWindow := st.contextWindow
  contextLength := st.contextLength
  targetSeq := st.targetSeq + 1
  target_ids_le := by
    apply forall_mem_concat
    · intro ct hct
      have hle := st.target_ids_le ct hct
      omega
    · exact le_of_eq hid

/-- `add_target`: the id of the new target. -/
def addTarget (st : ComboStore) (input : AddTargetInput) : Except CoreError (ComboStore × Int) := do
  validateAddTarget st.db input
  let row := targetRow (st.targetSeq + 1) input
  if violatesUnique st.db row then throw (duplicateTarget input)
  else if h : References st.db row then pure (insertRow st row rfl h, row.id)
  else throw (.validation ("provider_id or sub_combo_id does not exist: ".toList ++ input.providerId))

/-- `delete_target`, with the cascade to the cooldowns of the target. -/
def deleteTarget (st : ComboStore) (id : Int) : ComboStore where
  db :=
    { st.db with
      comboTargets := st.db.comboTargets.filter fun ct => ct.id ≠ id
      targetCooldowns := st.db.targetCooldowns.filter fun tc => tc.comboTargetId ≠ id
      target_ids := (List.filter_sublist.map _).nodup st.db.target_ids
      cooldown_targets := (List.filter_sublist.map _).nodup st.db.cooldown_targets
      target_combo := fun ct hct => st.db.target_combo ct (List.mem_filter.mp hct).1
      target_provider := fun ct hct => st.db.target_provider ct (List.mem_filter.mp hct).1
      target_account := fun ct hct => st.db.target_account ct (List.mem_filter.mp hct).1
      target_model := fun ct hct => st.db.target_model ct (List.mem_filter.mp hct).1
      target_sub_combo := fun ct hct => st.db.target_sub_combo ct (List.mem_filter.mp hct).1
      cooldown_target := by
        intro tc htc
        obtain ⟨hmem, hne⟩ := List.mem_filter.mp htc
        obtain ⟨ct, hct, hid⟩ := List.mem_map.mp (st.db.cooldown_target tc hmem)
        refine List.mem_map.mpr ⟨ct, List.mem_filter.mpr ⟨hct, ?_⟩, hid⟩
        rw [hid]
        exact hne }
  contextWindow := st.contextWindow
  contextLength := st.contextLength
  targetSeq := st.targetSeq
  target_ids_le := fun ct hct => st.target_ids_le ct (List.mem_filter.mp hct).1

/-! ### Runs -/

inductive TargetOp
  | add (input : AddTargetInput)
  | delete (id : Int)
  deriving DecidableEq, Repr

/-- One call; a call that fails leaves the store as it is. -/
def targetStep (st : ComboStore) : TargetOp → ComboStore × Except CoreError Unit
  | .add input =>
    match addTarget st input with
    | .ok (st', _) => (st', .ok ())
    | .error e => (st, .error e)
  | .delete id => (deleteTarget st id, .ok ())

/-! ### Resolution -/

def depthExceeded : CoreError :=
  .validation ("max sub-combo depth (".toList ++ intText maxSubComboDepth ++ ") exceeded".toList)

def cyclicCombo (comboId : Int) : CoreError :=
  .validation ("cyclic combo detected at id ".toList ++ intText comboId)

/-! ### Targets -/

/-- What a target of a sub-combo takes over from the target that stands for the sub-combo. -/
def inheritFrom (t st : ComboTarget) : ComboTarget :=
  { st with
    thinkingEffort := t.thinkingEffort.or st.thinkingEffort
    inheritedTargetId := st.inheritedTargetId.or (some (t.inheritedTargetId.getD t.id)) }

/-- `resolve_combo_to_targets`, with the levels that may be opened. -/
def resolveLevels (db : Database) (now : Timestamp) : Nat → List Int → Int → Except CoreError (List ComboTarget)
  | 0, _, _ => .error depthExceeded
  | levels + 1, visited, comboId =>
    if visited.contains comboId then .error (cyclicCombo comboId)
    else
      let resolved : Except CoreError (List (List ComboTarget)) := (db.listTargets now comboId).mapM fun t =>
        match t.subComboId with
        | some subId => (resolveLevels db now levels (visited ++ [comboId]) subId).map fun sub => sub.map (inheritFrom t)
        | none => .ok [t]
      resolved.map List.flatten

def resolveComboToTargets (db : Database) (now : Timestamp) (comboId : Int) (visited : List Int) (depth : Nat) :
    Except CoreError (List ComboTarget) :=
  resolveLevels db now (maxSubComboDepth + 1 - depth) visited comboId

/-! ### Context windows -/

/-- The windows of models that are known by a part of their name. -/
def knownContextLengths : List (Text × Int) :=
  [("claude-3".toList, 200000), ("claude-sonnet-4".toList, 200000), ("claude-opus-4".toList, 200000),
    ("claude-opus-3".toList, 200000), ("gemini-2.5-pro".toList, 1048576), ("gemini-2.5-flash".toList, 1048576),
    ("gemini-2".toList, 1048576), ("gemini-1.5-pro".toList, 2097152), ("gemini-1.5-flash".toList, 1048576),
    ("gpt-4o".toList, 128000), ("gpt-4-turbo".toList, 128000), ("gpt-4-32k".toList, 32000), ("o1".toList, 200000),
    ("o3".toList, 200000), ("deepseek-chat".toList, 64000), ("deepseek-reasoner".toList, 64000),
    ("llama-3.1-405b".toList, 131072), ("llama-3.1-70b".toList, 131072), ("llama-3.1-8b".toList, 131072),
    ("llama-3.3-70b".toList, 131072), ("qwen2.5".toList, 32768), ("qwen-max".toList, 32768),
    ("mistral-large".toList, 128000)]

def findSubstringMatch (haystack : Text) (table : List (Text × Int)) : Option Int :=
  table.findSome? fun entry => if (find haystack entry.1).isSome then some entry.2 else none

section

-- `str::to_lowercase`
variable (toLowercase : Text → Text)

def toLowerCow (s : Text) : Text := if s.any Char.isUpper then toLowercase s else s

def inferContextLength (modelId : Text) : Option Int :=
  findSubstringMatch (toLowerCow toLowercase modelId) knownContextLengths

/-- The window of a target that is a model. -/
def modelContextWindow (st : ComboStore) (ct : ComboTargetRow) : Option Int :=
  ct.modelRowId.bind fun modelRowId =>
    let m := st.db.models.find? fun m => m.id = modelRowId
    let modelId := (m.map (·.modelId)).getD []
    ((m.bind fun m => st.contextLength m.id).filter fun c => decide (0 < c)).or
      (if modelId.isEmpty then none else inferContextLength toLowercase modelId)

/-- The rows that the context window of a combo is taken over. -/
def windowRows (db : Database) (comboId : Int) : List ComboTargetRow :=
  db.comboTargets.filter fun ct => decide (ct.comboId = comboId) && ct.active &&
    (ct.subComboId.isSome ||
      (db.providerActive ct.providerId &&
        (ct.modelRowId.bind fun r => db.models.find? fun m => m.id = r).any (·.active))) &&
    !(ct.modelRowId.isNone && ct.subComboId.isNone)

/-- One round of the loop over the windows of the targets. -/
def minWindow (acc window : Option Int) : Option Int :=
  match window.filter fun cw => decide (0 < cw) with
  | some cw => some (acc.elim cw fun least => min least cw)
  | none => acc

/-- `compute_effective_context_window_recursive`, with the levels that may be opened. -/
def windowLevels (st : ComboStore) : Nat → List Int → Int → Except CoreError (Option Int)
  | 0, _, _ => .error depthExceeded
  | levels + 1, visited, comboId =>
    if visited.contains comboId then .error (cyclicCombo comboId)
    else
      match st.db.combos.find? fun c => c.id = comboId with
      | none =>
        .error (.database ("get context_window for combo ".toList ++ intText comboId ++
          ": Query returned no rows".toList))
      | some combo =>
        let windows : Except CoreError (List (Option Int)) := (windowRows st.db comboId).mapM fun ct =>
          match ct.subComboId with
          | some subId => windowLevels st levels (visited ++ [comboId]) subId
          | none => .ok (modelContextWindow toLowercase st ct)
        -- an explicit window wins over the windows of the targets
        windows.map fun windows => (st.contextWindow combo.id).or (windows.foldl minWindow none)

def computeEffectiveContextWindow (st : ComboStore) (comboId : Int) : Except CoreError (Option Int) :=
  windowLevels toLowercase st (maxSubComboDepth + 1) [] comboId

end

end OpenProxy.Combos
