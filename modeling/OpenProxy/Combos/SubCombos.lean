import OpenProxy.Combos.Targets
import OpenProxy.Data.Walk

/-!
# Chains of sub-combos

The combos and their sub-combos form a graph.  The check of `add_target` looks `MAX_SUB_COMBO_DEPTH` levels below the new
sub-combo, so no cycle of up to `MAX_SUB_COMBO_DEPTH + 1` combos is ever closed (`noShortCycle_step`).  The resolution of a
combo follows the same graph, and with no short cycle in the way it fails for one reason only: a chain of sub-combos below
the combo that is longer than `MAX_SUB_COMBO_DEPTH` (`settles_resolveLevels`, `settles_windowLevels`).
-/

namespace OpenProxy.Combos

open Routing

/-- The relation `combo → sub_combo_id` of the targets. -/
def SubCombo (db : Database) (c s : Int) : Prop := ∃ ct ∈ db.comboTargets, ct.comboId = c ∧ ct.subComboId = some s

/-- A chain of sub-combos, with the number of its links. -/
abbrev SubChain (db : Database) : Nat → Int → Int → Prop := Walk (SubCombo db)

/-! ### The search of `combo_in_chain` -/

variable {db : Database}

theorem mem_fetchSubComboIds {level : List Int} {s : Int} :
    s ∈ fetchSubComboIds db level ↔ ∃ c ∈ level, SubCombo db c s := by
  unfold fetchSubComboIds
  simp only [List.mem_dedup, List.mem_filterMap, List.mem_filter, List.contains_iff_mem]
  constructor
  · rintro ⟨ct, ⟨hct, hlevel⟩, hs⟩
    exact ⟨ct.comboId, hlevel, ct, hct, rfl, hs⟩
  · rintro ⟨c, hc, ct, hct, rfl, hs⟩
    exact ⟨ct, ⟨hct, hc⟩, hs⟩

theorem chainLoop_iff {target : Int} (n : Nat) (level : List Int) :
    chainLoop db target n level = true ↔ ∃ m < n, ∃ c ∈ level, SubChain db (m + 1) c target := by
  induction n generalizing level with
  | zero => simp [chainLoop]
  | succ n ih =>
    unfold chainLoop
    split
    · rename_i hempty
      rw [List.isEmpty_iff] at hempty
      simp [hempty]
    · simp only [List.contains_iff_mem]
      split
      · rename_i hmem
        obtain ⟨c, hc, hs⟩ := mem_fetchSubComboIds.mp hmem
        exact ⟨fun _ => ⟨0, by omega, c, hc, .single hs⟩, fun _ => rfl⟩
      · rename_i hmem
        rw [ih]
        -- the chains from this level and those from the next one differ by their first link
        constructor
        · rintro ⟨m, hm, s, hs, hchain⟩
          obtain ⟨c, hc, hcs⟩ := mem_fetchSubComboIds.mp hs
          exact ⟨m + 1, by omega, c, hc, .cons hcs hchain⟩
        · rintro ⟨m, hm, c, hc, hchain⟩
          obtain ⟨s, hcs, hrest⟩ := Walk.succ_iff.mp hchain
          have hs : s ∈ fetchSubComboIds db level := mem_fetchSubComboIds.mpr ⟨c, hc, hcs⟩
          cases m with
          | zero =>
            cases hrest
            exact absurd hs hmem
          | succ m => exact ⟨m, by omega, s, hs, hrest⟩

theorem comboInChain_iff {target start : Int} {maxDepth : Nat} :
    comboInChain db target start maxDepth = true ↔ ∃ n ≤ maxDepth, SubChain db n start target := by
  unfold comboInChain
  split
  · rename_i h
    rw [h]
    exact ⟨fun _ => ⟨0, by omega, .nil target⟩, fun _ => rfl⟩
  · rename_i hne
    rw [chainLoop_iff]
    constructor
    · rintro ⟨m, hm, c, hc, hchain⟩
      rw [List.mem_singleton.mp hc] at hchain
      exact ⟨m + 1, by omega, hchain⟩
    · rintro ⟨n, hn, hchain⟩
      cases n with
      | zero =>
        cases hchain
        exact absurd rfl hne
      | succ m => exact ⟨m, by omega, start, List.mem_singleton_self _, hchain⟩

/-! ### What a step does to the graph -/

theorem validateAddTarget_ok {input : AddTargetInput} {s : Int} (h : validateAddTarget db input = .ok ())
    (hs : input.subComboId = some s) : comboInChain db input.comboId s maxSubComboDepth = false := by
  unfold validateAddTarget at h
  split at h
  · exact absurd h (by simp [throw, throwThe, MonadExceptOf.throw])
  · rename_i hone
    have hm : input.modelRowId = none := by
      rw [hs] at hone
      simpa using hone
    split at h
    · exact absurd h (by simp [throw, throwThe, MonadExceptOf.throw])
    · rw [hm, hs] at h
      unfold validateSubComboTarget checkSubComboCycle at h
      cases hc : comboInChain db input.comboId s maxSubComboDepth with
      | false => rfl
      | true =>
        exfalso
        simp only [hc, ↓reduceIte] at h
        split at h
        · cases h
        · split at h
          · cases h
          · cases h

/-- A successful insertion adds one row, which passed the check of sub-combos. -/
theorem addTarget_ok {st st' : ComboStore} {input : AddTargetInput} {id : Int} (h : addTarget st input = .ok (st', id)) :
    validateAddTarget st.db input = .ok () ∧
      ∃ hrefs, st' = insertRow st (targetRow (st.targetSeq + 1) input) rfl hrefs := by
  unfold addTarget at h
  cases hv : validateAddTarget st.db input with
  | error e =>
    rw [hv] at h
    cases h
  | ok u =>
    refine ⟨rfl, ?_⟩
    rw [hv] at h
    simp only [bind, Except.bind] at h
    split at h
    · cases h
    · split at h
      · rename_i hrefs
        cases h
        exact ⟨hrefs, rfl⟩
      · cases h

/-- A step inserts a row that passed the checks, deletes a row, or changes nothing. -/
theorem targetStep_cases (st : ComboStore) (op : TargetOp) :
    (targetStep st op).1 = st ∨
      (∃ input hrefs, validateAddTarget st.db input = .ok () ∧
        (targetStep st op).1 = insertRow st (targetRow (st.targetSeq + 1) input) rfl hrefs) ∨
      ∃ id, (targetStep st op).1 = deleteTarget st id := by
  cases op with
  | add input =>
    simp only [targetStep]
    cases hadd : addTarget st input with
    | error e => exact .inl rfl
    | ok r =>
      obtain ⟨hv, hrefs, heq⟩ := addTarget_ok hadd
      exact .inr (.inl ⟨input, hrefs, hv, heq⟩)
  | delete id => exact .inr (.inr ⟨id, rfl⟩)

theorem subCombo_insertRow {st : ComboStore} {row : ComboTargetRow} {hid : row.id = st.targetSeq + 1}
    {hrefs : References st.db row} {c s : Int} :
    SubCombo (insertRow st row hid hrefs).db c s ↔
      SubCombo st.db c s ∨ c = row.comboId ∧ row.subComboId = some s := by
  unfold SubCombo insertRow
  simp only [List.mem_append, List.mem_singleton]
  constructor
  · rintro ⟨ct, hct | rfl, hc, hs⟩
    · exact .inl ⟨ct, hct, hc, hs⟩
    · exact .inr ⟨hc.symm, hs⟩
  · rintro (⟨ct, hct, hc, hs⟩ | ⟨hc, hs⟩)
    · exact ⟨ct, .inl hct, hc, hs⟩
    · exact ⟨row, .inr rfl, hc.symm, hs⟩

theorem subCombo_deleteTarget {st : ComboStore} {id c s : Int} (h : SubCombo (deleteTarget st id).db c s) :
    SubCombo st.db c s := by
  obtain ⟨ct, hct, hc, hs⟩ := h
  exact ⟨ct, (List.mem_filter.mp hct).1, hc, hs⟩

/-! ### The invariants -/

/-- No chain of at most `MAX_SUB_COMBO_DEPTH + 1` links leads from a combo back to it. -/
def NoShortCycle (db : Database) : Prop := ∀ n c, 1 ≤ n → n ≤ maxSubComboDepth + 1 → ¬ SubChain db n c c

/-- Everything is active, and nothing cools down. -/
structure AllActive (db : Database) : Prop where
  providers : ∀ p ∈ db.providers, p.active = true
  models : ∀ m ∈ db.models, m.active = true
  targets : ∀ ct ∈ db.comboTargets, ct.active = true
  cooldowns : db.targetCooldowns = []

theorem noShortCycle_insertRow {st : ComboStore} {input : AddTargetInput} {id : Int}
    {hid : (targetRow id input).id = st.targetSeq + 1} {hrefs : References st.db (targetRow id input)}
    (hv : validateAddTarget st.db input = .ok ()) (h : NoShortCycle st.db) :
    NoShortCycle (insertRow st (targetRow id input) hid hrefs).db := by
  intro n c hn hmax hcycle
  cases hs : input.subComboId with
  | none =>
    -- a model adds no link
    refine h n c hn hmax (hcycle.mono fun a b hab => ?_)
    rcases subCombo_insertRow.mp hab with hold | ⟨-, hnew⟩
    · exact hold
    · exact absurd (hs.symm.trans hnew) (by simp)
  | some s =>
    have hlinks : ∀ a b, SubCombo (insertRow st (targetRow id input) hid hrefs).db a b →
        SubCombo st.db a b ∨ a = input.comboId ∧ b = s := by
      intro a b hab
      rcases subCombo_insertRow.mp hab with hold | ⟨ha, hb⟩
      · exact .inl hold
      · exact .inr ⟨ha, (Option.some.inj (hs.symm.trans hb)).symm⟩
    rcases closed_walk_insert hlinks hcycle with hold | ⟨k, hk, hback⟩
    · exact h n c hn hmax hold
    · have hfound : comboInChain st.db input.comboId s maxSubComboDepth = true :=
        comboInChain_iff.mpr ⟨k, by omega, hback⟩
      rw [validateAddTarget_ok hv hs] at hfound
      cases hfound

theorem noShortCycle_step {st : ComboStore} (op : TargetOp) (h : NoShortCycle st.db) :
    NoShortCycle (targetStep st op).1.db := by
  rcases targetStep_cases st op with heq | ⟨input, hrefs, hv, heq⟩ | ⟨id, heq⟩
  · rw [heq]
    exact h
  · rw [heq]
    exact noShortCycle_insertRow hv h
  · rw [heq]
    intro n c hn hmax hcycle
    exact h n c hn hmax (hcycle.mono fun _ _ => subCombo_deleteTarget)

theorem allActive_step {st : ComboStore} (op : TargetOp) (h : AllActive st.db) : AllActive (targetStep st op).1.db := by
  rcases targetStep_cases st op with heq | ⟨input, hrefs, -, heq⟩ | ⟨id, heq⟩
  · rw [heq]
    exact h
  · rw [heq]
    refine ⟨h.providers, h.models, ?_, h.cooldowns⟩
    intro ct hct
    rcases List.mem_append.mp hct with hold | hnew
    · exact h.targets ct hold
    · rw [List.mem_singleton.mp hnew]
      rfl
  · rw [heq]
    refine ⟨h.providers, h.models, fun ct hct => h.targets ct (List.mem_filter.mp hct).1, ?_⟩
    show st.db.targetCooldowns.filter _ = []
    rw [h.cooldowns]
    rfl

/-! ### Outcomes of a resolution -/

/-- The depth error where the chains are too deep, and a value elsewhere. -/
def Settles {β : Type} (x : Except CoreError β) (deep : Prop) : Prop :=
  (deep → x = .error depthExceeded) ∧ (¬ deep → ∃ b, x = .ok b)

section

variable {α β γ : Type} {x : Except CoreError β} {deep deep' : Prop}

theorem Settles.congr (h : Settles x deep) (hiff : deep' ↔ deep) : Settles x deep' :=
  ⟨fun hd => h.1 (hiff.mp hd), fun hd => h.2 fun hd' => hd (hiff.mpr hd')⟩

theorem Settles.map (h : Settles x deep) (f : β → γ) : Settles (x.map f) deep := by
  constructor
  · intro hd
    rw [h.1 hd]
    rfl
  · intro hd
    obtain ⟨b, hb⟩ := h.2 hd
    exact ⟨f b, by rw [hb]; rfl⟩

/-- A loop over targets fails where one of them does. -/
theorem settles_mapM {f : α → Except CoreError β} {deepAt : α → Prop} {l : List α}
    (h : ∀ a ∈ l, Settles (f a) (deepAt a)) : Settles (l.mapM f) (∃ a ∈ l, deepAt a) := by
  induction l with
  | nil => exact ⟨fun ⟨a, ha, _⟩ => absurd ha (List.not_mem_nil), fun _ => ⟨[], rfl⟩⟩
  | cons a l ih =>
    have ha := h a (List.mem_cons_self)
    have hl := ih fun b hb => h b (List.mem_cons_of_mem a hb)
    rw [List.mapM_cons]
    constructor
    · rintro ⟨b, hb, hdeep⟩
      by_cases hda : deepAt a
      · rw [ha.1 hda]
        rfl
      · obtain ⟨y, hy⟩ := ha.2 hda
        rcases List.mem_cons.mp hb with rfl | hbl
        · exact absurd hdeep hda
        · rw [hy, hl.1 ⟨b, hbl, hdeep⟩]
          rfl
    · intro hnone
      obtain ⟨y, hy⟩ := ha.2 fun hda => hnone ⟨a, List.mem_cons_self, hda⟩
      obtain ⟨ys, hys⟩ := hl.2 fun ⟨b, hb, hdeep⟩ => hnone ⟨b, List.mem_cons_of_mem a hb, hdeep⟩
      exact ⟨y :: ys, by rw [hy, hys]; rfl⟩

end

/-! ### The rows that a resolution follows -/

theorem mem_listTargets_subCombo (hactive : AllActive db) {now : Timestamp} {c s : Int} :
    (∃ t ∈ db.listTargets now c, t.subComboId = some s) ↔ SubCombo db c s := by
  unfold Database.listTargets
  simp only [List.mem_map, (List.perm_insertionSort Database.byPriority _).mem_iff, List.mem_filter,
    Bool.and_eq_true, decide_eq_true_eq]
  constructor
  · rintro ⟨t, ⟨r, ⟨hr, hc, -⟩, rfl⟩, hs⟩
    obtain ⟨ct, hct, hjoin⟩ := List.mem_filterMap.mp hr
    obtain ⟨p, -, rfl⟩ := Option.map_eq_some_iff.mp hjoin
    exact ⟨ct, hct, hc, hs⟩
  · rintro ⟨ct, hct, hc, hs⟩
    obtain ⟨p, hp, hpid⟩ := List.mem_map.mp (db.target_provider ct hct)
    have hfind : (db.providers.find? fun p => p.id = ct.providerId) = some p :=
      (find?_key_eq_some (·.id) db.provider_ids).mpr ⟨hp, hpid⟩
    -- the joined row passes every condition of the query
    refine ⟨_, ⟨⟨ct, p, none, ct.modelRowId.bind fun r => db.models.find? fun m => m.id = r, none⟩,
      ⟨List.mem_filterMap.mpr ⟨ct, hct, ?_⟩, hc, ?_, rfl⟩, rfl⟩, hs⟩
    · rw [hfind]
      simp [hactive.cooldowns, Database.liveModelCooldowns, Database.maxText]
    · have hmodel : ct.modelRowId.isNone ||
          (ct.modelRowId.bind fun r => db.models.find? fun m => m.id = r).any (·.active) := by
        cases hm : ct.modelRowId with
        | none => rfl
        | some r =>
          obtain ⟨m, hmem, hid⟩ := List.mem_map.mp (db.target_model ct hct r (by rw [hm]; rfl))
          have hmfind : (db.models.find? fun m => m.id = r) = some m :=
            (find?_key_eq_some (·.id) db.model_ids).mpr ⟨hmem, hid⟩
          simp [hmfind, hactive.models m hmem]
      unfold Database.JoinedRow.eligible
      simp only [hactive.providers p hp, hactive.targets ct hct, hmodel, hs, Option.isNone_some, Bool.and_false,
        Bool.not_false, Bool.and_self]

theorem mem_windowRows_subCombo (hactive : AllActive db) {c s : Int} :
    (∃ ct ∈ windowRows db c, ct.subComboId = some s) ↔ SubCombo db c s := by
  unfold windowRows
  constructor
  · rintro ⟨ct, hct, hs⟩
    obtain ⟨hmem, hcond⟩ := List.mem_filter.mp hct
    simp only [Bool.and_eq_true, decide_eq_true_eq] at hcond
    exact ⟨ct, hmem, hcond.1.1.1, hs⟩
  · rintro ⟨ct, hct, hc, hs⟩
    refine ⟨ct, List.mem_filter.mpr ⟨hct, ?_⟩, hs⟩
    simp [hc, hs, hactive.targets ct hct]

/-- One level of a resolution fails where a chain from one of the sub-combos is too long. -/
theorem settles_level {α β : Type} {rows : List α} {sub : α → Option Int} {f : α → Except CoreError β} {c : Int}
    {levels : Nat} (hrows : ∀ s, (∃ t ∈ rows, sub t = some s) ↔ SubCombo db c s)
    (hmodel : ∀ t ∈ rows, sub t = none → ∃ b, f t = .ok b)
    (hsub : ∀ t ∈ rows, ∀ s, sub t = some s → Settles (f t) (∃ x, SubChain db levels s x)) :
    Settles (rows.mapM f) (∃ x, SubChain db (levels + 1) c x) := by
  have hloop : Settles (rows.mapM f) (∃ t ∈ rows, ∃ s, sub t = some s ∧ ∃ x, SubChain db levels s x) := by
    apply settles_mapM
    intro t ht
    cases hs : sub t with
    | none =>
      refine ⟨?_, fun _ => hmodel t ht hs⟩
      rintro ⟨s, h, -⟩
      cases h
    | some s =>
      refine (hsub t ht s hs).congr ?_
      constructor
      · rintro ⟨s', h, hx⟩
        cases h
        exact hx
      · exact fun hx => ⟨s, rfl, hx⟩
  refine hloop.congr ?_
  constructor
  · rintro ⟨x, hx⟩
    obtain ⟨s, hcs, hrest⟩ := Walk.succ_iff.mp hx
    obtain ⟨t, ht, hs⟩ := (hrows s).mpr hcs
    exact ⟨t, ht, s, hs, x, hrest⟩
  · rintro ⟨t, ht, s, hs, x, hrest⟩
    exact ⟨x, .cons ((hrows s).mp ⟨t, ht, hs⟩) hrest⟩

/-! ### The combos that a call is inside of -/

/-- Each visited combo has a chain to the current one, and the levels that are left fit below it. -/
structure Entered (db : Database) (levels : Nat) (visited : List Int) (c : Int) : Prop where
  levels_le : levels ≤ maxSubComboDepth + 1
  chains : ∀ v ∈ visited, ∃ n, 1 ≤ n ∧ n + levels ≤ maxSubComboDepth + 1 ∧ SubChain db n v c

namespace Entered

variable {levels : Nat} {visited : List Int} {c s : Int}

theorem start (c : Int) : Entered db (maxSubComboDepth + 1) [] c := ⟨le_refl _, by simp⟩

theorem not_mem (hcycle : NoShortCycle db) (h : Entered db (levels + 1) visited c) : visited.contains c = false := by
  rw [Bool.eq_false_iff]
  intro hmem
  rw [List.contains_iff_mem] at hmem
  obtain ⟨n, hn, hle, hchain⟩ := h.chains c hmem
  exact hcycle n c hn (by omega) hchain

theorem push (h : Entered db (levels + 1) visited c) (hs : SubCombo db c s) :
    Entered db levels (visited ++ [c]) s := by
  have hle := h.levels_le
  refine ⟨by omega, ?_⟩
  intro v hv
  rcases List.mem_append.mp hv with hold | hnew
  · obtain ⟨n, hn, hlen, hchain⟩ := h.chains v hold
    exact ⟨n + 1, by omega, by omega, hchain.trans (.single hs)⟩
  · rw [List.mem_singleton.mp hnew]
    exact ⟨1, by omega, by omega, .single hs⟩

end Entered

theorem settles_resolveLevels (hactive : AllActive db) (hcycle : NoShortCycle db) (now : Timestamp) {levels : Nat}
    {visited : List Int} {c : Int} (h : Entered db levels visited c) :
    Settles (resolveLevels db now levels visited c) (∃ x, SubChain db levels c x) := by
  induction levels generalizing visited c with
  | zero => exact ⟨fun _ => rfl, fun hnone => absurd ⟨c, .nil c⟩ hnone⟩
  | succ levels ih =>
    unfold resolveLevels
    rw [h.not_mem hcycle, if_neg Bool.false_ne_true]
    refine Settles.map ?_ _
    refine settles_level (fun s => mem_listTargets_subCombo hactive) ?_ ?_
    · intro t _ hs
      exact ⟨[t], by simp only [hs]⟩
    · intro t ht s hs
      simp only [hs]
      exact (ih (h.push ((mem_listTargets_subCombo hactive).mp ⟨t, ht, hs⟩))).map _

theorem settles_windowLevels (toLowercase : Text → Text) {st : ComboStore} (hactive : AllActive st.db)
    (hcycle : NoShortCycle st.db) {levels : Nat} {visited : List Int} {c : Int} (h : Entered st.db levels visited c)
    (hc : c ∈ st.db.combos.map (·.id)) :
    Settles (windowLevels toLowercase st levels visited c) (∃ x, SubChain st.db levels c x) := by
  induction levels generalizing visited c with
  | zero => exact ⟨fun _ => rfl, fun hnone => absurd ⟨c, .nil c⟩ hnone⟩
  | succ levels ih =>
    unfold windowLevels
    rw [h.not_mem hcycle, if_neg Bool.false_ne_true]
    obtain ⟨combo, hmem, hid⟩ := List.mem_map.mp hc
    have hfind : (st.db.combos.find? fun combo => combo.id = c) = some combo :=
      (find?_key_eq_some (·.id) st.db.combo_ids).mpr ⟨hmem, hid⟩
    rw [hfind]
    refine Settles.map ?_ _
    refine settles_level (fun s => mem_windowRows_subCombo hactive) ?_ ?_
    · intro ct _ hs
      exact ⟨modelContextWindow toLowercase st ct, by simp only [hs]⟩
    · intro ct hct s hs
      simp only [hs]
      -- a sub-combo of a target exists
      have hsub : SubCombo st.db c s := (mem_windowRows_subCombo hactive).mp ⟨ct, hct, hs⟩
      have hexists := hsub
      obtain ⟨ct', hct', -, hs'⟩ := hexists
      exact ih (h.push hsub) (st.db.target_sub_combo ct' hct' s hs')

/-! ### Runs -/

/-- Every chain of sub-combos below a combo has at most `MAX_SUB_COMBO_DEPTH` links. -/
def ShallowBelow (db : Database) (c : Int) : Prop := ∀ n x, SubChain db n c x → n ≤ maxSubComboDepth

theorem not_shallowBelow_iff {c : Int} : ¬ ShallowBelow db c ↔ ∃ x, SubChain db (maxSubComboDepth + 1) c x := by
  constructor
  · intro h
    by_contra hnone
    apply h
    intro n x hchain
    by_contra hn
    exact hnone (hchain.take (by omega))
  · rintro ⟨x, hchain⟩ hshallow
    have hle := hshallow _ x hchain
    omega

/-- What both functions return for a combo. -/
structure Resolved (toLowercase : Text → Text) (now : Timestamp) (st : ComboStore) (c : Int) : Prop where
  targets : ∃ ts, resolveComboToTargets st.db now c [] 0 = .ok ts
  window : ∃ w, computeEffectiveContextWindow toLowercase st c = .ok w

/-- The graph of sub-combos has no cycle, and every combo is resolved. -/
def AlwaysResolvable (toLowercase : Text → Text) (now : Timestamp) (st : ComboStore) : Prop :=
  (∀ n c, 1 ≤ n → ¬ SubChain st.db n c c) ∧ ∀ c ∈ st.db.combos.map (·.id), Resolved toLowercase now st c

theorem noShortCycle_run {st : ComboStore} (hempty : st.db.comboTargets = []) (ops : List TargetOp) :
    NoShortCycle (runState targetStep st ops).db := by
  refine @runState_invariant _ _ _ targetStep (fun st => NoShortCycle st.db) st ops (fun _ op => noShortCycle_step op) ?_
  intro n c hn _ hchain
  cases hchain with
  | nil => omega
  | cons hlink _ =>
    obtain ⟨ct, hct, -⟩ := hlink
    rw [hempty] at hct
    cases hct

/-- In every run, no cycle of up to six combos is closed, and a combo is resolved if and only if no chain of more than
five links lies below it; otherwise both functions return the depth error. -/
theorem subCombos_run (toLowercase : Text → Text) (now : Timestamp) (st : ComboStore)
    (hempty : st.db.comboTargets = []) (hactive : AllActive st.db) (ops : List TargetOp) :
    NoShortCycle (runState targetStep st ops).db ∧
      ∀ c ∈ (runState targetStep st ops).db.combos.map (·.id),
        (ShallowBelow (runState targetStep st ops).db c →
          Resolved toLowercase now (runState targetStep st ops) c) ∧
        (¬ ShallowBelow (runState targetStep st ops).db c →
          resolveComboToTargets (runState targetStep st ops).db now c [] 0 = .error depthExceeded ∧
          computeEffectiveContextWindow toLowercase (runState targetStep st ops) c = .error depthExceeded) := by
  have hcycle := noShortCycle_run hempty ops
  have hall : AllActive (runState targetStep st ops).db :=
    @runState_invariant _ _ _ targetStep (fun st => AllActive st.db) st ops (fun _ op => allActive_step op) hactive
  refine ⟨hcycle, fun c hc => ?_⟩
  have htargets := settles_resolveLevels hall hcycle now (Entered.start c)
  have hwindow := settles_windowLevels toLowercase hall hcycle (Entered.start c) hc
  constructor
  · intro hshallow
    have hnot : ¬ ∃ x, SubChain (runState targetStep st ops).db (maxSubComboDepth + 1) c x :=
      fun hx => not_shallowBelow_iff.mpr hx hshallow
    exact ⟨htargets.2 hnot, hwindow.2 hnot⟩
  · intro hdeep
    have hx := not_shallowBelow_iff.mp hdeep
    exact ⟨htargets.1 hx, hwindow.1 hx⟩

theorem target_account_nil :
    ∀ ct ∈ ([] : List ComboTargetRow), ∀ a ∈ ct.accountId, a ∈ ([] : List AccountRow).map (·.id) := by simp

theorem cooldown_target_nil :
    ∀ tc ∈ ([] : List TargetCooldownRow), tc.comboTargetId ∈ ([] : List ComboTargetRow).map (·.id) := by simp

/-- Seven combos, one provider, and no target yet. -/
def sevenCombos : ComboStore where
  db :=
    { providers := [⟨"hub".toList, true, .account⟩], models := [], accounts := []
      combos := [⟨1, "a".toList, .priority, 1⟩, ⟨2, "b".toList, .priority, 1⟩, ⟨3, "c".toList, .priority, 1⟩,
        ⟨4, "d".toList, .priority, 1⟩, ⟨5, "e".toList, .priority, 1⟩, ⟨6, "f".toList, .priority, 1⟩,
        ⟨7, "g".toList, .priority, 1⟩]
      comboTargets := [], targetCooldowns := [], provider_ids := by decide, model_ids := by decide
      account_ids := List.nodup_nil, combo_ids := by decide, combo_names := by decide, combo_ids_pos := by decide
      target_ids := List.nodup_nil, cooldown_targets := List.nodup_nil, model_provider := by simp
      account_provider := by simp, target_combo := by simp, target_provider := by simp
      target_account := target_account_nil, target_model := by simp, target_sub_combo := by simp, cooldown_target := cooldown_target_nil }
  contextWindow := fun _ => none
  contextLength := fun _ => none
  targetSeq := 0
  target_ids_le := by simp

/-- The combo `c + 1` becomes a target of the combo `c`. -/
def addNext (c : Int) : TargetOp :=
  .add { comboId := c, providerId := "hub".toList, accountId := none, modelRowId := none, subComboId := some (c + 1)
         priorityOrder := 1, description := none, selectedAccounts := none, clientProfile := none }

theorem allActive_sevenCombos : AllActive sevenCombos.db := ⟨by decide, by decide, by decide, rfl⟩

theorem subCombos_run_chain :
    sevenCombos.db.comboTargets = [] ∧ AllActive sevenCombos.db ∧
      NoShortCycle (runState targetStep sevenCombos ([1, 2, 3, 4, 5, 6].map addNext)).db :=
  ⟨rfl, allActive_sevenCombos,
    (subCombos_run id ⟨2026, 1, 1, 0, 0, 0, 0, by decide⟩ sevenCombos rfl allActive_sevenCombos
      ([1, 2, 3, 4, 5, 6].map addNext)).1⟩

/-- Six successful insertions make a chain of seven combos, and the first of them is not resolved. -/
theorem not_alwaysResolvable_chain :
    sevenCombos.db.comboTargets = [] ∧ AllActive sevenCombos.db ∧
      outputs targetStep sevenCombos ([1, 2, 3, 4, 5, 6].map addNext) = List.replicate 6 (.ok ()) ∧
      ¬ AlwaysResolvable id ⟨2026, 1, 1, 0, 0, 0, 0, by decide⟩
        (runState targetStep sevenCombos ([1, 2, 3, 4, 5, 6].map addNext)) := by
  refine ⟨rfl, allActive_sevenCombos, rfl, ?_⟩
  intro h
  have hfirst := (h.2 1 (by decide)).targets
  have herror : resolveComboToTargets (runState targetStep sevenCombos ([1, 2, 3, 4, 5, 6].map addNext)).db
      ⟨2026, 1, 1, 0, 0, 0, 0, by decide⟩ 1 [] 0 = .error depthExceeded := rfl
  rw [herror] at hfirst
  obtain ⟨ts, hts⟩ := hfirst
  cases hts

end OpenProxy.Combos
