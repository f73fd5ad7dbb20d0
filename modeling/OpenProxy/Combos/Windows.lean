import OpenProxy.Combos.SubCombos

/-!
# Advertised context windows

The window of a combo and its flat list of targets come from two recursions over the same sub-combos, with different
conditions on the rows.  Every row that is resolved to a target is also one that the window is taken over, so that without
explicit windows the window of a combo is not greater than that of any of its targets, and it is that of one of its rows
(`effectiveContextWindow_safe`).
-/

namespace OpenProxy.Combos

open Routing

variable {db : Database} {st : ComboStore}

/-- An active row of a combo is for a sub-combo. -/
def OpenSubCombo (db : Database) (c s : Int) : Prop := ∃ ct ∈ windowRows db c, ct.subComboId = some s

/-- A combo whose sub-combos are nested at most `MAX_SUB_COMBO_DEPTH` deep, and so never inside themselves, and of which none
has an explicit window. -/
structure PlainTree (st : ComboStore) (root : Int) : Prop where
  root_mem : root ∈ st.db.combos.map (·.id)
  depth : ∀ n c, Walk (OpenSubCombo st.db) n root c → n ≤ maxSubComboDepth
  no_override : ∀ n c, Walk (OpenSubCombo st.db) n root c → st.contextWindow c = none

/-- A row for a model, in the combo or in one below it. -/
def LeafRow (db : Database) (c : Int) (ct : ComboTargetRow) : Prop :=
  ∃ n d, Walk (OpenSubCombo db) n c d ∧ ct ∈ windowRows db d ∧ ct.subComboId = none

/-- The context length that the model of a target declares, or the one that is inferred from its name. -/
def targetContextLength (toLowercase : Text → Text) (st : ComboStore) (t : ComboTarget) : Option Int :=
  t.modelRowId.bind fun modelRowId =>
    let m := st.db.models.find? fun m => m.id = modelRowId
    let modelId := (m.map (·.modelId)).getD []
    ((m.bind fun m => st.contextLength m.id).filter fun c => decide (0 < c)).or
      (if modelId.isEmpty then none else inferContextLength toLowercase modelId)

/-! ### Rows -/

theorem LeafRow.of_subCombo {c s : Int} {ct : ComboTargetRow} (hs : OpenSubCombo db c s) (h : LeafRow db s ct) :
    LeafRow db c ct := by
  obtain ⟨n, d, hwalk, hct, hmodel⟩ := h
  exact ⟨n + 1, d, .cons hs hwalk, hct, hmodel⟩

theorem leafRow_iff {c : Int} {ct : ComboTargetRow} :
    LeafRow db c ct ↔ (ct ∈ windowRows db c ∧ ct.subComboId = none) ∨ ∃ s, OpenSubCombo db c s ∧ LeafRow db s ct := by
  constructor
  · rintro ⟨n, d, hwalk, hct, hmodel⟩
    cases hwalk with
    | nil => exact .inl ⟨hct, hmodel⟩
    | cons hs hwalk => exact .inr ⟨_, hs, _, d, hwalk, hct, hmodel⟩
  · rintro (⟨hct, hmodel⟩ | ⟨s, hs, h⟩)
    · exact ⟨0, c, .nil c, hct, hmodel⟩
    · exact h.of_subCombo hs

/-- A target that is listed has a row that the window is taken over. -/
theorem mem_windowRows_of_listTargets {now : Timestamp} {c : Int} {t : ComboTarget} (h : t ∈ db.listTargets now c) :
    ∃ ct ∈ windowRows db c, ct.subComboId = t.subComboId ∧ ct.modelRowId = t.modelRowId := by
  unfold Database.listTargets at h
  simp only [List.mem_map, (List.perm_insertionSort Database.byPriority _).mem_iff, List.mem_filter,
    Bool.and_eq_true, decide_eq_true_eq] at h
  obtain ⟨r, ⟨hr, hc, heligible, -⟩, rfl⟩ := h
  obtain ⟨ct, hct, hjoin⟩ := List.mem_filterMap.mp hr
  obtain ⟨p, hp, rfl⟩ := Option.map_eq_some_iff.mp hjoin
  simp only [Database.JoinedRow.eligible, Bool.and_eq_true] at heligible
  obtain ⟨⟨⟨hprovider, hactive⟩, hmodel⟩, hkind⟩ := heligible
  refine ⟨ct, List.mem_filter.mpr ⟨hct, ?_⟩, rfl, rfl⟩
  have hpactive : db.providerActive ct.providerId = true := by
    unfold Database.providerActive
    rw [List.any_eq_true]
    have hpid : p.id = ct.providerId := by simpa using List.find?_some hp
    exact ⟨p, List.mem_of_find?_eq_some hp, by simp [hpid, hprovider]⟩
  have hrow : (ct.subComboId.isSome || (db.providerActive ct.providerId &&
      (ct.modelRowId.bind fun r => db.models.find? fun m => m.id = r).any (·.active))) = true := by
    cases hsub : ct.subComboId with
    | some s => rfl
    | none =>
      simp only [hsub, Option.isNone_none, Bool.and_true, Bool.not_eq_true'] at hkind
      simp only [hkind, Bool.false_or] at hmodel
      simp [hpactive, hmodel]
  have hcombo : ct.comboId = c := hc
  simp only [hcombo, decide_true, hactive, hrow, hkind, Bool.and_self]

theorem targetContextLength_eq {toLowercase : Text → Text} {ct : ComboTargetRow} {t : ComboTarget}
    (h : ct.modelRowId = t.modelRowId) : targetContextLength toLowercase st t = modelContextWindow toLowercase st ct := by
  unfold targetContextLength modelContextWindow
  rw [h]

/-! ### The least window -/

/-- The value is the least positive one of some windows, or there is none. -/
structure LeastWindow (windows : Option Int → Prop) (least : Option Int) : Prop where
  mem : ∀ w, least = some w → windows (some w) ∧ 0 < w
  le : ∀ x, windows (some x) → 0 < x → ∃ w, least = some w ∧ w ≤ x

theorem LeastWindow.congr {windows windows' : Option Int → Prop} {least : Option Int} (h : LeastWindow windows least)
    (hiff : ∀ x, 0 < x → (windows (some x) ↔ windows' (some x))) : LeastWindow windows' least := by
  constructor
  · intro w hw
    obtain ⟨hmem, hpos⟩ := h.mem w hw
    exact ⟨(hiff w hpos).1 hmem, hpos⟩
  · exact fun x hx hpos => h.le x ((hiff x hpos).2 hx) hpos

theorem leastWindow_minWindow {windows : Option Int → Prop} {acc : Option Int} (h : LeastWindow windows acc) (window : Option Int) :
    LeastWindow (fun o => windows o ∨ o = window) (minWindow acc window) := by
  unfold minWindow
  cases hfilter : window.filter fun cw => decide (0 < cw) with
  | none =>
    refine ⟨fun w hw => ?_, fun x hx hpos => ?_⟩
    · obtain ⟨hmem, hpos⟩ := h.mem w hw
      exact ⟨.inl hmem, hpos⟩
    · rcases hx with hx | rfl
      · exact h.le x hx hpos
      · rw [Option.filter_some, decide_eq_true hpos] at hfilter
        cases hfilter
  | some cw =>
    obtain ⟨rfl, hcw⟩ := Option.filter_eq_some_iff.1 hfilter
    simp only [decide_eq_true_eq] at hcw
    cases acc with
    | none =>
      refine ⟨fun w hw => ?_, fun x hx hpos => ?_⟩
      · simp only [Option.elim_none, Option.some.injEq] at hw
        subst hw
        exact ⟨.inr rfl, hcw⟩
      · rcases hx with hx | hx
        · obtain ⟨w, hw, -⟩ := h.le x hx hpos
          cases hw
        · exact ⟨cw, rfl, (Option.some_inj.1 hx).ge⟩
    | some least =>
      obtain ⟨hmem, hleast⟩ := h.mem least rfl
      refine ⟨fun w hw => ?_, fun x hx hpos => ⟨min least cw, rfl, ?_⟩⟩
      · simp only [Option.elim_some, Option.some.injEq] at hw
        subst hw
        rcases Int.le_total least cw with hle | hle
        · rw [min_eq_left hle]
          exact ⟨.inl hmem, hleast⟩
        · rw [min_eq_right hle]
          exact ⟨.inr rfl, hcw⟩
      · rcases hx with hx | hx
        · obtain ⟨w, hw, hle⟩ := h.le x hx hpos
          cases hw
          exact le_trans (min_le_left _ _) hle
        · exact le_trans (min_le_right _ _) (Option.some_inj.1 hx).ge

theorem leastWindow_foldl {windows : Option Int → Prop} {acc : Option Int} (h : LeastWindow windows acc) (l : List (Option Int)) :
    LeastWindow (fun o => windows o ∨ o ∈ l) (l.foldl minWindow acc) := by
  induction l generalizing windows acc with
  | nil => exact h.congr fun x _ => by simp
  | cons window l ih =>
    refine (ih (leastWindow_minWindow h window)).congr fun x _ => ?_
    rw [List.mem_cons, or_assoc]

/-! ### Loops -/

/-- A loop whose rounds all return gives their results. -/
theorem mapM_ok {α β : Type} {f : α → Except CoreError β} {P : α → β → Prop} {l : List α}
    (h : ∀ a ∈ l, ∃ b, f a = .ok b ∧ P a b) : ∃ bs, l.mapM f = .ok bs ∧ List.Forall₂ P l bs := by
  induction l with
  | nil => exact ⟨[], rfl, .nil⟩
  | cons a l ih =>
    obtain ⟨b, hb, hP⟩ := h a List.mem_cons_self
    obtain ⟨bs, hbs, hrest⟩ := ih fun x hx => h x (List.mem_cons_of_mem a hx)
    refine ⟨b :: bs, ?_, .cons hP hrest⟩
    rw [List.mapM_cons, hb, hbs]
    rfl

theorem map_mapM_ok {α β γ : Type} {f : α → Except CoreError β} {P : α → β → Prop} {l : List α} {g : List β → γ}
    {Q : γ → Prop} (h : ∀ a ∈ l, ∃ b, f a = .ok b ∧ P a b) (hg : ∀ bs, List.Forall₂ P l bs → Q (g bs)) :
    ∃ c, (l.mapM f).map g = .ok c ∧ Q c := by
  obtain ⟨bs, hbs, hall⟩ := mapM_ok h
  exact ⟨g bs, by rw [hbs]; rfl, hg bs hall⟩

private theorem forall₂_mem_right {α β : Type} {P : α → β → Prop} {l : List α} {bs : List β} (h : List.Forall₂ P l bs)
    {b : β} (hb : b ∈ bs) : ∃ a ∈ l, P a b := by
  induction h with
  | nil => exact absurd hb List.not_mem_nil
  | @cons a b' l bs hP _ ih =>
    rcases List.mem_cons.1 hb with rfl | hb
    · exact ⟨a, List.mem_cons_self, hP⟩
    · obtain ⟨a', ha', hP'⟩ := ih hb
      exact ⟨a', List.mem_cons_of_mem _ ha', hP'⟩

private theorem forall₂_mem_left {α β : Type} {P : α → β → Prop} {l : List α} {bs : List β} (h : List.Forall₂ P l bs)
    {a : α} (ha : a ∈ l) : ∃ b ∈ bs, P a b :=
  @forall₂_mem_right β α (flip P) bs l h.flip a ha

/-! ### The combos that a call is inside of -/

/-- A call at a depth below the root, inside of the visited combos. -/
structure Descended (db : Database) (root : Int) (depth : Nat) (visited : List Int) (c : Int) : Prop where
  below : Walk (OpenSubCombo db) depth root c
  inside : ∀ v ∈ visited, ∃ n, 1 ≤ n ∧ Walk (OpenSubCombo db) n v c

namespace Descended

variable {root : Int} {depth : Nat} {visited : List Int} {c s : Int}

theorem push (h : Descended db root depth visited c) (hs : OpenSubCombo db c s) :
    Descended db root (depth + 1) (visited ++ [c]) s := by
  refine ⟨h.below.trans (.single hs), fun v hv => ?_⟩
  rcases List.mem_append.mp hv with hold | hnew
  · obtain ⟨n, hn, hwalk⟩ := h.inside v hold
    exact ⟨n + 1, by omega, hwalk.trans (.single hs)⟩
  · rw [List.mem_singleton.mp hnew]
    exact ⟨1, le_refl _, .single hs⟩

/-- A walk from a combo to itself can be gone any number of times. -/
private theorem repeat_cycle {n : Nat} (hn : 1 ≤ n) (hcycle : Walk (OpenSubCombo db) n c c) (k : Nat) :
    ∃ m, k ≤ m ∧ Walk (OpenSubCombo db) m c c := by
  induction k with
  | zero => exact ⟨0, le_refl _, .nil c⟩
  | succ k ih =>
    obtain ⟨m, hm, hwalk⟩ := ih
    exact ⟨n + m, by omega, hcycle.trans hwalk⟩

/-- Where the depth is bounded, a call is never inside of its own combo. -/
theorem notMem (hdepth : ∀ n c, Walk (OpenSubCombo db) n root c → n ≤ maxSubComboDepth)
    (h : Descended db root depth visited c) : visited.contains c = false := by
  rw [Bool.eq_false_iff]
  intro hmem
  rw [List.contains_iff_mem] at hmem
  obtain ⟨n, hn, hcycle⟩ := h.inside c hmem
  obtain ⟨m, hm, hwalk⟩ := repeat_cycle hn hcycle (maxSubComboDepth + 1)
  have := hdepth _ c (h.below.trans hwalk)
  omega

end Descended

/-! ### The two recursions -/

section Tree

variable {root : Int} (htree : PlainTree st root)

include htree

/-- Every target that is resolved comes from a row for a model. -/
theorem resolveLevels_leaf (now : Timestamp) {levels depth : Nat} {visited : List Int} {c : Int}
    (h : Descended st.db root depth visited c) (hlevels : depth + levels = maxSubComboDepth + 1) :
    ∃ targets, resolveLevels st.db now levels visited c = .ok targets ∧
      ∀ t ∈ targets, ∃ ct, LeafRow st.db c ct ∧ ct.modelRowId = t.modelRowId := by
  induction levels generalizing depth visited c with
  | zero =>
    have := htree.depth depth c h.below
    omega
  | succ levels ih =>
    unfold resolveLevels
    rw [h.notMem htree.depth, if_neg Bool.false_ne_true]
    refine @map_mapM_ok _ _ _ _ (fun _ ts => ∀ t ∈ ts, ∃ ct, LeafRow st.db c ct ∧ ct.modelRowId = t.modelRowId) _ _ _
      ?_ fun lists hall t ht => ?_
    · intro t ht
      obtain ⟨ct, hct, hsub, hmodel⟩ := mem_windowRows_of_listTargets ht
      cases hs : t.subComboId with
      | none =>
        refine ⟨[t], rfl, fun t' ht' => ⟨ct, ⟨0, c, .nil c, hct, hsub.trans hs⟩, ?_⟩⟩
        rw [List.mem_singleton.1 ht', hmodel]
      | some s =>
        have hopen : OpenSubCombo st.db c s := ⟨ct, hct, hsub.trans hs⟩
        obtain ⟨sub, hok, hleaves⟩ := ih (h.push hopen) (by omega)
        refine ⟨sub.map (inheritFrom t), by simp only [hok]; rfl, fun t' ht' => ?_⟩
        obtain ⟨st', hst', rfl⟩ := List.mem_map.1 ht'
        obtain ⟨ct', hleaf, hmodel'⟩ := hleaves st' hst'
        exact ⟨ct', hleaf.of_subCombo hopen, hmodel'⟩
    · obtain ⟨ts, hts, ht⟩ := List.mem_flatten.1 ht
      obtain ⟨-, -, hleaves⟩ := forall₂_mem_right hall hts
      exact hleaves t ht

/-- The window is the least positive one of the rows for models. -/
theorem windowLevels_least (toLowercase : Text → Text) {levels depth : Nat} {visited : List Int} {c : Int}
    (h : Descended st.db root depth visited c) (hlevels : depth + levels = maxSubComboDepth + 1)
    (hc : c ∈ st.db.combos.map (·.id)) :
    ∃ window, windowLevels toLowercase st levels visited c = .ok window ∧
      LeastWindow (fun o => ∃ ct, LeafRow st.db c ct ∧ modelContextWindow toLowercase st ct = o) window := by
  induction levels generalizing depth visited c with
  | zero =>
    have := htree.depth depth c h.below
    omega
  | succ levels ih =>
    obtain ⟨combo, hmem, hid⟩ := List.mem_map.mp hc
    have hfind : (st.db.combos.find? fun combo => combo.id = c) = some combo :=
      (find?_key_eq_some (·.id) st.db.combo_ids).mpr ⟨hmem, hid⟩
    have hnone : st.contextWindow combo.id = none := by
      rw [hid]
      exact htree.no_override depth c h.below
    unfold windowLevels
    rw [h.notMem htree.depth, if_neg Bool.false_ne_true, hfind]
    simp only [hnone, Option.none_or]
    refine @map_mapM_ok _ _ _ _ (fun ct window =>
      (ct.subComboId = none → window = modelContextWindow toLowercase st ct) ∧ ∀ s, ct.subComboId = some s →
        LeastWindow (fun o => ∃ ct', LeafRow st.db s ct' ∧ modelContextWindow toLowercase st ct' = o) window) _ _ _
      ?_ fun windows hall => ?_
    · intro ct hct
      cases hs : ct.subComboId with
      | none => exact ⟨_, rfl, fun _ => rfl, fun s hs' => absurd hs' (by simp)⟩
      | some s =>
        have hrow := (List.mem_filter.1 hct).1
        obtain ⟨window, hok, hleast⟩ := ih (h.push ⟨ct, hct, hs⟩) (by omega) (st.db.target_sub_combo ct hrow s hs)
        refine ⟨window, hok, fun hs' => absurd hs' (by simp), fun s' hs' => ?_⟩
        cases hs'
        exact hleast
    · have hfold : LeastWindow (fun o => False ∨ o ∈ windows) (windows.foldl minWindow none) :=
        leastWindow_foldl ⟨fun w hw => absurd hw (by simp), fun x hx => hx.elim⟩ windows
      constructor
      · intro w hw
        obtain ⟨hwmem, hpos⟩ := hfold.mem w hw
        refine ⟨?_, hpos⟩
        obtain ⟨ct, hct, hmodel, hsub⟩ := forall₂_mem_right hall (hwmem.resolve_left id)
        cases hs : ct.subComboId with
        | none => exact ⟨ct, leafRow_iff.2 (.inl ⟨hct, hs⟩), (hmodel hs).symm⟩
        | some s =>
          obtain ⟨⟨ct', hleaf, hwindow⟩, -⟩ := (hsub s hs).mem w rfl
          exact ⟨ct', hleaf.of_subCombo ⟨ct, hct, hs⟩, hwindow⟩
      · rintro x ⟨ct, hleaf, hwindow⟩ hpos
        rcases leafRow_iff.1 hleaf with ⟨hct, hs⟩ | ⟨s, ⟨ct', hct', hs⟩, hleaf'⟩
        · obtain ⟨window, hmemw, hmodel, -⟩ := forall₂_mem_left hall hct
          exact hfold.le x (.inr (by rwa [← hwindow, ← hmodel hs])) hpos
        · obtain ⟨window, hmemw, -, hsub⟩ := forall₂_mem_left hall hct'
          -- the window of the sub-combo is not greater, and the least one is not greater than that
          obtain ⟨y, rfl, hyx⟩ := (hsub s hs).le x ⟨ct, hleaf', hwindow⟩ hpos
          obtain ⟨-, hypos⟩ := (hsub s hs).mem y rfl
          obtain ⟨w, hw, hwy⟩ := hfold.le y (.inr hmemw) hypos
          exact ⟨w, hw, le_trans hwy hyx⟩

end Tree

private theorem findSubstringMatch_pos {haystack : Text} {table : List (Text × Int)} {len : Int}
    (htable : ∀ entry ∈ table, 0 < entry.2) (h : findSubstringMatch haystack table = some len) : 0 < len := by
  unfold findSubstringMatch at h
  obtain ⟨entry, hentry, hsome⟩ := List.exists_of_findSome?_eq_some h
  split at hsome
  · cases hsome
    exact htable entry hentry
  · cases hsome

/-- The length of a model is positive, declared or inferred. -/
theorem modelContextWindow_pos {toLowercase : Text → Text} {ct : ComboTargetRow} {len : Int}
    (h : modelContextWindow toLowercase st ct = some len) : 0 < len := by
  unfold modelContextWindow at h
  obtain ⟨modelRowId, -, h⟩ := Option.bind_eq_some_iff.1 h
  rcases Option.or_eq_some_iff.1 h with h | ⟨-, h⟩
  · exact of_decide_eq_true (Option.filter_eq_some_iff.1 h).2
  · split at h
    · cases h
    · have htable : ∀ entry ∈ knownContextLengths, 0 < entry.2 := by
        simp only [knownContextLengths, List.forall_mem_cons]
        simp
      exact findSubstringMatch_pos htable h

/-- In a tree within the depth limit and without explicit windows both functions return.  The window is positive and not
greater than the context length of any target that is resolved and has one; and it is the context length of an active row
of the tree. -/
theorem effectiveContextWindow_safe (toLowercase : Text → Text) (st : ComboStore) (root : Int) (htree : PlainTree st root)
    (now : Timestamp) :
    ∃ targets window, resolveComboToTargets st.db now root [] 0 = .ok targets ∧
      computeEffectiveContextWindow toLowercase st root = .ok window ∧
      (∀ t ∈ targets, ∀ len, targetContextLength toLowercase st t = some len →
        ∃ w, window = some w ∧ 0 < w ∧ w ≤ len) ∧
      ∀ w, window = some w → ∃ ct, LeafRow st.db root ct ∧ modelContextWindow toLowercase st ct = some w := by
  have hstart : Descended st.db root 0 [] root := ⟨.nil root, by simp⟩
  obtain ⟨targets, htargets, hleaves⟩ := resolveLevels_leaf htree now hstart (Nat.zero_add _)
  obtain ⟨window, hwindow, hleast⟩ := windowLevels_least htree toLowercase hstart (Nat.zero_add _) htree.root_mem
  refine ⟨targets, window, htargets, hwindow, fun t ht len hlen => ?_, fun w hw => (hleast.mem w hw).1⟩
  obtain ⟨ct, hleaf, hmodel⟩ := hleaves t ht
  rw [targetContextLength_eq hmodel] at hlen
  obtain ⟨w, hw, hle⟩ := hleast.le len ⟨ct, hleaf, hlen⟩ (modelContextWindow_pos hlen)
  exact ⟨w, hw, (hleast.mem w hw).2, hle⟩

/-- A row for a model or a sub-combo. -/
private def plainRow (id comboId : Int) (modelRowId subComboId : Option Int) : ComboTargetRow :=
  { id := id, comboId := comboId, providerId := ['h'], accountId := none, modelRowId := modelRowId
    subComboId := subComboId, priorityOrder := id, weight := 1, active := true, cooldownMode := none
    cooldownBaseSecs := none, cooldownMaxSecs := none, cooldownFactor := none, thinkingEffort := none
    description := none, selectedAccounts := none, clientProfile := none }

/-- Two combos in the first one share the fourth one, which has a model. -/
def diamond : ComboStore where
  db :=
    { providers := [⟨['h'], true, .account⟩], models := [⟨7, ['h'], ['m'], true⟩], accounts := []
      combos := [⟨1, ['a'], .priority, 1⟩, ⟨2, ['b'], .priority, 1⟩, ⟨3, ['c'], .priority, 1⟩, ⟨4, ['d'], .priority, 1⟩]
      comboTargets := [plainRow 1 1 none (some 2), plainRow 2 1 none (some 3), plainRow 3 2 none (some 4),
        plainRow 4 3 none (some 4), plainRow 5 4 (some 7) none]
      targetCooldowns := [], provider_ids := by decide, model_ids := by decide
      account_ids := List.nodup_nil, combo_ids := by decide, combo_names := by decide, combo_ids_pos := by decide
      target_ids := by decide, cooldown_targets := List.nodup_nil, model_provider := by decide
      account_provider := by simp, target_combo := by decide, target_provider := by decide
      target_account := by decide, target_model := by decide, target_sub_combo := by decide
      cooldown_target := by simp }
  contextWindow := fun _ => none
  contextLength := fun _ => some 8192
  targetSeq := 5
  target_ids_le := by decide

private theorem plainTree_diamond : PlainTree diamond 1 := by
  have hstep : ∀ c s, OpenSubCombo diamond.db c s → c < s ∧ s ≤ 4 := by
    rintro c s ⟨ct, hct, hs⟩
    obtain ⟨hmem, hrow⟩ := List.mem_filter.1 hct
    simp only [Bool.and_eq_true, decide_eq_true_eq] at hrow
    have hall : ∀ ct ∈ diamond.db.comboTargets, ∀ s ∈ ct.subComboId, ct.comboId < s ∧ s ≤ 4 := by decide
    rw [← hrow.1.1.1]
    exact hall ct hmem s hs
  have hwalk : ∀ {n : Nat} {c d : Int}, Walk (OpenSubCombo diamond.db) n c d → c ≤ 4 → c + n ≤ 4 := by
    intro n c d h
    induction h with
    | nil c => simp
    | cons hcs _ ih =>
      intro hc
      obtain ⟨hlt, hle⟩ := hstep _ _ hcs
      have := ih hle
      omega
  refine ⟨by decide, fun n c h => ?_, fun n c h => rfl⟩
  have := hwalk h (by decide)
  unfold maxSubComboDepth
  omega

theorem effectiveContextWindow_diamond : ∃ targets window,
    resolveComboToTargets diamond.db ⟨2026, 1, 1, 0, 0, 0, 0, by decide⟩ 1 [] 0 = .ok targets ∧
      computeEffectiveContextWindow id diamond 1 = .ok window ∧
      (∀ t ∈ targets, ∀ len, targetContextLength id diamond t = some len → ∃ w, window = some w ∧ 0 < w ∧ w ≤ len) ∧
      ∀ w, window = some w → ∃ ct, LeafRow diamond.db 1 ct ∧ modelContextWindow id diamond ct = some w :=
  effectiveContextWindow_safe id diamond 1 plainTree_diamond ⟨2026, 1, 1, 0, 0, 0, 0, by decide⟩

end OpenProxy.Combos
