import OpenProxy.Routing.Target

/-!
# The end of a cooldown

A snapshot that is built at `t₀` and asked at a later time `t`, with no write in between, against `list_targets` at `t`.
The snapshot keeps excluding the targets of a model that had a cooldown at `t₀`, and excludes a target until the day on
which its own cooldown ends is over.  `selectTargets_ids_iff` says when this makes no difference.
-/

namespace OpenProxy.Routing

namespace Timestamp

/-- A cooldown that lies ahead at `t` lay ahead before. -/
theorem datetimeGt_of_le {c t₀ t : Timestamp} (hle : ¬ t₀.Later t) (h : c.datetimeGt t = true) :
    c.datetimeGt t₀ = true := by
  rw [datetimeGt_iff] at h ⊢
  obtain ⟨hc, ht, hlater⟩ := h
  have hm := t.month_lt
  have hd := t.day_lt
  unfold Later at hle hlater ⊢
  unfold dateKey at hle hlater ⊢
  omega

end Timestamp

namespace Database

theorem modelCooling_of_le {db : Database} {t₀ t : Timestamp} {ct : ComboTargetRow} (hle : ¬ t₀.Later t)
    (h : db.modelCooling t ct = true) : db.modelCooling t₀ ct = true := by
  unfold modelCooling at h ⊢
  cases hm : ct.modelRowId with
  | none => simp [hm] at h
  | some r =>
    simp only [hm, Option.any_some, Bool.not_eq_true', List.isEmpty_eq_false_iff_exists_mem, liveModelCooldowns,
      List.mem_filter, Bool.and_eq_true] at h ⊢
    obtain ⟨tc, htc, hlive, hany⟩ := h
    exact ⟨tc, htc, Timestamp.datetimeGt_of_le hle hlive, hany⟩

/-- The cooldowns of an eligible target end together in the snapshot and in the database: a target without a cooldown
at `t` had none of its model at `t₀`, and the last day of its own lies before `t`; and a cooldown of its own beyond the
year 9999, which SQL takes as never over, is hidden by one of its model at `t₀`. -/
def ExpiresTogether (db : Database) (t₀ t : Timestamp) (ct : ComboTargetRow) : Prop :=
  (db.ownOver t ct = true → db.modelCooling t ct = false →
      (∀ c ∈ db.ownCooldown ct, c.dateKey < t.dateKey) ∧ db.modelCooling t₀ ct = false) ∧
    (t.year ≤ 9999 → ∀ c ∈ db.ownCooldown ct, 9999 < c.year → db.modelCooling t₀ ct = true)

instance (db : Database) (t₀ t : Timestamp) (ct : ComboTargetRow) : Decidable (db.ExpiresTogether t₀ t ct) :=
  inferInstanceAs (Decidable (_ ∧ _))

private theorem ownOver_iff (db : Database) (t : Timestamp) (ct : ComboTargetRow) :
    db.ownOver t ct = true ↔ ∀ c ∈ db.ownCooldown ct, c.year ≤ 9999 ∧ t.year ≤ 9999 ∧ ¬ c.Later t := by
  unfold ownOver
  cases db.ownCooldown ct with
  | none => simp
  | some c => simp [Timestamp.datetimeLe_iff]

private theorem ownOverSnap_iff (db : Database) (t : Timestamp) (ct : ComboTargetRow) :
    db.ownOverSnap t ct = true ↔
      ∀ c ∈ db.ownCooldown ct, t.year ≤ 9999 ∧ (c.year ≤ 9999 → c.dateKey < t.dateKey) := by
  unfold ownOverSnap
  cases db.ownCooldown ct with
  | none => simp
  | some c =>
    simp only [Option.all_some, Option.mem_def, Option.some.injEq, forall_eq', Bool.not_eq_true', ← Bool.not_eq_true,
      Timestamp.storedGt_iff]
    omega

/-- The two paths agree on an eligible target. -/
theorem selects_eq_iff {db : Database} {t₀ t : Timestamp} {ct : ComboTargetRow} (hle : ¬ t₀.Later t)
    (hel : db.targetEligible ct = true) : db.snapSelects t₀ t ct = db.sqlSelects t ct ↔ db.ExpiresTogether t₀ t ct := by
  have hmono : db.modelCooling t ct = true → db.modelCooling t₀ ct = true := modelCooling_of_le hle
  have hsql := ownOver_iff db t ct
  have hsnap := ownOverSnap_iff db t ct
  unfold snapSelects sqlSelects ExpiresTogether
  rw [hel, Bool.true_and, Bool.true_and, Bool.eq_iff_iff, Bool.and_eq_true, Bool.and_eq_true, Bool.not_eq_true',
    Bool.not_eq_true', hsql, hsnap]
  cases hown : db.ownCooldown ct with
  | none =>
    simp only [Option.mem_def, reduceCtorEq, false_implies, implies_true, true_and, true_implies, and_true]
    constructor
    · intro h hno
      exact h.mpr hno
    · intro h
      refine ⟨fun h₀ => ?_, h⟩
      rw [← Bool.not_eq_true] at h₀ ⊢
      exact fun ht => h₀ (hmono ht)
  | some c =>
    simp only [Option.mem_def, Option.some.injEq, forall_eq']
    -- the day of the cooldown is over only if the cooldown is
    have hday : c.year ≤ 9999 → t.year ≤ 9999 → c.dateKey < t.dateKey → ¬ c.Later t := by
      unfold Timestamp.Later
      omega
    cases h₀ : db.modelCooling t₀ ct with
    | true =>
      simp only [Bool.true_eq_false, and_false, false_iff, not_and, implies_true, and_true]
    | false =>
      have ht : db.modelCooling t ct = false := by
        rw [← Bool.not_eq_true]
        intro ht
        rw [hmono ht] at h₀
        exact absurd h₀ (by simp)
      simp only [ht, and_true, true_implies, Bool.false_eq_true, imp_false]
      constructor
      · intro h
        refine ⟨fun hc => (h.mpr hc).2 hc.1, fun hty hcy => ?_⟩
        have := (h.mp ⟨hty, fun hle => by omega⟩).1
        omega
      · rintro ⟨h1, h2⟩
        constructor
        · rintro ⟨hty, himp⟩
          have hcy : c.year ≤ 9999 := by
            by_contra hcy
            exact h2 hty (by omega)
          exact ⟨hcy, hty, hday hcy hty (himp hcy)⟩
        · rintro ⟨hcy, hty, hno⟩
          exact ⟨hty, fun _ => h1 ⟨hcy, hty, hno⟩⟩

/-- Cooldowns in the snapshot and in the database: the snapshot of time `t₀` selects the targets of a combo that
`list_targets` selects at the later time `t`, if and only if the cooldowns of its eligible targets end together. -/
theorem selectTargets_ids_iff (db : Database) (t₀ t : Timestamp) (hle : ¬ t₀.Later t) (comboId : Int) :
    ((build db t₀).selectTargets t comboId).map (·.id) = (db.listTargets t comboId).map (·.id) ↔
      ∀ ct ∈ db.comboTargets, ct.comboId = comboId → db.targetEligible ct = true → db.ExpiresTogether t₀ t ct := by
  have hsome : ∀ (p : Prop) [Decidable p] (x : ComboTarget) , (if p then some x else none).isSome = decide p := by
    intro p _ x
    by_cases hp : p <;> simp [hp]
  rw [selectTargets_eq, listTargets_eq, map_filterMap_eq_iff (fun ct : ComboTargetRow => ct.id) (fun t : ComboTarget => t.id)
    db.sortedTargets_nodup]
  · simp only [mem_sortedTargets, snapTarget_eq, sqlTarget_eq, hsome]
    refine forall₂_congr fun ct _ => ?_
    by_cases hc : ct.comboId = comboId
    · by_cases hel : db.targetEligible ct = true
      · simp only [hc, hel, true_and, Bool.decide_eq_true, true_implies]
        exact selects_eq_iff hle hel
      · simp [hel, snapSelects, sqlSelects]
    · simp [hc]
  · intro ct x h
    rw [snapTarget_eq] at h
    split at h
    · cases h
      rfl
    · simp at h
  · intro ct x h
    rw [sqlTarget_eq] at h
    split at h
    · cases h
      rfl
    · simp at h

/-- A target of combo 1 and model 1, with nothing configured. -/
def plainTarget (id : Int) : ComboTargetRow :=
  { id := id, comboId := 1, providerId := "p".toList, accountId := none, modelRowId := some 1, subComboId := none
    priorityOrder := 0, weight := 1, active := true, cooldownMode := none, cooldownBaseSecs := none
    cooldownMaxSecs := none, cooldownFactor := none, thinkingEffort := none, description := none
    selectedAccounts := none, clientProfile := none }

/-- A combo with two targets of one model, the first of which has a cooldown until one minute past ten on the first of
March. -/
def twoTargets : Database where
  providers := [⟨"p".toList, true, .account⟩]
  models := [⟨1, "p".toList, "m".toList, true⟩]
  accounts := []
  combos := [⟨1, "c".toList, .priority, 1⟩]
  comboTargets := [plainTarget 1, plainTarget 2]
  targetCooldowns := [⟨1, ⟨2025, 3, 1, 10, 1, 0, 0, by decide⟩⟩]
  provider_ids := by decide
  model_ids := by decide
  account_ids := by decide
  combo_ids := by decide
  combo_names := by decide
  combo_ids_pos := by decide
  target_ids := by decide
  cooldown_targets := by decide
  model_provider := by decide
  account_provider := by decide
  target_combo := by decide
  target_provider := by decide
  target_account := by decide
  target_model := by decide
  target_sub_combo := by decide
  cooldown_target := by decide

/-- A snapshot that is built on the next day selects both targets, as `list_targets` does. -/
theorem selectTargets_ids_next_day :
    ((build twoTargets ⟨2025, 3, 2, 10, 0, 0, 0, by decide⟩).selectTargets
        ⟨2025, 3, 2, 11, 0, 0, 0, by decide⟩ 1).map (·.id) =
      (twoTargets.listTargets ⟨2025, 3, 2, 11, 0, 0, 0, by decide⟩ 1).map (·.id) :=
  (selectTargets_ids_iff twoTargets ⟨2025, 3, 2, 10, 0, 0, 0, by decide⟩ ⟨2025, 3, 2, 11, 0, 0, 0, by decide⟩
    (by decide) 1).mpr (by decide)

/-- A snapshot that was built while the cooldown lasted selects neither of them a day later. -/
theorem selectTargets_ids_stale :
    ¬ (⟨2025, 3, 1, 10, 0, 0, 0, by decide⟩ : Timestamp).Later ⟨2025, 3, 2, 10, 0, 0, 0, by decide⟩ ∧
      ((build twoTargets ⟨2025, 3, 1, 10, 0, 0, 0, by decide⟩).selectTargets
        ⟨2025, 3, 2, 10, 0, 0, 0, by decide⟩ 1).map (·.id) = [] ∧
      (twoTargets.listTargets ⟨2025, 3, 2, 10, 0, 0, 0, by decide⟩ 1).map (·.id) = [1, 2] := by
  decide

end Database

end OpenProxy.Routing
