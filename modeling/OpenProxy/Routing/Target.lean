import OpenProxy.Routing.Snapshot

/-!
# One target, by SQL and by the snapshot

Both paths select a target when it is eligible, is not in a cooldown of its own and is not in a cooldown of its model;
they differ in how they judge the cooldowns.  The snapshot also decodes the time of the target's own cooldown as its
client profile, which never succeeds.
-/

namespace OpenProxy.Routing

namespace Database

/-- The target, its provider and its model are active. -/
def targetEligible (db : Database) (ct : ComboTargetRow) : Bool :=
  ct.active && db.providerActive ct.providerId &&
    match ct.modelRowId with
    | none => ct.subComboId.isSome
    | some r => db.models.any fun m => decide (m.id = r) && m.active

/-- The end of the target's own cooldown. -/
def ownCooldown (db : Database) (ct : ComboTargetRow) : Option Timestamp :=
  (db.targetCooldowns.find? fun tc => tc.comboTargetId = ct.id).map (·.cooldownUntil)

/-- Some target of the same model is in a cooldown at the time. -/
def modelCooling (db : Database) (now : Timestamp) (ct : ComboTargetRow) : Bool :=
  ct.modelRowId.any fun r => !(db.liveModelCooldowns now r).isEmpty

/-- By SQL, the target's own cooldown is over or there is none. -/
def ownOver (db : Database) (now : Timestamp) (ct : ComboTargetRow) : Bool :=
  (db.ownCooldown ct).all fun c => c.datetimeLe now

/-- The same by the snapshot. -/
def ownOverSnap (db : Database) (now : Timestamp) (ct : ComboTargetRow) : Bool :=
  (db.ownCooldown ct).all fun c => !c.storedGt now

/-- A target with its provider's rate limit scope. -/
def decodeTarget (db : Database) (ct : ComboTargetRow) (profile : Option Text) : ComboTarget :=
  rowToTarget ct (db.providerActiveAndScope ct.providerId).2 profile

/-! ### Normal forms -/

private theorem isNone_maxText (l : List Text) : (maxText l).isNone = l.isEmpty := by
  cases l <;> rfl

theorem providerActive_eq {db : Database} {p : ProviderRow} {id : Text}
    (h : (db.providers.find? fun p => p.id = id) = some p) : db.providerActive id = p.active := by
  have hp := (find?_key_eq_some (fun p : ProviderRow => p.id) db.provider_ids).mp h
  rw [Bool.eq_iff_iff, providerActive, List.any_eq_true]
  constructor
  · rintro ⟨q, hq, hqa⟩
    rw [Bool.and_eq_true, decide_eq_true_eq] at hqa
    rw [← List.inj_on_of_nodup_map db.provider_ids hq hp.1 (hqa.1.trans hp.2.symm)]
    exact hqa.2
  · intro ha
    exact ⟨p, hp.1, by simp [hp.2, ha]⟩

theorem providerActive_of_none {db : Database} {id : Text}
    (h : (db.providers.find? fun p => p.id = id) = none) : db.providerActive id = false := by
  rw [List.find?_eq_none] at h
  rw [Bool.eq_false_iff, providerActive, ne_eq, List.any_eq_true]
  rintro ⟨q, hq, hqa⟩
  rw [Bool.and_eq_true] at hqa
  exact h q hq hqa.1

private theorem modelActive_eq (db : Database) (r : Int) :
    ((db.models.find? fun m => m.id = r).any (·.active)) = db.models.any fun m => decide (m.id = r) && m.active := by
  cases hf : db.models.find? fun m => m.id = r with
  | none =>
    rw [List.find?_eq_none] at hf
    symm
    rw [Option.any_none, Bool.eq_false_iff, ne_eq, List.any_eq_true]
    rintro ⟨m, hm, hma⟩
    rw [Bool.and_eq_true] at hma
    exact hf m hm hma.1
  | some m =>
    have hm := (find?_key_eq_some (fun m : ModelRow => m.id) db.model_ids).mp hf
    rw [Option.any_some, Bool.eq_iff_iff, List.any_eq_true]
    constructor
    · intro ha
      exact ⟨m, hm.1, by simp [hm.2, ha]⟩
    · rintro ⟨q, hq, hqa⟩
      rw [Bool.and_eq_true, decide_eq_true_eq] at hqa
      rw [← List.inj_on_of_nodup_map db.model_ids hq hm.1 (hqa.1.trans hm.2.symm)]
      exact hqa.2

private theorem eligible_eq {db : Database} {now : Timestamp} {ct : ComboTargetRow} {r : JoinedRow}
    (h : db.joinRow now ct = some r) : r.eligible = db.targetEligible ct := by
  simp only [joinRow, Option.map_eq_some_iff] at h
  obtain ⟨p, hp, rfl⟩ := h
  unfold JoinedRow.eligible targetEligible
  simp only [providerActive_eq hp]
  cases hm : ct.modelRowId with
  | none => cases p.active <;> cases ct.active <;> cases ct.subComboId <;> rfl
  | some r =>
    simp only [Option.isNone_some, Option.bind_some, Bool.false_or, Bool.false_and, Bool.not_false, Bool.and_true,
      modelActive_eq db r]
    rw [Bool.and_comm ct.active]

private theorem modelCooldownUntil_eq {db : Database} {now : Timestamp} {ct : ComboTargetRow} {r : JoinedRow}
    (h : db.joinRow now ct = some r) : r.modelCooldownUntil.isNone = !db.modelCooling now ct := by
  simp only [joinRow, Option.map_eq_some_iff] at h
  obtain ⟨p, -, rfl⟩ := h
  unfold modelCooling
  cases ct.modelRowId with
  | none => rfl
  | some r => simp [isNone_maxText]

private theorem tc_eq {db : Database} {now : Timestamp} {ct : ComboTargetRow} {r : JoinedRow}
    (h : db.joinRow now ct = some r) : r.tc.map (·.cooldownUntil) = db.ownCooldown ct := by
  simp only [joinRow, Option.map_eq_some_iff] at h
  obtain ⟨p, -, rfl⟩ := h
  rfl

private theorem scope_eq {db : Database} {now : Timestamp} {ct : ComboTargetRow} {r : JoinedRow}
    (h : db.joinRow now ct = some r) : r.p.rateLimitScope = (db.providerActiveAndScope ct.providerId).2 := by
  simp only [joinRow, Option.map_eq_some_iff] at h
  obtain ⟨p, hp, rfl⟩ := h
  simp [providerActiveAndScope, hp]

/-- By SQL, the target is selected. -/
def sqlSelects (db : Database) (now : Timestamp) (ct : ComboTargetRow) : Bool :=
  db.targetEligible ct && (db.ownOver now ct && !db.modelCooling now ct)

theorem sqlTarget_eq (db : Database) (now : Timestamp) (comboId : Int) (ct : ComboTargetRow) :
    db.sqlTarget now comboId ct =
      if ct.comboId = comboId ∧ db.sqlSelects now ct = true then some (db.decodeTarget ct ct.clientProfile) else none := by
  unfold sqlTarget
  cases hj : db.joinRow now ct with
  | none =>
    have hnone : (db.providers.find? fun p => p.id = ct.providerId) = none := by
      simpa [joinRow] using hj
    simp [sqlSelects, targetEligible, providerActive_of_none hnone]
  | some r =>
    have hcooled : r.cooled now = (db.ownOver now ct && !db.modelCooling now ct) := by
      unfold JoinedRow.cooled ownOver
      rw [modelCooldownUntil_eq hj, ← tc_eq hj]
      cases r.tc <;> rfl
    have hselects : (r.eligible && r.cooled now) = db.sqlSelects now ct := by
      rw [eligible_eq hj, hcooled]
      rfl
    simp only [Option.filter_some, joinRow_ct hj, hselects]
    by_cases h : ct.comboId = comboId ∧ db.sqlSelects now ct = true
    · rw [if_pos h, if_pos (by simpa using h), Option.map_some, joinRow_ct hj, scope_eq hj]
      rfl
    · rw [if_neg h, if_neg (by simpa using h)]
      rfl

/-! ### The client profile -/

private theorem trim_cons {c : Char} (s : Text) (hc : isWhitespace c = false) : ∃ s', trim (c :: s) = c :: s' := by
  unfold trim
  rw [List.dropWhile_cons_of_neg (by simp [hc]), List.reverse_cons, List.dropWhile_append]
  split
  · exact ⟨[], by simp [hc]⟩
  · exact ⟨(List.dropWhile isWhitespace s.reverse).reverse, by simp⟩

private theorem fromStr_cons {c : Char} (s : Text) (hws : isWhitespace c = false) (hlow : c.toLower = c)
    (hc : c ≠ '_') (hhead : ∀ entry ∈ ClientProfile.spellings, entry.1.head? ≠ some c) :
    ClientProfile.fromStr (c :: s) = none := by
  obtain ⟨s', hs'⟩ := trim_cons s hws
  unfold ClientProfile.fromStr
  simp only [hs', lower_cons, hlow, List.map_cons, hc, ↓reduceIte, Option.map_eq_none_iff, List.find?_eq_none]
  intro entry hentry he
  rw [decide_eq_true_eq] at he
  exact hhead entry hentry (by rw [he]; rfl)

/-- The text of a time is not the name of a client profile. -/
theorem fromStr_toRfc3339 (t : Timestamp) : ClientProfile.fromStr t.toRfc3339 = none := by
  unfold Timestamp.toRfc3339 Timestamp.dateText Timestamp.yearText
  split
  · have hd : ∀ d : Fin 10, isWhitespace d.val.digitChar = false ∧ d.val.digitChar.toLower = d.val.digitChar ∧
        d.val.digitChar ≠ '_' ∧ ∀ entry ∈ ClientProfile.spellings, entry.1.head? ≠ some d.val.digitChar := by decide
    obtain ⟨h1, h2, h3, h4⟩ := hd ⟨t.year / 10 / 10 / 10 % 10, Nat.mod_lt _ (by omega)⟩
    exact fromStr_cons _ h1 h2 h3 h4
  · exact fromStr_cons _ (by decide) (by decide) (by decide) (by decide)

/-- By the snapshot that was built at `t₀`, the target is selected at the time `now`. -/
def snapSelects (db : Database) (t₀ now : Timestamp) (ct : ComboTargetRow) : Bool :=
  db.targetEligible ct && (db.ownOverSnap now ct && !db.modelCooling t₀ ct)

private theorem targetRowActive_eq {db : Database} {t₀ : Timestamp} {ct : ComboTargetRow} {r : JoinedRow}
    (h : db.joinRow t₀ ct = some r) (now : Timestamp) :
    targetRowActive (buildTargetRow (build db t₀).providers r) now.nowStr = db.snapSelects t₀ now ct := by
  have hel := eligible_eq h
  have hmc := modelCooldownUntil_eq h
  have htc := tc_eq h
  have hprov : (((build db t₀).providers.lookup r.ct.providerId).map (·.1)).getD false = r.p.active := by
    rw [joinRow_ct h, build_providers]
    simp only [joinRow, Option.map_eq_some_iff] at h
    obtain ⟨p, hp, rfl⟩ := h
    rw [hp]
    rfl
  have hown : (r.tc.map fun tc => tc.cooldownUntil.toRfc3339).any (fun c => textLt now.nowStr c) =
      !db.ownOverSnap now ct := by
    unfold ownOverSnap
    rw [← htc]
    cases r.tc with
    | none => rfl
    | some tc => simp [Timestamp.storedGt]
  unfold targetRowActive buildTargetRow snapSelects
  simp only [rowToTarget, hprov, hown]
  rw [← hel, ← Bool.not_not (db.modelCooling t₀ ct), ← hmc]
  unfold JoinedRow.eligible
  cases r.p.active <;> cases r.ct.active <;> cases r.ct.modelRowId <;> cases r.ct.subComboId <;>
    cases r.m.any (·.active) <;> cases db.ownOverSnap now ct <;> cases r.modelCooldownUntil <;> rfl

theorem snapTarget_eq (db : Database) (t₀ now : Timestamp) (comboId : Int) (ct : ComboTargetRow) :
    db.snapTarget t₀ now comboId ct =
      if ct.comboId = comboId ∧ db.snapSelects t₀ now ct = true then some (db.decodeTarget ct none) else none := by
  unfold snapTarget
  cases hj : db.joinRow t₀ ct with
  | none =>
    have hnone : (db.providers.find? fun p => p.id = ct.providerId) = none := by
      simpa [joinRow] using hj
    simp [snapSelects, targetEligible, providerActive_of_none hnone]
  | some r =>
    have htarget : (buildTargetRow (build db t₀).providers r).target = db.decodeTarget ct none := by
      unfold buildTargetRow decodeTarget
      simp only [joinRow_ct hj, scope_eq hj, rowToTarget]
      cases r.tc with
      | none => rfl
      | some tc => simp [fromStr_toRfc3339]
    simp only [Option.filter_some, joinRow_ct hj, targetRowActive_eq hj]
    by_cases h : ct.comboId = comboId ∧ db.snapSelects t₀ now ct = true
    · rw [if_pos h, if_pos (by simpa using h), Option.map_some, htarget]
    · rw [if_neg h, if_neg (by simpa using h)]
      rfl

end Database

end OpenProxy.Routing
