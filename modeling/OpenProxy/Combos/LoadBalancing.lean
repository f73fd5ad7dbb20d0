import OpenProxy.Routing.Database
import OpenProxy.Data.Draws
import OpenProxy.Data.Float64

/-!
# The order of the targets

`execute_load_balancing` puts the targets of a combo into the order in which they are tried.  A strategy rotates them,
shuffles them or follows what the selection registry remembers of them; in all cases it only reorders them
(`executeLoadBalancing_reorders`).
-/

namespace OpenProxy.Combos

open Routing

/-! ### The selection registry -/

/-- The times and the counter of a target that the order depends on. -/
structure SelectionRegistryEntry where
  lastSuccessMs : Nat
  lastActivityMs : Nat
  requestCount : Nat
  deriving DecidableEq, Repr

/-- The registry at one time. -/
structure SelectionRegistry where
  inner : Int → Option SelectionRegistryEntry
  nowMs : Nat

namespace SelectionRegistry

/-- `window_secs.saturating_mul(1000)`. -/
def windowMs (windowSecs : Nat) : Nat := min (windowSecs * 1000) (2 ^ 64 - 1)

/-- `last_success_within`. -/
def lastSuccessWithin (registry : SelectionRegistry) (targetId : Int) (windowSecs : Nat) : Nat :=
  match registry.inner targetId with
  | some e =>
    if 0 < e.lastSuccessMs ∧ registry.nowMs - e.lastSuccessMs ≤ windowMs windowSecs then e.lastSuccessMs else 0
  | none => 0

/-- `last_activity_within`. -/
def lastActivityWithin (registry : SelectionRegistry) (targetId : Int) (windowSecs : Nat) : Nat :=
  match registry.inner targetId with
  | some e =>
    if 0 < e.lastActivityMs ∧ registry.nowMs - e.lastActivityMs ≤ windowMs windowSecs then e.lastActivityMs else 0
  | none => 0

/-- `resolve_entry_reference_ms`. -/
def resolveEntryReferenceMs (e : SelectionRegistryEntry) : Nat :=
  if 0 < e.lastSuccessMs then e.lastSuccessMs else e.lastActivityMs

/-- `get_entry_request_count`. -/
def getEntryRequestCount (registry : SelectionRegistry) (e : SelectionRegistryEntry) (windowSecs : Nat) : Nat :=
  if e.requestCount = 0 then 0
  else if resolveEntryReferenceMs e = 0 then e.requestCount
  else if registry.nowMs - resolveEntryReferenceMs e ≤ windowMs windowSecs then e.requestCount
  else 0

/-- `request_count_within`. -/
def requestCountWithin (registry : SelectionRegistry) (targetId : Int) (windowSecs : Nat) : Nat :=
  ((registry.inner targetId).map (registry.getEntryRequestCount · windowSecs)).getD 0

end SelectionRegistry

/-! ### Combos -/

inductive PriorityMode
  | strict
  | lkgp
  | weighted
  | leastUsed
  | p2c
  | decision
  deriving DecidableEq, Repr

/-- The columns of a combo that the order of its targets depends on. -/
structure SelectionCombo where
  id : Int
  strategy : Strategy
  priorityMode : PriorityMode
  lkgpExplorationRate : Option ℚ
  selectionWindowSecs : Option Nat
  deriving DecidableEq

/-- `DEFAULT_SELECTION_WINDOW_SECS`. -/
def defaultSelectionWindowSecs : Nat := 3600

/-- `DEFAULT_LKGP_EXPLORATION_RATE`. -/
def defaultLkgpExplorationRate : ℚ := toF64 (1 / 10)

/-! ### The strategies -/

/-- `execute_round_robin`, with the counters of the combos. -/
def executeRoundRobin (targets : List ComboTarget) (comboId : Int) (rrCounters : Int → Nat) :
    List ComboTarget × (Int → Nat) :=
  let n := targets.length
  if n = 0 then (targets, rrCounters)
  else
    let val := rrCounters comboId
    (targets.rotateLeft (val % n), Function.update rrCounters comboId ((val + 1) % 2 ^ 64))

/-- The indices of the targets with a property. -/
def indicesWhere (p : ComboTarget → Bool) (targets : List ComboTarget) : List Nat :=
  (targets.zipIdx.filter fun t => p t.1).map Prod.snd

/-- `sample_lkgp_exploration_target`. -/
def sampleLkgpExplorationTarget (targets : List ComboTarget) (windowSecs : Nat) (registry : SelectionRegistry)
    (draws : Draws) : Nat :=
  let untriedIndices := indicesWhere (fun t => registry.requestCountWithin t.id windowSecs == 0) targets
  let coldIndices := indicesWhere (fun t => registry.lastSuccessWithin t.id windowSecs == 0) targets
  if untriedIndices ≠ [] then untriedIndices.getD (draws.below 0 untriedIndices.length) 0
  else if coldIndices ≠ [] then coldIndices.getD (draws.below 0 coldIndices.length) 0
  else draws.below 0 targets.length

/-- `compare_lkgp_targets`. -/
def compareLkgpTargets (a b : ComboTarget) (windowSecs : Nat) (registry : SelectionRegistry) : Ordering :=
  let la := registry.lastSuccessWithin a.id windowSecs
  let lb := registry.lastSuccessWithin b.id windowSecs
  if la ≠ lb then compare lb la
  else
    match decide (0 < registry.lastActivityWithin a.id windowSecs),
      decide (0 < registry.lastActivityWithin b.id windowSecs) with
    | false, true => .lt
    | true, false => .gt
    | _, _ => compare a.priorityOrder b.priorityOrder

/-- `resolve_lkgp`. -/
def resolveLkgp (targets : List ComboTarget) (combo : SelectionCombo) (registry : SelectionRegistry) (draws : Draws) :
    List ComboTarget :=
  let explorationRate := max 0 (min (combo.lkgpExplorationRate.getD defaultLkgpExplorationRate) 1)
  let windowSecs := combo.selectionWindowSecs.getD defaultSelectionWindowSecs
  if 0 < explorationRate ∧ draws.unit < explorationRate ∧ targets ≠ [] then
    moveToHead targets (sampleLkgpExplorationTarget targets windowSecs registry draws)
  else targets.mergeSort fun a b => (compareLkgpTargets a b windowSecs registry).isLE

/-- The loop of `pick_weighted_index`, with the index of the first weight. -/
def pickWeightedIndexFrom (i : Nat) : List Nat → Nat → Nat
  | [], _ => 0
  | weight :: weights, pick => if pick < weight then i else pickWeightedIndexFrom (i + 1) weights (pick - weight)

/-- `pick_weighted_index`. -/
def pickWeightedIndex (weights : List Nat) (pick : Nat) : Nat := pickWeightedIndexFrom 0 weights pick

/-- `target_effective_weight`. -/
def targetEffectiveWeight (t : ComboTarget) : Nat := if t.weight ≤ 0 then 1 else t.weight.toNat

/-- `resolve_weighted`. -/
def resolveWeighted (targets : List ComboTarget) (draws : Draws) : List ComboTarget :=
  if targets = [] then targets
  else
    let weights := targets.map targetEffectiveWeight
    let total := weights.sum
    if total = 0 then targets else moveToHead targets (pickWeightedIndex weights (draws.below 0 total))

/-- `resolve_least_used`. -/
def resolveLeastUsed (targets : List ComboTarget) (windowSecs : Nat) (registry : SelectionRegistry) :
    List ComboTarget :=
  targets.mergeSort fun a b =>
    ((compare (registry.requestCountWithin a.id windowSecs) (registry.requestCountWithin b.id windowSecs)).then
      (compare a.priorityOrder b.priorityOrder)).isLE

/-- The two different indices that `resolve_p2c` compares. -/
def p2cSamples (n : Nat) (draws : Draws) : Nat × Nat :=
  let i := draws.below 0 n
  let j := draws.below 1 n
  (i, if i = j then (j + 1) % n else j)

/-- The count of recent requests of the target at an index. -/
def requestCountAt (targets : List ComboTarget) (windowSecs : Nat) (registry : SelectionRegistry) (i : Nat) : Nat :=
  (targets[i]?.map fun t => registry.requestCountWithin t.id windowSecs).getD 0

/-- `resolve_p2c`. -/
def resolveP2c (targets : List ComboTarget) (windowSecs : Nat) (registry : SelectionRegistry) (draws : Draws) :
    List ComboTarget :=
  if targets.length < 2 then targets
  else
    let (i, j) := p2cSamples targets.length draws
    let winner := if requestCountAt targets windowSecs registry i ≤ requestCountAt targets windowSecs registry j then i
      else j
    moveToHead targets winner

/-- `execute_priority_strategy`. -/
def executePriorityStrategy (targets : List ComboTarget) (combo : SelectionCombo) (registry : SelectionRegistry)
    (draws : Draws) : List ComboTarget :=
  let windowSecs := combo.selectionWindowSecs.getD defaultSelectionWindowSecs
  match combo.priorityMode with
  | .strict | .decision => targets
  | .lkgp => resolveLkgp targets combo registry draws
  | .weighted => resolveWeighted targets draws
  | .leastUsed => resolveLeastUsed targets windowSecs registry
  | .p2c => resolveP2c targets windowSecs registry draws

/-- `execute_load_balancing`. -/
def executeLoadBalancing (targets : List ComboTarget) (combo : SelectionCombo) (rrCounters : Int → Nat)
    (registry : SelectionRegistry) (draws : Draws) : List ComboTarget × (Int → Nat) :=
  if targets.length ≤ 1 then (targets, rrCounters)
  else
    match combo.strategy with
    | .roundRobin => executeRoundRobin targets combo.id rrCounters
    | .shuffle => (shuffleBy targets draws.swaps, rrCounters)
    | .priority => (executePriorityStrategy targets combo registry draws, rrCounters)

/-! ### Nothing is lost or doubled -/

theorem executeRoundRobin_perm (targets : List ComboTarget) (comboId : Int) (rrCounters : Int → Nat) :
    (executeRoundRobin targets comboId rrCounters).1.Perm targets := by
  unfold executeRoundRobin
  dsimp only
  split
  · exact List.Perm.refl targets
  · exact rotateLeft_perm targets _

theorem resolveLkgp_perm (targets : List ComboTarget) (combo : SelectionCombo) (registry : SelectionRegistry)
    (draws : Draws) : (resolveLkgp targets combo registry draws).Perm targets := by
  unfold resolveLkgp
  dsimp only
  split
  · exact moveToHead_perm targets _
  · exact List.mergeSort_perm targets _

theorem resolveWeighted_perm (targets : List ComboTarget) (draws : Draws) :
    (resolveWeighted targets draws).Perm targets := by
  unfold resolveWeighted
  dsimp only
  split
  · exact List.Perm.refl targets
  · split
    · exact List.Perm.refl targets
    · exact moveToHead_perm targets _

theorem resolveP2c_perm (targets : List ComboTarget) (windowSecs : Nat) (registry : SelectionRegistry)
    (draws : Draws) : (resolveP2c targets windowSecs registry draws).Perm targets := by
  unfold resolveP2c
  split
  · exact List.Perm.refl targets
  · exact moveToHead_perm targets _

theorem executePriorityStrategy_perm (targets : List ComboTarget) (combo : SelectionCombo)
    (registry : SelectionRegistry) (draws : Draws) :
    (executePriorityStrategy targets combo registry draws).Perm targets := by
  unfold executePriorityStrategy
  dsimp only
  cases combo.priorityMode with
  | strict => exact List.Perm.refl targets
  | decision => exact List.Perm.refl targets
  | lkgp => exact resolveLkgp_perm targets combo registry draws
  | weighted => exact resolveWeighted_perm targets draws
  | leastUsed => exact List.mergeSort_perm targets _
  | p2c => exact resolveP2c_perm targets _ registry draws

theorem executeLoadBalancing_perm (targets : List ComboTarget) (combo : SelectionCombo) (rrCounters : Int → Nat)
    (registry : SelectionRegistry) (draws : Draws) :
    (executeLoadBalancing targets combo rrCounters registry draws).1.Perm targets := by
  unfold executeLoadBalancing
  split
  · exact List.Perm.refl targets
  · cases combo.strategy with
    | roundRobin => exact executeRoundRobin_perm targets combo.id rrCounters
    | shuffle => exact shuffleBy_perm targets draws.swaps
    | priority => exact executePriorityStrategy_perm targets combo registry draws

/-! ### Weighted draws -/

/-- A draw below the sum of the weights picks one of them. -/
theorem pickWeightedIndexFrom_bounds {weights : List Nat} {i pick : Nat} (h : pick < weights.sum) :
    i ≤ pickWeightedIndexFrom i weights pick ∧ pickWeightedIndexFrom i weights pick < i + weights.length := by
  induction weights generalizing i pick with
  | nil => exact absurd h (Nat.not_lt_zero pick)
  | cons weight weights ih =>
    rw [List.sum_cons] at h
    unfold pickWeightedIndexFrom
    rw [List.length_cons]
    split
    · omega
    · have hrest := @ih (i + 1) (pick - weight) (by omega)
      omega

/-- As many draws as its weight pick a weight. -/
theorem count_pickWeightedIndexFrom {weights : List Nat} {i j : Nat} (hj : j < weights.length) :
    ((List.range weights.sum).countP fun pick => pickWeightedIndexFrom i weights pick == i + j) = weights[j] := by
  induction weights generalizing i j with
  | nil => exact absurd hj (Nat.not_lt_zero j)
  | cons weight weights ih =>
    have hfirst : ∀ pick < weight, pickWeightedIndexFrom i (weight :: weights) pick = i := fun pick hpick => if_pos hpick
    have hrest : ∀ pick, pickWeightedIndexFrom i (weight :: weights) (weight + pick) =
        pickWeightedIndexFrom (i + 1) weights pick := by
      intro pick
      rw [pickWeightedIndexFrom, if_neg (by omega), Nat.add_sub_cancel_left]
    rw [List.sum_cons, List.range_add, List.countP_append, List.countP_map]
    have htail : ((List.range weights.sum).countP
        ((fun pick => pickWeightedIndexFrom i (weight :: weights) pick == i + j) ∘ (weight + ·))) =
        (List.range weights.sum).countP fun pick => pickWeightedIndexFrom (i + 1) weights pick == i + j := by
      congr 1
      funext pick
      simp only [Function.comp, hrest]
    rw [htail]
    cases j with
    | zero =>
      have hall : ((List.range weight).countP fun pick => pickWeightedIndexFrom i (weight :: weights) pick == i + 0) =
          weight := by
        rw [List.countP_eq_length.2, List.length_range]
        intro pick hpick
        simp [hfirst pick (List.mem_range.1 hpick)]
      have hnone : ((List.range weights.sum).countP fun pick => pickWeightedIndexFrom (i + 1) weights pick == i + 0) =
          0 := by
        rw [List.countP_eq_zero]
        intro pick hpick
        have := (@pickWeightedIndexFrom_bounds weights (i + 1) pick (List.mem_range.1 hpick)).1
        simp only [beq_iff_eq]
        omega
      rw [hall, hnone]
      rfl
    | succ j =>
      have hnone : ((List.range weight).countP fun pick =>
          pickWeightedIndexFrom i (weight :: weights) pick == i + (j + 1)) = 0 := by
        rw [List.countP_eq_zero]
        intro pick hpick
        simp only [hfirst pick (List.mem_range.1 hpick), beq_iff_eq]
        omega
      have htail' := @ih (i + 1) j (by simpa using hj)
      rw [hnone, Nat.zero_add, List.getElem_cons_succ, ← htail', Nat.add_right_comm, Nat.add_assoc]

theorem targetEffectiveWeight_eq (t : ComboTarget) : (targetEffectiveWeight t : Int) = max t.weight 1 := by
  unfold targetEffectiveWeight
  split <;> omega

theorem targetEffectiveWeight_pos (t : ComboTarget) : 0 < targetEffectiveWeight t := by
  have := targetEffectiveWeight_eq t
  omega

/-- The sum of the weights. -/
def totalWeight (targets : List ComboTarget) : Nat := (targets.map targetEffectiveWeight).sum

theorem totalWeight_pos {targets : List ComboTarget} (h : targets ≠ []) : 0 < totalWeight targets := by
  cases targets with
  | nil => exact absurd rfl h
  | cons t targets =>
    have := targetEffectiveWeight_pos t
    simp only [totalWeight, List.map_cons, List.sum_cons]
    omega

/-- The index of the target that a draw puts first. -/
def weightedHead (targets : List ComboTarget) (pick : Nat) : Nat :=
  pickWeightedIndex (targets.map targetEffectiveWeight) pick

theorem weightedHead_lt {targets : List ComboTarget} {pick : Nat} (h : pick < totalWeight targets) :
    weightedHead targets pick < targets.length := by
  have := (@pickWeightedIndexFrom_bounds _ 0 pick h).2
  rwa [Nat.zero_add, List.length_map] at this

theorem count_weightedHead {targets : List ComboTarget} {i : Nat} (hi : i < targets.length) :
    (((List.range (totalWeight targets)).countP fun pick => weightedHead targets pick == i : Nat) : Int) =
      max targets[i].weight 1 := by
  have h := @count_pickWeightedIndexFrom (targets.map targetEffectiveWeight) 0 i (by simpa using hi)
  rw [Nat.zero_add, List.getElem_map] at h
  rw [← targetEffectiveWeight_eq, ← h]
  rfl

theorem resolveWeighted_eq {targets : List ComboTarget} (h : targets ≠ []) (draws : Draws) :
    resolveWeighted targets draws = moveToHead targets (weightedHead targets (draws.below 0 (totalWeight targets))) := by
  have htotal : (targets.map targetEffectiveWeight).sum ≠ 0 := (totalWeight_pos h).ne'
  unfold resolveWeighted
  dsimp only
  rw [if_neg h, if_neg htotal]
  rfl

/-! ### Two choices -/

theorem p2cSamples_lt {n : Nat} (hn : 2 ≤ n) (draws : Draws) :
    (p2cSamples n draws).1 < n ∧ (p2cSamples n draws).2 < n ∧ (p2cSamples n draws).1 ≠ (p2cSamples n draws).2 := by
  have hi := draws.below_lt 0 n (by omega)
  have hj := draws.below_lt 1 n (by omega)
  unfold p2cSamples
  refine ⟨hi, ?_, ?_⟩
  · dsimp only
    split
    · exact Nat.mod_lt _ (by omega)
    · exact hj
  · dsimp only
    split
    · rename_i heq
      rcases Nat.lt_or_ge (draws.below 1 n + 1) n with h | h
      · rw [Nat.mod_eq_of_lt h]
        omega
      · have hlast : draws.below 1 n + 1 = n := by omega
        rw [hlast, Nat.mod_self]
        omega
    · rename_i hne
      exact hne

theorem resolveP2c_head {targets : List ComboTarget} (hn : 2 ≤ targets.length) (windowSecs : Nat)
    (registry : SelectionRegistry) (draws : Draws) :
    ∃ head rest, resolveP2c targets windowSecs registry draws = head :: rest ∧
      registry.requestCountWithin head.id windowSecs ≤
        requestCountAt targets windowSecs registry (p2cSamples targets.length draws).1 ∧
      registry.requestCountWithin head.id windowSecs ≤
        requestCountAt targets windowSecs registry (p2cSamples targets.length draws).2 := by
  obtain ⟨hi, hj, -⟩ := p2cSamples_lt hn draws
  have hcount : ∀ {k : Nat} (hk : k < targets.length),
      requestCountAt targets windowSecs registry k = registry.requestCountWithin targets[k].id windowSecs := by
    intro k hk
    simp [requestCountAt, List.getElem?_eq_getElem hk]
  unfold resolveP2c
  rw [if_neg (by omega)]
  dsimp only
  split
  · rename_i hle
    refine ⟨_, _, moveToHead_eq hi, ?_, ?_⟩
    · rw [hcount hi]
    · rw [hcount hi] at hle
      exact hle
  · rename_i hlt
    refine ⟨_, _, moveToHead_eq hj, ?_, ?_⟩
    · rw [hcount hj] at hlt
      omega
    · rw [hcount hj]

/-! ### The result -/

/-- Whatever the strategy, the registry and the draws are, the targets are reordered and nothing else.  Of the draws below
the sum of the weights, as many as its weight put a target first, with the other ones in their order.  And the first of
two choices has no more requests than either of them. -/
theorem executeLoadBalancing_reorders (targets : List ComboTarget) (combo : SelectionCombo) (rrCounters : Int → Nat)
    (registry : SelectionRegistry) (draws : Draws) :
    (executeLoadBalancing targets combo rrCounters registry draws).1.Perm targets ∧
    (combo.strategy = .priority → combo.priorityMode = .weighted → targets ≠ [] →
      (∃ h : weightedHead targets (draws.below 0 (totalWeight targets)) < targets.length,
        (executeLoadBalancing targets combo rrCounters registry draws).1 =
          targets[weightedHead targets (draws.below 0 (totalWeight targets))] ::
            targets.eraseIdx (weightedHead targets (draws.below 0 (totalWeight targets)))) ∧
      ∀ (i : Nat) (hi : i < targets.length),
        (((List.range (totalWeight targets)).countP fun pick => weightedHead targets pick == i : Nat) : Int) =
          max targets[i].weight 1) ∧
    (combo.strategy = .priority → combo.priorityMode = .p2c → 2 ≤ targets.length →
      ∃ head rest, (executeLoadBalancing targets combo rrCounters registry draws).1 = head :: rest ∧
        ∀ sample ∈ [(p2cSamples targets.length draws).1, (p2cSamples targets.length draws).2],
          registry.requestCountWithin head.id (combo.selectionWindowSecs.getD defaultSelectionWindowSecs) ≤
            requestCountAt targets (combo.selectionWindowSecs.getD defaultSelectionWindowSecs) registry sample) := by
  refine ⟨executeLoadBalancing_perm targets combo rrCounters registry draws, ?_, ?_⟩
  · intro hstrategy hmode hne
    have hlt := weightedHead_lt (draws.below_lt 0 _ (totalWeight_pos hne))
    refine ⟨⟨hlt, ?_⟩, fun i hi => count_weightedHead hi⟩
    unfold executeLoadBalancing
    split
    · rename_i hlen
      -- a single target is the first one whatever is drawn
      obtain ⟨t, rfl⟩ := List.length_eq_one_iff.1 (Nat.le_antisymm hlen (List.length_pos_of_ne_nil hne))
      have hzero : weightedHead [t] (draws.below 0 (totalWeight [t])) = 0 := Nat.lt_one_iff.1 hlt
      simp only [hzero]
      rfl
    · rw [hstrategy]
      simp only [executePriorityStrategy, hmode]
      rw [resolveWeighted_eq hne, moveToHead_eq hlt]
  · intro hstrategy hmode hlen
    obtain ⟨head, rest, heq, hi, hj⟩ :=
      resolveP2c_head hlen (combo.selectionWindowSecs.getD defaultSelectionWindowSecs) registry draws
    refine ⟨head, rest, ?_, by simp [hi, hj]⟩
    unfold executeLoadBalancing
    rw [if_neg (by omega), hstrategy]
    simp only [executePriorityStrategy, hmode]
    exact heq

end OpenProxy.Combos
