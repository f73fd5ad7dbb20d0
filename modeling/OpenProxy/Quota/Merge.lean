import OpenProxy.Quota.Pools
import Mathlib.Data.List.Pairwise

/-!
# Merging quota snapshots

`merge_over_previous` puts a fresh snapshot of an account's pools over the stored one.  A fresh pool that could not be
read gives way to the stored pool with the same id, and where no stored pool has this id, to all stored pools of the
source.  The second replacement is made for each such pool on its own, so that two of them carry the same pools over
twice: `mergeRun_iff` says for which runs of merges the list keeps distinct pools and does not grow by failures.
-/

namespace OpenProxy.Quota

/-- A pool with the fields that a snapshot has besides. -/
structure SnapshotPool extends QuotaPool where
  id : Text
  lastFetchedAt : Text
  deriving DecidableEq

/-- `AccountQuota`; the other fields are those of the fresh snapshot. -/
structure AccountQuota where
  lastFetchedAt : Text
  fetchError : Option Text
  pools : Option (List SnapshotPool)
  deriving DecidableEq

namespace SnapshotPool

/-- What makes two pools the same one. -/
def key (pool : SnapshotPool) : QuotaSource × Text := (pool.source, pool.id)

/-- The pool as it is carried over when its source cannot be read. -/
def kept (old : SnapshotPool) (fetchError : Option Text) (fetchedAt : Text) : SnapshotPool :=
  { old with status := .unavailable, fetchError := fetchError, lastFetchedAt := fetchedAt }

end SnapshotPool

open SnapshotPool

/-! ### The merge -/

/-- The stored pools that take the place of an unreadable one. -/
def prior (previous : List SnapshotPool) (pool : SnapshotPool) : List SnapshotPool :=
  previous.filter fun p =>
    p.source = pool.source ∧ (p.id = pool.id ∨ ¬ previous.any fun p => p.source = pool.source ∧ p.id = pool.id)

def mergePool (previous : List SnapshotPool) (fetchedAt : Text) (pool : SnapshotPool) : List SnapshotPool :=
  if pool.status = .unavailable ∨ pool.fetchError.isSome then
    let prior := prior previous pool
    if prior ≠ [] then prior.map fun old => old.kept pool.fetchError fetchedAt else [pool]
  else [pool]

def AccountQuota.mergeOverPrevious (fresh : AccountQuota) (previous : Option AccountQuota) : AccountQuota :=
  match fresh.pools, previous.bind AccountQuota.pools with
  | some new, some previous =>
    if new ≠ [] then { fresh with pools := some (new.flatMap (mergePool previous fresh.lastFetchedAt)) }
    else { fresh with pools := some new }
  | some new, none => { fresh with pools := some new }
  | none, some kept =>
    if fresh.fetchError.isSome then
      { fresh with pools := some (kept.map fun pool => pool.kept fresh.fetchError fresh.lastFetchedAt) }
    else { fresh with pools := some kept }
  | none, none => { fresh with pools := none }

/-! ### What the merge is for -/

def AccountQuota.poolList (quota : AccountQuota) : List SnapshotPool := quota.pools.getD []

/-- The pools have distinct sources and ids. -/
def AccountQuota.Distinct (quota : AccountQuota) : Prop := (quota.poolList.map key).Nodup

instance (quota : AccountQuota) : Decidable quota.Distinct := inferInstanceAs (Decidable (List.Nodup _))

/-- The snapshot tried to read the source and could not. -/
def AccountQuota.FailedToRead (fresh : AccountQuota) (source : QuotaSource) : Prop :=
  (∃ p ∈ fresh.poolList, p.isUnreadable ∧ p.source = source) ∨ (fresh.pools = none ∧ fresh.fetchError.isSome)

/-- The snapshot has read nothing. -/
def AccountQuota.Failing (fresh : AccountQuota) : Prop :=
  match fresh.pools with
  | some pools => ∀ p ∈ pools, p.isUnreadable
  | none => fresh.fetchError.isSome

/-- The merge neither duplicates nor invents nor revives a pool, and a failing snapshot does not make the list grow. -/
structure Keeps (fresh previous : AccountQuota) : Prop where
  distinct : (fresh.mergeOverPrevious (some previous)).Distinct
  carried : ∀ q ∈ (fresh.mergeOverPrevious (some previous)).poolList, q ∈ fresh.poolList ∨
    ∃ old ∈ previous.poolList,
      q = { old with status := q.status, fetchError := q.fetchError, lastFetchedAt := q.lastFetchedAt } ∧
      (fresh.FailedToRead q.source → q.status = .unavailable)
  bounded : fresh.Failing → (fresh.mergeOverPrevious (some previous)).poolList.length ≤ previous.poolList.length

/-- The pool stands for a source of which all stored pools are carried over. -/
def Spreads (previous : List SnapshotPool) (pool : SnapshotPool) : Prop :=
  pool.isUnreadable ∧ pool.key ∉ previous.map key ∧ pool.source ∈ previous.map fun p => p.source

instance (previous : List SnapshotPool) (pool : SnapshotPool) : Decidable (Spreads previous pool) :=
  inferInstanceAs (Decidable (_ ∧ _ ∧ _))

/-- The fresh pools of sources that have no stored pool. -/
def added (previous new : List SnapshotPool) : List SnapshotPool :=
  new.filter fun p => p.source ∉ previous.map fun p => p.source

/-- The stored pools that no fresh pool gives way to. -/
def dropped (previous new : List SnapshotPool) : List SnapshotPool :=
  previous.filter fun q => ∀ p ∈ new, q ∉ prior previous p

/-- Where a pool spreads, the other fresh pools of its source are readable and new, and a failing snapshot brings no more
pools of new sources than it drops stored pools. -/
structure Meets (fresh previous : AccountQuota) : Prop where
  alone : ∀ p ∈ fresh.poolList, Spreads previous.poolList p → ∀ q ∈ fresh.poolList, q ≠ p → q.source = p.source →
    ¬ q.isUnreadable ∧ q.key ∉ previous.poolList.map key
  room : fresh.Failing →
    (added previous.poolList fresh.poolList).length ≤ (dropped previous.poolList fresh.poolList).length

/-- The relation holds of every merge of a run. -/
def EachMerge (R : AccountQuota → AccountQuota → Prop) : AccountQuota → List AccountQuota → Prop
  | _, [] => True
  | previous, fresh :: snapshots => R fresh previous ∧ EachMerge R (fresh.mergeOverPrevious (some previous)) snapshots

/-! ### The pools of a merge -/

theorem poolList_merge_of_some {fresh previous : AccountQuota} {new : List SnapshotPool} (h : fresh.pools = some new) :
    (fresh.mergeOverPrevious (some previous)).poolList =
      new.flatMap (mergePool previous.poolList fresh.lastFetchedAt) := by
  have hnil : mergePool [] fresh.lastFetchedAt = fun pool => [pool] := by
    funext pool
    simp [mergePool, prior]
  unfold AccountQuota.mergeOverPrevious AccountQuota.poolList
  rw [h, Option.bind_some]
  cases previous.pools with
  | none => rw [Option.getD_none, hnil, List.flatMap_singleton']; rfl
  | some old =>
    dsimp only
    split
    · rfl
    · rename_i hnew
      simp [not_not.1 hnew]

theorem poolList_merge_of_none {fresh previous : AccountQuota} (h : fresh.pools = none) :
    (fresh.mergeOverPrevious (some previous)).poolList =
      if fresh.fetchError.isSome then previous.poolList.map fun p => p.kept fresh.fetchError fresh.lastFetchedAt
      else previous.poolList := by
  unfold AccountQuota.mergeOverPrevious AccountQuota.poolList
  rw [h, Option.bind_some]
  cases previous.pools with
  | none => simp
  | some old =>
    dsimp only
    split <;> rfl

theorem isUnreadable_iff {pool : QuotaPool} : pool.isUnreadable ↔ pool.status = .unavailable ∨ pool.fetchError.isSome := by
  simp [QuotaPool.isUnreadable, or_comm]

section Keys

variable {previous : List SnapshotPool} {pool : SnapshotPool}

theorem prior_eq (previous : List SnapshotPool) (pool : SnapshotPool) :
    prior previous pool =
      previous.filter fun p => p.source = pool.source ∧ (p.id = pool.id ∨ pool.key ∉ previous.map key) := by
  have hkey : (previous.any fun p => decide (p.source = pool.source ∧ p.id = pool.id)) = true ↔
      pool.key ∈ previous.map key := by
    simp [SnapshotPool.key]
  unfold prior
  simp only [hkey]

theorem mem_prior {q : SnapshotPool} :
    q ∈ prior previous pool ↔
      q ∈ previous ∧ q.source = pool.source ∧ (q.id = pool.id ∨ pool.key ∉ previous.map key) := by
  rw [prior_eq, List.mem_filter, decide_eq_true_iff]

/-- A pool that spreads gives way to all stored pools of its source. -/
theorem prior_of_spreads (h : Spreads previous pool) :
    prior previous pool = previous.filter fun p => p.source = pool.source := by
  have hnew := h.2.1
  rw [prior_eq]
  simp only [hnew, not_false_eq_true, or_true, and_true]

/-- A pool that has been stored gives way to the stored one. -/
theorem prior_of_mem (h : pool.key ∈ previous.map key) :
    prior previous pool = previous.filter fun p => p.key = pool.key := by
  rw [prior_eq]
  simp only [h, not_true_eq_false, or_false]
  simp only [SnapshotPool.key, Prod.mk.injEq]

theorem prior_ne_nil_iff :
    prior previous pool ≠ [] ↔ pool.source ∈ previous.map fun p => p.source := by
  constructor
  · intro h
    obtain ⟨q, hq⟩ := List.exists_mem_of_ne_nil _ h
    obtain ⟨hmem, hsource, -⟩ := mem_prior.1 hq
    exact List.mem_map.2 ⟨q, hmem, hsource⟩
  · intro h
    obtain ⟨q, hmem, hsource⟩ := List.mem_map.1 h
    by_cases hkey : pool.key ∈ previous.map key
    · obtain ⟨q', hq', he⟩ := List.mem_map.1 hkey
      obtain ⟨hs, hi⟩ := Prod.mk.inj he
      exact List.ne_nil_of_mem (mem_prior.2 ⟨hq', hs, .inl hi⟩)
    · exact List.ne_nil_of_mem (mem_prior.2 ⟨hmem, hsource, .inr hkey⟩)

theorem mergePool_of_readable (fetchedAt : Text) (h : ¬ pool.isUnreadable) :
    mergePool previous fetchedAt pool = [pool] := by
  unfold mergePool
  rw [if_neg (isUnreadable_iff.not.1 h)]

theorem mergePool_of_prior (fetchedAt : Text) (h : pool.isUnreadable) (hp : prior previous pool ≠ []) :
    mergePool previous fetchedAt pool =
      (prior previous pool).map fun old => old.kept pool.fetchError fetchedAt := by
  unfold mergePool
  rw [if_pos (isUnreadable_iff.1 h)]
  exact if_pos hp

theorem mergePool_of_prior_eq_nil (fetchedAt : Text) (hp : prior previous pool = []) :
    mergePool previous fetchedAt pool = [pool] := by
  unfold mergePool
  split
  · exact if_neg (not_not.2 hp)
  · rfl

theorem keys_kept (l : List SnapshotPool) (fetchError : Option Text) (fetchedAt : Text) :
    (l.map fun old => old.kept fetchError fetchedAt).map key = l.map key := by
  rw [List.map_map]
  rfl

theorem keys_mergePool_of_spreads (fetchedAt : Text) (h : Spreads previous pool) :
    (mergePool previous fetchedAt pool).map key = (previous.filter fun p => p.source = pool.source).map key := by
  rw [mergePool_of_prior fetchedAt h.1 (prior_ne_nil_iff.2 h.2.2), keys_kept, prior_of_spreads h]

theorem keys_mergePool_of_not_spreads (fetchedAt : Text) (hprev : (previous.map key).Nodup)
    (h : ¬ Spreads previous pool) : (mergePool previous fetchedAt pool).map key = [pool.key] := by
  by_cases hread : pool.isUnreadable
  · by_cases hp : prior previous pool = []
    · rw [mergePool_of_prior_eq_nil fetchedAt hp, List.map_singleton]
    · have hkey : pool.key ∈ previous.map key := by
        by_contra hnew
        exact h ⟨hread, hnew, prior_ne_nil_iff.1 hp⟩
      have hfilter : (previous.filter fun p => p.key = pool.key).map key =
          (previous.map key).filter fun k => k = pool.key := by
        rw [List.filter_map]
        rfl
      rw [mergePool_of_prior fetchedAt hread hp, keys_kept, prior_of_mem hkey, hfilter, List.filter_eq,
        List.count_eq_one_of_mem hprev hkey]
      rfl
  · rw [mergePool_of_readable fetchedAt hread, List.map_singleton]

end Keys

/-! ### When the pools stay distinct -/

section Distinct

variable {previous : List SnapshotPool}

theorem mem_keys_of_source {source : QuotaSource} {k : QuotaSource × Text} :
    k ∈ (previous.filter fun p => p.source = source).map key ↔ k ∈ previous.map key ∧ k.1 = source := by
  simp only [List.mem_map, List.mem_filter, decide_eq_true_iff]
  constructor
  · rintro ⟨q, ⟨hq, rfl⟩, rfl⟩
    exact ⟨⟨q, hq, rfl⟩, rfl⟩
  · rintro ⟨⟨q, hq, rfl⟩, rfl⟩
    exact ⟨q, ⟨hq, rfl⟩, rfl⟩

/-- The pool spreads over a pool that comes from the other one too. -/
def Clash (previous : List SnapshotPool) (p q : SnapshotPool) : Prop :=
  Spreads previous p ∧ q.source = p.source ∧ (q.isUnreadable ∨ q.key ∈ previous.map key)

theorem not_disjoint_of_clash (hprev : (previous.map key).Nodup) (fetchedAt : Text) {p q : SnapshotPool}
    (h : Clash previous p q) :
    ¬ List.Disjoint ((mergePool previous fetchedAt p).map key) ((mergePool previous fetchedAt q).map key) := by
  obtain ⟨hp, hsource, hq⟩ := h
  rw [keys_mergePool_of_spreads fetchedAt hp]
  intro hdisjoint
  by_cases hkey : q.key ∈ previous.map key
  · have hnot : ¬ Spreads previous q := fun hs => hs.2.1 hkey
    rw [keys_mergePool_of_not_spreads fetchedAt hprev hnot] at hdisjoint
    exact hdisjoint (mem_keys_of_source.2 ⟨hkey, hsource⟩) (List.mem_singleton_self _)
  · have hspreads : Spreads previous q := ⟨hq.resolve_right hkey, hkey, hsource ▸ hp.2.2⟩
    rw [keys_mergePool_of_spreads fetchedAt hspreads, hsource] at hdisjoint
    obtain ⟨old, hold, hs⟩ := List.mem_map.1 hp.2.2
    have hmem := mem_keys_of_source.2 ⟨List.mem_map_of_mem (f := key) hold, hs⟩
    exact hdisjoint hmem hmem

theorem disjoint_of_not_clash (hprev : (previous.map key).Nodup) (fetchedAt : Text) {p q : SnapshotPool}
    (hne : p.key ≠ q.key) (hpq : ¬ Clash previous p q) (hqp : ¬ Clash previous q p) :
    List.Disjoint ((mergePool previous fetchedAt p).map key) ((mergePool previous fetchedAt q).map key) := by
  intro k hp hq
  by_cases hsp : Spreads previous p
  · rw [keys_mergePool_of_spreads fetchedAt hsp, mem_keys_of_source] at hp
    by_cases hsq : Spreads previous q
    · rw [keys_mergePool_of_spreads fetchedAt hsq, mem_keys_of_source] at hq
      exact hpq ⟨hsp, hq.2.symm.trans hp.2, .inl hsq.1⟩
    · rw [keys_mergePool_of_not_spreads fetchedAt hprev hsq, List.mem_singleton] at hq
      subst hq
      exact hpq ⟨hsp, hp.2, .inr hp.1⟩
  · rw [keys_mergePool_of_not_spreads fetchedAt hprev hsp, List.mem_singleton] at hp
    subst hp
    by_cases hsq : Spreads previous q
    · rw [keys_mergePool_of_spreads fetchedAt hsq, mem_keys_of_source] at hq
      exact hqp ⟨hsq, hq.2, .inr hq.1⟩
    · rw [keys_mergePool_of_not_spreads fetchedAt hprev hsq, List.mem_singleton] at hq
      exact hne hq

/-- The merged pools are distinct exactly where no two fresh pools clash. -/
theorem nodup_keys_merge_iff {new : List SnapshotPool} (hnew : (new.map key).Nodup) (hprev : (previous.map key).Nodup)
    (fetchedAt : Text) :
    ((new.flatMap (mergePool previous fetchedAt)).map key).Nodup ↔
      ∀ p ∈ new, ∀ q ∈ new, q ≠ p → ¬ Clash previous p q := by
  have hkeys : ∀ p ∈ new, ((mergePool previous fetchedAt p).map key).Nodup := by
    intro p _
    by_cases hp : Spreads previous p
    · rw [keys_mergePool_of_spreads fetchedAt hp]
      exact hprev.sublist (List.filter_sublist.map key)
    · rw [keys_mergePool_of_not_spreads fetchedAt hprev hp]
      exact List.nodup_singleton _
  rw [List.map_flatMap, List.nodup_flatMap]
  constructor
  · rintro ⟨-, hpairs⟩ p hp q hq hne hclash
    have hsymm : Std.Symm (Function.onFun List.Disjoint fun p => (mergePool previous fetchedAt p).map key) :=
      ⟨fun _ _ h => h.symm⟩
    exact not_disjoint_of_clash hprev fetchedAt hclash (hpairs.forall hp hq hne.symm)
  · intro h
    refine ⟨hkeys, (List.Nodup.of_map key hnew).pairwise_of_forall_ne ?_⟩
    intro p hp q hq hne
    have hkey : p.key ≠ q.key := fun he => hne (List.inj_on_of_nodup_map hnew hp hq he)
    exact disjoint_of_not_clash hprev fetchedAt hkey (h p hp q hq hne.symm) (h q hq p hp hne)

end Distinct

/-! ### When the list grows -/

section Growth

variable {previous new : List SnapshotPool} {fetchedAt : Text}

/-- The stored pools that a fresh pool gives way to. -/
def carriedOver (previous new : List SnapshotPool) : List SnapshotPool :=
  previous.filter fun q => ¬ ∀ p ∈ new, q ∉ prior previous p

theorem mem_carriedOver {q : SnapshotPool} : q ∈ carriedOver previous new ↔ ∃ p ∈ new, q ∈ prior previous p := by
  simp only [carriedOver, List.mem_filter, decide_eq_true_iff, not_forall, not_not, exists_prop]
  constructor
  · exact fun h => h.2
  · rintro ⟨p, hp, hq⟩
    exact ⟨(mem_prior.1 hq).1, p, hp, hq⟩

theorem length_carriedOver_add_dropped :
    (carriedOver previous new).length + (dropped previous new).length = previous.length := by
  have h := List.length_eq_length_filter_add (l := previous) fun q => decide (∀ p ∈ new, q ∉ prior previous p)
  simp only [carriedOver, dropped, decide_not]
  omega

theorem mem_keys_mergePool_of_unreadable {p : SnapshotPool} (hp : p.isUnreadable) (k : QuotaSource × Text) :
    k ∈ (mergePool previous fetchedAt p).map key ↔
      (k = p.key ∧ p.source ∉ previous.map fun p => p.source) ∨ k ∈ (prior previous p).map key := by
  by_cases hprior : prior previous p = []
  · have hsource := prior_ne_nil_iff.not_right.1 hprior
    rw [mergePool_of_prior_eq_nil fetchedAt hprior, hprior]
    simp [hsource]
  · have hsource := prior_ne_nil_iff.1 hprior
    rw [mergePool_of_prior fetchedAt hp hprior, keys_kept]
    simp only [hsource, not_true_eq_false, and_false, false_or]

/-- A merge of failures consists of the new pools and of those that are carried over. -/
theorem length_merge_of_failing (hnew : (new.map key).Nodup) (hprev : (previous.map key).Nodup)
    (hmerged : ((new.flatMap (mergePool previous fetchedAt)).map key).Nodup) (hfail : ∀ p ∈ new, p.isUnreadable) :
    (new.flatMap (mergePool previous fetchedAt)).length =
      (added previous new).length + (carriedOver previous new).length := by
  have hadded : ((added previous new).map key).Nodup := hnew.sublist (List.filter_sublist.map key)
  have hcarried : ((carriedOver previous new).map key).Nodup := hprev.sublist (List.filter_sublist.map key)
  have hboth : ((added previous new).map key ++ (carriedOver previous new).map key).Nodup := by
    rw [List.nodup_append']
    refine ⟨hadded, hcarried, ?_⟩
    intro k ha hc
    obtain ⟨p, hp, rfl⟩ := List.mem_map.1 ha
    obtain ⟨q, hq, he⟩ := List.mem_map.1 hc
    have hsource : q.source = p.source := congrArg Prod.fst he
    refine of_decide_eq_true (List.mem_filter.1 hp).2 ?_
    rw [← hsource]
    exact List.mem_map_of_mem (List.mem_filter.1 hq).1
  have hperm : ((new.flatMap (mergePool previous fetchedAt)).map key).Perm
      ((added previous new).map key ++ (carriedOver previous new).map key) := by
    rw [List.perm_ext_iff_of_nodup hmerged hboth]
    intro k
    rw [List.map_flatMap, List.mem_flatMap, List.mem_append]
    constructor
    · rintro ⟨p, hp, hk⟩
      rcases (mem_keys_mergePool_of_unreadable (hfail p hp) k).1 hk with ⟨rfl, hsource⟩ | hk
      · exact .inl (List.mem_map_of_mem (List.mem_filter.2 ⟨hp, decide_eq_true hsource⟩))
      · obtain ⟨q, hq, rfl⟩ := List.mem_map.1 hk
        exact .inr (List.mem_map_of_mem (mem_carriedOver.2 ⟨p, hp, hq⟩))
    · rintro (hk | hk)
      · obtain ⟨p, hp, rfl⟩ := List.mem_map.1 hk
        obtain ⟨hp, hsource⟩ := List.mem_filter.1 hp
        exact ⟨p, hp, (mem_keys_mergePool_of_unreadable (hfail p hp) _).2 (.inl ⟨rfl, of_decide_eq_true hsource⟩)⟩
      · obtain ⟨q, hq, rfl⟩ := List.mem_map.1 hk
        obtain ⟨p, hp, hq⟩ := mem_carriedOver.1 hq
        exact ⟨p, hp, (mem_keys_mergePool_of_unreadable (hfail p hp) _).2 (.inr (List.mem_map_of_mem hq))⟩
  have hlen := hperm.length_eq
  simpa using hlen

end Growth

/-! ### One merge -/

section Merge

variable {fresh previous : AccountQuota}

/-- A pool of a merge is a fresh one or a stored one that reads as unavailable where its source could not be read. -/
theorem carried_merge {q : SnapshotPool} (h : q ∈ (fresh.mergeOverPrevious (some previous)).poolList) :
    q ∈ fresh.poolList ∨ ∃ old ∈ previous.poolList,
      q = { old with status := q.status, fetchError := q.fetchError, lastFetchedAt := q.lastFetchedAt } ∧
      (fresh.FailedToRead q.source → q.status = .unavailable) := by
  have kept : ∀ {old : SnapshotPool} {fetchError fetchedAt}, old ∈ previous.poolList →
      q = old.kept fetchError fetchedAt → ∃ old ∈ previous.poolList,
        q = { old with status := q.status, fetchError := q.fetchError, lastFetchedAt := q.lastFetchedAt } ∧
        (fresh.FailedToRead q.source → q.status = .unavailable) := by
    rintro old fetchError fetchedAt hold rfl
    exact ⟨old, hold, rfl, fun _ => rfl⟩
  cases hpools : fresh.pools with
  | some new =>
    rw [poolList_merge_of_some hpools, List.mem_flatMap] at h
    obtain ⟨p, hp, hq⟩ := h
    have hfresh : fresh.poolList = new := by rw [AccountQuota.poolList, hpools, Option.getD_some]
    unfold mergePool at hq
    dsimp only at hq
    split at hq
    · split at hq
      · obtain ⟨old, hold, rfl⟩ := List.mem_map.1 hq
        exact .inr (kept (mem_prior.1 hold).1 rfl)
      · rw [List.mem_singleton.1 hq, hfresh]
        exact .inl hp
    · rw [List.mem_singleton.1 hq, hfresh]
      exact .inl hp
  | none =>
    rw [poolList_merge_of_none hpools] at h
    split at h
    · obtain ⟨old, hold, rfl⟩ := List.mem_map.1 h
      exact .inr (kept hold rfl)
    · rename_i herror
      refine .inr ⟨q, h, rfl, ?_⟩
      rintro (⟨p, hp, -⟩ | ⟨-, herror'⟩)
      · rw [AccountQuota.poolList, hpools, Option.getD_none] at hp
        cases hp
      · exact absurd herror' herror

/-- A snapshot without pools keeps the stored ones as they are, or as unavailable. -/
theorem keeps_of_none (hpools : fresh.pools = none) (hprev : previous.Distinct) : Keeps fresh previous := by
  have hkeys : (fresh.mergeOverPrevious (some previous)).poolList.map key = previous.poolList.map key := by
    rw [poolList_merge_of_none hpools]
    split
    · exact keys_kept _ _ _
    · rfl
  constructor
  · rw [AccountQuota.Distinct, hkeys]
    exact hprev
  · exact fun q hq => carried_merge hq
  · intro _
    have hlen := congrArg List.length hkeys
    rw [List.length_map, List.length_map] at hlen
    exact hlen.le

theorem meets_of_none (hpools : fresh.pools = none) : Meets fresh previous := by
  have hlist : fresh.poolList = [] := by rw [AccountQuota.poolList, hpools, Option.getD_none]
  constructor
  · intro p hp
    rw [hlist] at hp
    cases hp
  · intro _
    simp [hlist, added]

section Pools

variable {new : List SnapshotPool} (hpools : fresh.pools = some new) (hnew : (new.map key).Nodup)
  (hprev : previous.Distinct)

include hpools hnew hprev

theorem distinct_merge_iff :
    (fresh.mergeOverPrevious (some previous)).Distinct ↔
      ∀ p ∈ new, ∀ q ∈ new, q ≠ p → ¬ Clash previous.poolList p q := by
  rw [AccountQuota.Distinct, poolList_merge_of_some hpools]
  exact nodup_keys_merge_iff hnew hprev _

/-- A failing snapshot whose merge stays distinct makes the list grow by what it adds more than it drops. -/
theorem length_merge_le_iff (hdistinct : (fresh.mergeOverPrevious (some previous)).Distinct) (hfail : fresh.Failing) :
    (fresh.mergeOverPrevious (some previous)).poolList.length ≤ previous.poolList.length ↔
      (added previous.poolList new).length ≤ (dropped previous.poolList new).length := by
  rw [AccountQuota.Failing, hpools] at hfail
  rw [AccountQuota.Distinct, poolList_merge_of_some hpools] at hdistinct
  have hsum := @length_carriedOver_add_dropped previous.poolList new
  rw [poolList_merge_of_some hpools, length_merge_of_failing hnew hprev hdistinct hfail]
  omega

end Pools

theorem keeps_iff_meets (hfresh : fresh.Distinct) (hprev : previous.Distinct) :
    Keeps fresh previous ↔ Meets fresh previous := by
  cases hpools : fresh.pools with
  | none => exact iff_of_true (keeps_of_none hpools hprev) (meets_of_none hpools)
  | some new =>
    have hlist : fresh.poolList = new := by rw [AccountQuota.poolList, hpools, Option.getD_some]
    rw [AccountQuota.Distinct, hlist] at hfresh
    have hclash := distinct_merge_iff hpools hfresh hprev
    constructor
    · rintro ⟨hdistinct, -, hbounded⟩
      constructor
      · intro p hp hspreads q hq hne hsource
        rw [hlist] at hp hq
        rw [← not_or]
        exact fun h => hclash.1 hdistinct p hp q hq hne ⟨hspreads, hsource, h⟩
      · intro hfail
        rw [hlist]
        exact (length_merge_le_iff hpools hfresh hprev hdistinct hfail).1 (hbounded hfail)
    · rintro ⟨halone, hroom⟩
      have hdistinct : (fresh.mergeOverPrevious (some previous)).Distinct := by
        rw [hclash]
        rintro p hp q hq hne ⟨hspreads, hsource, h⟩
        rw [← hlist] at hp hq
        exact not_or.2 (halone p hp hspreads q hq hne hsource) h
      refine ⟨hdistinct, fun q hq => carried_merge hq, ?_⟩
      intro hfail
      rw [length_merge_le_iff hpools hfresh hprev hdistinct hfail, ← hlist]
      exact hroom hfail

end Merge

/-! ### Runs of merges -/

/-- Over a run of merges, the list keeps its pools distinct and does not grow by failures exactly where each of the merges
meets the condition. -/
theorem mergeRun_iff (previous : AccountQuota) (snapshots : List AccountQuota) (hprev : previous.Distinct)
    (hfresh : ∀ fresh ∈ snapshots, fresh.Distinct) :
    EachMerge Keeps previous snapshots ↔ EachMerge Meets previous snapshots := by
  induction snapshots generalizing previous with
  | nil => exact Iff.rfl
  | cons fresh snapshots ih =>
    obtain ⟨hfirst, hrest⟩ := List.forall_mem_cons.1 hfresh
    have hone := keeps_iff_meets hfirst hprev
    unfold EachMerge
    constructor
    · rintro ⟨hkeeps, hrun⟩
      exact ⟨hone.1 hkeeps, (ih _ hkeeps.distinct hrest).1 hrun⟩
    · rintro ⟨hmeets, hrun⟩
      have hkeeps := hone.2 hmeets
      exact ⟨hkeeps, (ih _ hkeeps.distinct hrest).2 hrun⟩

/-- A bucket of the starter plan, of which the reading may have failed. -/
def starterBucket (id : Text) (remaining : Option Int) (fetchError : Option Text) : SnapshotPool where
  source := .zcodeStarter
  status := if fetchError.isSome then .unavailable else .active
  used := none
  limit := none
  remaining := remaining
  expiresAt := none
  startsAt := none
  modelIds := [['m']]
  fetchError := fetchError
  id := id
  lastFetchedAt := ['1']

/-- One failure of the starter plan, and then one of everything. -/
theorem mergeRun_starter :
    EachMerge Keeps ⟨['1'], none, some [starterBucket ['a'] (some 9) none, starterBucket ['b'] (some 5) none]⟩
      [⟨['2'], none, some [starterBucket ['x'] none (some ['e'])]⟩, ⟨['3'], some ['e'], none⟩] :=
  (mergeRun_iff _ _ (by decide) (by decide)).2
    ⟨⟨by decide, fun _ => by decide⟩, ⟨by decide, fun _ => by decide⟩, trivial⟩

/-- Two failures of the starter plan carry its bucket over twice, and the next time four times. -/
theorem merge_twoFailures :
    let previous : AccountQuota := ⟨['1'], none, some [starterBucket ['a'] (some 9) none]⟩
    let fresh : AccountQuota :=
      ⟨['2'], none, some [starterBucket ['x'] none (some ['e']), starterBucket ['y'] none (some ['e'])]⟩
    let merged := fresh.mergeOverPrevious (some previous)
    previous.Distinct ∧ fresh.Distinct ∧ ¬ merged.Distinct ∧
      (∀ p ∈ fresh.poolList, p.isUnreadable) ∧ previous.poolList.length = 1 ∧
      merged.poolList.map key = [(.zcodeStarter, ['a']), (.zcodeStarter, ['a'])] ∧
      (fresh.mergeOverPrevious (some merged)).poolList.length = 4 := by
  intro previous fresh merged
  decide

end OpenProxy.Quota
