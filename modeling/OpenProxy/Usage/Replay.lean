import OpenProxy.Data.Machine
import OpenProxy.Usage.Journal

/-!
# Replaying the usage journal

Replayers take the jobs of the journal in pages and apply a page in one transaction; where this fails they go through
the page entry by entry, and other replayers may be at work in between.  The effect of a job and the removal of its
entry are one transaction, which checks first that the entry is still there.  In every run each entry that was appended
is either still in the journal or has had its effect once, and the effects come in the order of the ids
(`replay_exactlyOnce`).

A transaction is one step that is done as a whole or not at all, and it may fail in any step; a crash ends all replayers
and leaves the database.  The store keeps for the statements which entries were ever appended and which jobs were
applied.
-/

namespace OpenProxy.Usage

inductive CooldownMode
  | flat
  | exponential
  | none
  deriving DecidableEq

structure AttemptCooldown where
  targetId : Nat
  comboId : Int
  error : Option Text
  isUpstreamHealthIssue : Bool
  mode : CooldownMode
  baseSecs : Nat
  maxSecs : Nat
  factor : Nat
  deriving DecidableEq

/-- `BackgroundJob`; `υ` is the type of `UsageInput`. -/
inductive BackgroundJob (υ : Type)
  | journalWake
  | recordUsage (input : υ)
  | recordAttempt (input : υ) (cooldown : AttemptCooldown)
  | markClientResponse (requestId : Text) (attempt targetId : Nat)

/-- The writes of a job to the tables other than the journal; each of them may fail. -/
structure Writes (υ δ : Type) where
  recordRow : υ → δ → Option δ
  clearCooldown : Nat → δ → Option δ
  recordCooldown : AttemptCooldown → Text → δ → Option δ
  markWinnerUsageRow : Text → Nat → Nat → δ → Option δ

/-- The database. -/
structure Store (υ δ : Type) where
  journal : Journal
  data : δ
  history : List Entry
  applied : List (Nat × BackgroundJob υ)

variable {υ δ : Type}

namespace Store

/-! ### The transactions -/

section Transactions

variable (writes : Writes υ δ) (decode : Text → Option (BackgroundJob υ))

/-- What an attempt changes at the cooldown of its target. -/
def cooldownEffect (cooldown : Option AttemptCooldown) (data : δ) : Option δ :=
  match cooldown.filter fun c : AttemptCooldown => c.comboId != -1 with
  | none => some data
  | some c =>
    match c.error with
    | none => writes.clearCooldown c.targetId data
    | some reason => if c.isUpstreamHealthIssue then writes.recordCooldown c reason data else some data

def recordInTransaction (job : BackgroundJob υ) (input : υ) (cooldown : Option AttemptCooldown) (id : Nat)
    (s : Store υ δ) : Option (Store υ δ) :=
  if !s.journal.contains id then some s
  else
    ((writes.recordRow input s.data).bind (cooldownEffect writes cooldown)).map fun data =>
      { s with journal := s.journal.acknowledge id, data := data, applied := s.applied ++ [(id, job)] }

def applyEntry (job : BackgroundJob υ) (id : Nat) (s : Store υ δ) : Option (Store υ δ) :=
  match job with
  | .journalWake => none
  | .recordUsage input => recordInTransaction writes job input none id s
  | .recordAttempt input cooldown => recordInTransaction writes job input (some cooldown) id s
  | .markClientResponse requestId attempt targetId =>
    if s.journal.contains id then
      (writes.markWinnerUsageRow requestId attempt targetId s.data).map fun data =>
        { s with journal := s.journal.acknowledge id, data := data, applied := s.applied ++ [(id, job)] }
    else some s

/-- The transaction of `apply_batch`, if it is committed. -/
def applyBatch : List Entry → Store υ δ → Option (Store υ δ)
  | [], s => some s
  | entry :: entries, s =>
    (decode entry.payload).bind fun job => (applyEntry writes job entry.id s).bind (applyBatch entries)

end Transactions

/-- The entries that were inserted for the payloads. -/
def inserted (payloads : List Text) (results : List (Except JournalError Nat)) : List Entry :=
  (payloads.zip results).filterMap fun
    | (payload, .ok id) => some ⟨id, payload⟩
    | (_, .error _) => none

def append (s : Store υ δ) (payload : Text) : Store υ δ :=
  let appended := s.journal.append payload
  { s with journal := appended.1, history := s.history ++ inserted [payload] [appended.2] }

def appendBatch (s : Store υ δ) (payloads : List Text) : Store υ δ :=
  let appended := s.journal.appendBatch payloads
  { s with journal := appended.1, history := s.history ++ inserted payloads appended.2 }

end Store

/-! ### The steps -/

def replayBatch : Nat := 256

/-- Where a replayer is. -/
inductive ReplayerPc
  /-- It is not running. -/
  | idle
  /-- The top of the loop of `replay_pending_with_coordinator`. -/
  | top
  /-- A page has been read. -/
  | page (entries : List Entry)
  /-- The loop of `replay_one_by_one`. -/
  | oneByOne (entries : List Entry)

structure ReplayState (υ δ : Type) where
  store : Store υ δ
  replayers : Nat → ReplayerPc

inductive ReplayLabel
  /-- `admit_job`. -/
  | append (payload : Text) (fault : Bool)
  /-- The commit of `append_batch`, for `enqueue_with_backpressure`. -/
  | appendBatch (payloads : List Text) (fault : Bool)
  /-- A replayer is started, reads a page, or commits or rolls back a transaction. -/
  | replayer (r : Nat) (fault : Bool)
  | crash

namespace ReplayState

variable (writes : Writes υ δ) (decode : Text → Option (BackgroundJob υ))

def start (data : δ) : ReplayState υ δ := ⟨⟨⟨[], 0⟩, data, [], []⟩, fun _ => .idle⟩

def goto (s : ReplayState υ δ) (r : Nat) (pc : ReplayerPc) : ReplayState υ δ :=
  { s with replayers := fun i => if i = r then pc else s.replayers i }

/-- The transaction of `apply_batch`, which may also fail for a reason of the database. -/
def transaction (fault : Bool) (entries : List Entry) (s : Store υ δ) : Option (Store υ δ) :=
  if fault then none else s.applyBatch writes decode entries

def replayerStep (s : ReplayState υ δ) (r : Nat) (fault : Bool) : ReplayState υ δ :=
  match s.replayers r with
  | .idle => s.goto r .top
  | .top =>
    let entries := s.store.journal.pending replayBatch
    if fault ∨ entries = [] then s.goto r .idle else s.goto r (.page entries)
  | .page entries =>
    match transaction writes decode fault entries s.store with
    | some store => { s with store := store }.goto r .top
    | none => s.goto r (if entries.length > 1 then .oneByOne entries else .idle)
  | .oneByOne [] => s.goto r .top
  | .oneByOne (entry :: entries) =>
    match transaction writes decode fault [entry] s.store with
    | some store => { s with store := store }.goto r (.oneByOne entries)
    | none => s.goto r .idle

/-- A step of the whole system. -/
def step (s : ReplayState υ δ) : ReplayLabel → ReplayState υ δ × Unit
  | .append payload fault => (if fault then s else { s with store := s.store.append payload }, ())
  | .appendBatch payloads fault =>
    (if fault then s else { s with store := s.store.appendBatch payloads }, ())
  | .replayer r fault => (s.replayerStep writes decode r fault, ())
  | .crash => ({ s with replayers := fun _ => .idle }, ())

end ReplayState

namespace ReplayState

variable (writes : Writes υ δ) (decode : Text → Option (BackgroundJob υ))

/-- The entries that a step inserts: those for which the producer is given an id. -/
def insertedBy (s : ReplayState υ δ) : ReplayLabel → List Entry
  | .append payload false => Store.inserted [payload] [(s.store.journal.append payload).2]
  | .appendBatch payloads false => Store.inserted payloads (s.store.journal.appendBatch payloads).2
  | _ => []

/-- The entries that a run inserts. -/
def insertedIn (s : ReplayState υ δ) : List ReplayLabel → List Entry
  | [] => []
  | l :: labels => s.insertedBy l ++ insertedIn (s.step writes decode l).1 labels

end ReplayState

/-! ### The account of the entries -/

namespace Store

variable (writes : Writes υ δ) (decode : Text → Option (BackgroundJob υ))

/-- The effect of a job. -/
def jobEffect : BackgroundJob υ → δ → Option δ
  | .journalWake, _ => none
  | .recordUsage input, data => (writes.recordRow input data).bind (cooldownEffect writes none)
  | .recordAttempt input cooldown, data => (writes.recordRow input data).bind (cooldownEffect writes (some cooldown))
  | .markClientResponse requestId attempt targetId, data =>
    writes.markWinnerUsageRow requestId attempt targetId data

/-- The entries that were appended are those that were applied, in order, and then those that are still there. -/
structure Accounted (data₀ : δ) (s : Store υ δ) : Prop where
  ordered : s.history.Pairwise fun a b => a.id < b.id
  bounded : ∀ entry ∈ s.history, entry.id ≤ s.journal.sequence
  split : ∃ done, s.history = done ++ s.journal.rows ∧
    List.Forall₂ (fun (entry : Entry) a => a.1 = entry.id ∧ decode entry.payload = some a.2) done s.applied
  effects : s.applied.foldlM (fun data a => jobEffect writes a.2 data) data₀ = some s.data
  capacity : s.journal.depth ≤ maxPendingJobs

/-- The entries are a part of the history that begins not later than what is left in the journal. -/
def Behind (s : Store υ δ) (entries : List Entry) : Prop :=
  ∃ before after, s.history = before ++ (entries ++ after) ∧ before.length ≤ s.applied.length

variable {writes decode} {data₀ : δ} {s s' : Store υ δ}

/-- An entry that is still there is applied and removed; another one is passed over. -/
theorem applyEntry_cases {job : BackgroundJob υ} {id : Nat} (h : applyEntry writes job id s = some s') :
    s.journal.contains id = false ∧ s' = s ∨
      s.journal.contains id = true ∧ ∃ data, jobEffect writes job s.data = some data ∧
        s' = { s with journal := s.journal.acknowledge id, data := data, applied := s.applied ++ [(id, job)] } := by
  have hmap : ∀ effect : Option δ, (effect.map fun data =>
      ({ s with journal := s.journal.acknowledge id, data := data, applied := s.applied ++ [(id, job)] } :
        Store υ δ)) = some s' →
      ∃ data, effect = some data ∧
        s' = { s with journal := s.journal.acknowledge id, data := data, applied := s.applied ++ [(id, job)] } := by
    intro effect heffect
    rw [Option.map_eq_some_iff] at heffect
    obtain ⟨data, hdata, rfl⟩ := heffect
    exact ⟨data, hdata, rfl⟩
  cases hcontains : s.journal.contains id with
  | false =>
    left
    refine ⟨rfl, ?_⟩
    cases job with
    | journalWake => cases h
    | _ => simpa [applyEntry, recordInTransaction, hcontains, eq_comm] using h
  | true =>
    right
    refine ⟨rfl, ?_⟩
    apply hmap
    cases job with
    | journalWake => cases h
    | _ => simpa [applyEntry, recordInTransaction, hcontains, jobEffect] using h

/-- The next entry of a replayer is the first one of the journal, or it is not in the journal any more. -/
theorem Accounted.front (h : Accounted writes decode data₀ s) {entry : Entry} {entries : List Entry}
    (hbehind : Behind s (entry :: entries)) :
    (s.journal.contains entry.id = false ∧ ∃ before after, s.history = before ++ entry :: (entries ++ after) ∧
        before.length < s.applied.length) ∨
      ∃ before after, s.history = before ++ entry :: (entries ++ after) ∧ before.length = s.applied.length ∧
        s.journal.rows = entry :: (entries ++ after) := by
  obtain ⟨before, after, hhistory, hlength⟩ := hbehind
  obtain ⟨done, hdone, happlied⟩ := h.split
  have hdoneLength := happlied.length_eq
  rw [List.cons_append] at hhistory
  rcases Nat.lt_or_eq_of_le hlength with hlt | heq
  · left
    refine ⟨?_, before, after, hhistory, hlt⟩
    -- The entry stands among those that were applied, and ids are not given twice.
    have hordered := h.ordered
    rw [hdone, List.pairwise_append] at hordered
    have hmem : entry ∈ done := by
      have hget : s.history[before.length]? = some entry := by
        rw [hhistory, List.getElem?_append_right (Nat.le_refl _), Nat.sub_self]
        rfl
      rw [hdone, List.getElem?_append_left (by omega)] at hget
      exact List.mem_of_getElem? hget
    rw [Journal.contains, List.any_eq_false]
    intro other hother heq
    rw [beq_iff_eq] at heq
    have hid := hordered.2.2 entry hmem other hother
    omega
  · right
    refine ⟨before, after, hhistory, heq, ?_⟩
    rw [hhistory] at hdone
    exact (List.append_inj hdone (by omega)).2.symm

/-- The history and the list of what was applied only grow. -/
structure Later (s s' : Store υ δ) : Prop where
  history : s.history <+: s'.history
  applied : s.applied.length ≤ s'.applied.length

theorem Later.refl (s : Store υ δ) : Later s s := ⟨List.prefix_refl _, Nat.le_refl _⟩

theorem Later.trans {s'' : Store υ δ} (h : Later s s') (h' : Later s' s'') : Later s s'' :=
  ⟨h.history.trans h'.history, Nat.le_trans h.applied h'.applied⟩

theorem Behind.later {entries : List Entry} (h : Behind s entries) (hlater : Later s s') : Behind s' entries := by
  obtain ⟨before, after, hhistory, hlength⟩ := h
  obtain ⟨more, hmore⟩ := hlater.history
  refine ⟨before, after ++ more, ?_, Nat.le_trans hlength hlater.applied⟩
  rw [← hmore, hhistory]
  simp

/-- The first entry of the journal is applied and removed. -/
private theorem Accounted.acknowledge (h : Accounted writes decode data₀ s) {entry : Entry} {rows : List Entry}
    (hrows : s.journal.rows = entry :: rows) {job : BackgroundJob υ} (hjob : decode entry.payload = some job) {data : δ}
    (hdata : jobEffect writes job s.data = some data) :
    Accounted writes decode data₀
      { s with
        journal := s.journal.acknowledge entry.id, data := data, applied := s.applied ++ [(entry.id, job)] } := by
  obtain ⟨done, hdone, happlied⟩ := h.split
  have hordered := h.ordered
  rw [hdone, hrows, List.pairwise_append, List.pairwise_cons] at hordered
  have hrest : (s.journal.acknowledge entry.id).rows = rows := by
    rw [Journal.acknowledge, hrows, List.filter_cons_of_neg (by simp), List.filter_eq_self]
    intro other hother
    have hid := hordered.2.1.1 other hother
    rw [bne_iff_ne]
    omega
  refine ⟨h.ordered, h.bounded, ⟨done ++ [entry], ?_, ?_⟩, ?_, ?_⟩
  · rw [hdone, hrows, hrest, List.append_assoc]
    rfl
  · exact List.rel_append happlied (.cons ⟨rfl, hjob⟩ .nil)
  · rw [List.foldlM_append, h.effects]
    simpa using hdata
  · have hcapacity := h.capacity
    rw [Journal.depth, hrows, List.length_cons] at hcapacity
    rw [Journal.depth, hrest]
    omega

theorem applyEntry_accounted (h : Accounted writes decode data₀ s) {entry : Entry} {entries : List Entry}
    (hbehind : Behind s (entry :: entries)) {job : BackgroundJob υ} (hjob : decode entry.payload = some job)
    (happly : applyEntry writes job entry.id s = some s') :
    Accounted writes decode data₀ s' ∧ Later s s' ∧ Behind s' entries := by
  rcases applyEntry_cases happly with ⟨hnot, rfl⟩ | ⟨hcontains, data, hdata, rfl⟩
  · refine ⟨h, Later.refl s', ?_⟩
    rcases h.front hbehind with ⟨-, before, after, hhistory, hlength⟩ | ⟨before, after, hhistory, hlength, hrows⟩
    · refine ⟨before ++ [entry], after, by rw [hhistory]; simp, ?_⟩
      rw [List.length_append, List.length_singleton]
      omega
    · rw [Journal.contains, hrows, List.any_cons, beq_self_eq_true, Bool.true_or] at hnot
      cases hnot
  · rcases h.front hbehind with ⟨hnot, -⟩ | ⟨before, after, hhistory, hlength, hrows⟩
    · rw [hcontains] at hnot
      cases hnot
    · refine ⟨h.acknowledge hrows hjob hdata, ⟨List.prefix_refl _, by simp⟩, before ++ [entry], after, ?_, ?_⟩
      · rw [hhistory]
        simp
      · simp [hlength]

/-- A transaction that is committed keeps the account. -/
theorem applyBatch_accounted {entries : List Entry} (h : Accounted writes decode data₀ s) {rest : List Entry}
    (hbehind : Behind s (entries ++ rest)) (happly : s.applyBatch writes decode entries = some s') :
    Accounted writes decode data₀ s' ∧ Later s s' ∧ Behind s' rest := by
  induction entries generalizing s with
  | nil =>
    obtain rfl := Option.some.inj happly
    exact ⟨h, Later.refl s, hbehind⟩
  | cons entry entries ih =>
    rw [applyBatch, Option.bind_eq_some_iff] at happly
    obtain ⟨job, hjob, happly⟩ := happly
    rw [Option.bind_eq_some_iff] at happly
    obtain ⟨middle, hmiddle, happly⟩ := happly
    obtain ⟨haccounted, hlater, hnext⟩ := applyEntry_accounted h hbehind hjob hmiddle
    obtain ⟨haccounted', hlater', hrest⟩ := ih haccounted hnext happly
    exact ⟨haccounted', hlater.trans hlater', hrest⟩

theorem append_accounted (h : Accounted writes decode data₀ s) (payload : Text) :
    Accounted writes decode data₀ (s.append payload) ∧ Later s (s.append payload) := by
  unfold append Journal.append
  split
  · have hsame : s.history ++ inserted [payload] [.error .capacityExhausted] = s.history := List.append_nil _
    simp only [hsame]
    exact ⟨h, Later.refl s⟩
  · rename_i hdepth
    have hmore : inserted [payload] [.ok (s.journal.nextEntry payload).id] = [s.journal.nextEntry payload] := rfl
    simp only [hmore]
    obtain ⟨done, hdone, happlied⟩ := h.split
    refine ⟨⟨?_, ?_, ⟨done, ?_, happlied⟩, h.effects, ?_⟩, List.prefix_append _ _, Nat.le_refl _⟩
    · rw [List.pairwise_append]
      refine ⟨h.ordered, List.pairwise_singleton _ _, ?_⟩
      intro a ha b hb
      rw [List.mem_singleton] at hb
      subst hb
      exact Nat.lt_succ_of_le (h.bounded a ha)
    · intro entry hentry
      rcases List.mem_append.mp hentry with hentry | hentry
      · exact Nat.le_succ_of_le (h.bounded entry hentry)
      · rw [List.mem_singleton] at hentry
        subst hentry
        exact Nat.le_refl _
    · rw [hdone, List.append_assoc]
      rfl
    · rw [Journal.depth_insert]
      omega

/-- A batch does what single appends do. -/
theorem appendBatch_eq (s : Store υ δ) (payloads : List Text) : s.appendBatch payloads = payloads.foldl append s := by
  unfold appendBatch
  rw [Journal.appendBatch_eq]
  induction payloads generalizing s with
  | nil =>
    have hsame : s.history ++ inserted [] [] = s.history := List.append_nil _
    simp only [Journal.appendAll, hsame]
    rfl
  | cons payload payloads ih =>
    rw [List.foldl_cons, ← ih]
    have hsplit : ∀ results, inserted (payload :: payloads) ((s.journal.append payload).2 :: results) =
        inserted [payload] [(s.journal.append payload).2] ++ inserted payloads results := by
      intro results
      unfold inserted
      rw [← List.filterMap_append]
      rfl
    simp only [Journal.appendAll, append, hsplit, List.append_assoc]

theorem appendBatch_accounted (h : Accounted writes decode data₀ s) (payloads : List Text) :
    Accounted writes decode data₀ (s.appendBatch payloads) ∧ Later s (s.appendBatch payloads) := by
  rw [appendBatch_eq]
  induction payloads generalizing s with
  | nil => exact ⟨h, Later.refl s⟩
  | cons payload payloads ih =>
    obtain ⟨haccounted, hlater⟩ := append_accounted h payload
    obtain ⟨haccounted', hlater'⟩ := ih haccounted
    exact ⟨haccounted', hlater.trans hlater'⟩

/-- The page that is read begins where the journal begins. -/
theorem Accounted.behind_pending (h : Accounted writes decode data₀ s) (limit : Nat) :
    Behind s (s.journal.pending limit) := by
  obtain ⟨done, hdone, happlied⟩ := h.split
  refine ⟨done, s.journal.rows.drop limit, ?_, happlied.length_eq.le⟩
  rw [hdone, Journal.pending, List.take_append_drop]

end Store

/-! ### Whole runs -/

/-- The entries that a replayer has still to go through. -/
def ReplayerPc.entries : ReplayerPc → List Entry
  | .page entries => entries
  | .oneByOne entries => entries
  | _ => []

namespace ReplayState

open Store

variable {writes : Writes υ δ} {decode : Text → Option (BackgroundJob υ)} {data₀ : δ} {s : ReplayState υ δ}

structure Inv (writes : Writes υ δ) (decode : Text → Option (BackgroundJob υ)) (data₀ : δ) (s : ReplayState υ δ) :
    Prop where
  accounted : Accounted writes decode data₀ s.store
  behind : ∀ r, Behind s.store (s.replayers r).entries

private theorem behind_nil (s : Store υ δ) : Behind s [] := ⟨[], s.history, rfl, Nat.zero_le _⟩

theorem inv_start (writes : Writes υ δ) (decode : Text → Option (BackgroundJob υ)) (data₀ : δ) :
    Inv writes decode data₀ (start data₀) where
  accounted := ⟨List.Pairwise.nil, fun _ h => (List.not_mem_nil h).elim, ⟨[], rfl, .nil⟩, rfl, Nat.zero_le _⟩
  behind _ := behind_nil _

/-- The database goes on, and with it one of the replayers. -/
private theorem Inv.advance (h : Inv writes decode data₀ s) {store : Store υ δ}
    (haccounted : Accounted writes decode data₀ store) (hlater : Later s.store store) {r : Nat} {pc : ReplayerPc}
    (hpc : Behind store pc.entries) : Inv writes decode data₀ ({ s with store := store }.goto r pc) where
  accounted := haccounted
  behind i := by
    by_cases heq : i = r
    · simpa [goto, heq] using hpc
    · simpa [goto, heq] using (h.behind i).later hlater

private theorem Inv.goto (h : Inv writes decode data₀ s) {r : Nat} {pc : ReplayerPc} (hpc : Behind s.store pc.entries) :
    Inv writes decode data₀ (s.goto r pc) := h.advance h.accounted (Later.refl _) hpc

theorem replayerStep_inv (h : Inv writes decode data₀ s) (r : Nat) (fault : Bool) :
    Inv writes decode data₀ (s.replayerStep writes decode r fault) := by
  have hbehind := h.behind r
  unfold replayerStep
  split
  · exact h.goto (behind_nil _)
  · dsimp only
    split
    · exact h.goto (behind_nil _)
    · exact h.goto (h.accounted.behind_pending replayBatch)
  · rename_i entries hpc
    rw [hpc] at hbehind
    split
    · rename_i store htransaction
      have happly : s.store.applyBatch writes decode entries = some store := by
        cases fault with
        | true => cases htransaction
        | false => exact htransaction
      have hrest : Behind s.store (entries ++ []) := by simpa [ReplayerPc.entries] using hbehind
      obtain ⟨haccounted, hlater, hnext⟩ := applyBatch_accounted h.accounted hrest happly
      exact h.advance haccounted hlater hnext
    · split
      · exact h.goto hbehind
      · exact h.goto (behind_nil _)
  · exact h.goto (behind_nil _)
  · rename_i entry entries hpc
    rw [hpc] at hbehind
    split
    · rename_i store htransaction
      have happly : s.store.applyBatch writes decode [entry] = some store := by
        cases fault with
        | true => cases htransaction
        | false => exact htransaction
      obtain ⟨haccounted, hlater, hnext⟩ := applyBatch_accounted h.accounted hbehind happly
      exact h.advance haccounted hlater hnext
    · exact h.goto (behind_nil _)

theorem step_inv (h : Inv writes decode data₀ s) (l : ReplayLabel) :
    Inv writes decode data₀ (s.step writes decode l).1 := by
  cases l with
  | append payload fault =>
    cases fault with
    | true => exact h
    | false =>
      obtain ⟨haccounted, hlater⟩ := append_accounted h.accounted payload
      exact ⟨haccounted, fun r => (h.behind r).later hlater⟩
  | appendBatch payloads fault =>
    cases fault with
    | true => exact h
    | false =>
      obtain ⟨haccounted, hlater⟩ := appendBatch_accounted h.accounted payloads
      exact ⟨haccounted, fun r => (h.behind r).later hlater⟩
  | replayer r fault => exact replayerStep_inv h r fault
  | crash => exact ⟨h.accounted, fun _ => behind_nil _⟩

end ReplayState

namespace Store

/-- Every entry that was appended is either waiting or has been applied once. -/
structure ExactlyOnce (writes : Writes υ δ) (decode : Text → Option (BackgroundJob υ)) (data₀ : δ) (s : Store υ δ) :
    Prop where
  waiting_or_applied : ∀ entry ∈ s.history,
    entry ∈ s.journal.rows ∧ entry.id ∉ s.applied.map Prod.fst ∨
      entry ∉ s.journal.rows ∧ (s.applied.map Prod.fst).count entry.id = 1 ∧
        ∃ job, decode entry.payload = some job ∧ (entry.id, job) ∈ s.applied
  appended : ∀ a ∈ s.applied, ∃ entry ∈ s.history, entry.id = a.1
  distinct : (s.history.map Entry.id).Nodup
  order : (s.applied.map Prod.fst).Pairwise (· < ·)
  effects : s.applied.foldlM (fun data a => jobEffect writes a.2 data) data₀ = some s.data
  capacity : s.journal.depth ≤ maxPendingJobs

private theorem map_fst_of_forall₂ {decode : Text → Option (BackgroundJob υ)} {done : List Entry}
    {applied : List (Nat × BackgroundJob υ)}
    (h : List.Forall₂ (fun (entry : Entry) a => a.1 = entry.id ∧ decode entry.payload = some a.2) done applied) :
    applied.map Prod.fst = done.map Entry.id := by
  induction h with
  | nil => rfl
  | cons hhead _ ih => rw [List.map_cons, List.map_cons, hhead.1, ih]

private theorem exists_job_of_forall₂ {decode : Text → Option (BackgroundJob υ)} {done : List Entry}
    {applied : List (Nat × BackgroundJob υ)}
    (h : List.Forall₂ (fun (entry : Entry) a => a.1 = entry.id ∧ decode entry.payload = some a.2) done applied)
    {entry : Entry} (hentry : entry ∈ done) :
    ∃ job, decode entry.payload = some job ∧ (entry.id, job) ∈ applied := by
  induction h with
  | nil => cases hentry
  | cons hhead _ ih =>
    rename_i first a rest applied hrest
    rcases List.mem_cons.mp hentry with rfl | hentry
    · refine ⟨a.2, hhead.2, ?_⟩
      rw [← hhead.1]
      exact List.mem_cons_self
    · obtain ⟨job, hjob, hmem⟩ := ih hentry
      exact ⟨job, hjob, List.mem_cons_of_mem _ hmem⟩

theorem Accounted.exactlyOnce {writes : Writes υ δ} {decode : Text → Option (BackgroundJob υ)} {data₀ : δ}
    {s : Store υ δ} (h : Accounted writes decode data₀ s) : ExactlyOnce writes decode data₀ s := by
  obtain ⟨done, hdone, happlied⟩ := h.split
  have hids := map_fst_of_forall₂ happlied
  have hsorted : (s.history.map Entry.id).Pairwise (· < ·) := List.pairwise_map.mpr h.ordered
  have hnodup : (s.history.map Entry.id).Nodup := hsorted.imp fun hlt => Nat.ne_of_lt hlt
  rw [hdone, List.map_append] at hsorted hnodup
  refine ⟨?_, ?_, ?_, ?_, h.effects, h.capacity⟩
  · intro entry hentry
    rw [hdone] at hentry
    rw [hids]
    have hapart : ∀ e ∈ done, ∀ e' ∈ s.journal.rows, e.id ≠ e'.id := by
      intro e he e' he'
      exact (List.nodup_append.mp hnodup).2.2 e.id (List.mem_map_of_mem he) e'.id (List.mem_map_of_mem he')
    rcases List.mem_append.mp hentry with hentry | hentry
    · right
      refine ⟨fun hrow => hapart entry hentry entry hrow rfl, ?_, exists_job_of_forall₂ happlied hentry⟩
      exact List.count_eq_one_of_mem (List.nodup_append.mp hnodup).1 (List.mem_map_of_mem hentry)
    · left
      refine ⟨hentry, ?_⟩
      intro hmem
      obtain ⟨e, he, heq⟩ := List.mem_map.mp hmem
      exact hapart e he entry hentry heq
  · intro a ha
    have hmem : a.1 ∈ done.map Entry.id := by
      rw [← hids]
      exact List.mem_map_of_mem ha
    obtain ⟨entry, hentry, heq⟩ := List.mem_map.mp hmem
    exact ⟨entry, by rw [hdone]; exact List.mem_append_left _ hentry, heq⟩
  · rw [hdone, List.map_append]
    exact hnodup
  · rw [hids]
    exact (List.pairwise_append.mp hsorted).1

end Store

namespace Store

variable {writes : Writes υ δ} {decode : Text → Option (BackgroundJob υ)}

theorem applyBatch_history {entries : List Entry} {s s' : Store υ δ}
    (h : applyBatch writes decode entries s = some s') : s'.history = s.history := by
  induction entries generalizing s with
  | nil =>
    cases h
    rfl
  | cons entry entries ih =>
    obtain ⟨job, -, h⟩ := Option.bind_eq_some_iff.mp h
    obtain ⟨s₁, happly, hrest⟩ := Option.bind_eq_some_iff.mp h
    have hsame : s₁.history = s.history := by
      rcases applyEntry_cases happly with ⟨-, rfl⟩ | ⟨-, data, -, rfl⟩ <;> rfl
    exact (ih hrest).trans hsame

end Store

namespace ReplayState

variable {writes : Writes υ δ} {decode : Text → Option (BackgroundJob υ)}

theorem replayerStep_history (s : ReplayState υ δ) (r : Nat) (fault : Bool) :
    (s.replayerStep writes decode r fault).store.history = s.store.history := by
  have htransaction : ∀ {entries : List Entry} {store : Store υ δ},
      transaction writes decode fault entries s.store = some store → store.history = s.store.history := by
    intro entries store h
    cases fault with
    | true => cases h
    | false => exact Store.applyBatch_history h
  unfold replayerStep
  split
  · rfl
  · dsimp only
    split <;> rfl
  · split
    · rename_i h
      exact htransaction h
    · rfl
  · rfl
  · split
    · rename_i h
      exact htransaction h
    · rfl

/-- Only producers add to the history. -/
theorem step_history (s : ReplayState υ δ) (l : ReplayLabel) :
    (s.step writes decode l).1.store.history = s.store.history ++ s.insertedBy l := by
  cases l with
  | append payload fault =>
    cases fault with
    | true => exact (List.append_nil _).symm
    | false => rfl
  | appendBatch payloads fault =>
    cases fault with
    | true => exact (List.append_nil _).symm
    | false => rfl
  | replayer r fault => exact (replayerStep_history s r fault).trans (List.append_nil _).symm
  | crash => exact (List.append_nil _).symm

theorem runState_history (s : ReplayState υ δ) (labels : List ReplayLabel) :
    (runState (step writes decode) s labels).store.history = s.store.history ++ s.insertedIn writes decode labels := by
  induction labels generalizing s with
  | nil => exact (List.append_nil _).symm
  | cons l labels ih => rw [runState, ih, step_history, List.append_assoc, insertedIn]

end ReplayState

/-- In every run of producers and replayers, with crashes and failing transactions in between, each entry that was
appended is in the journal or has had its effect once, the effects come in the order of the ids, and the journal does
not outgrow its capacity; the entries are those for which the producers of the run were given an id. -/
theorem replay_exactlyOnce (writes : Writes υ δ) (decode : Text → Option (BackgroundJob υ)) (data₀ : δ)
    (labels : List ReplayLabel) :
    Store.ExactlyOnce writes decode data₀
        (runState (ReplayState.step writes decode) (ReplayState.start data₀) labels).store ∧
      (runState (ReplayState.step writes decode) (ReplayState.start data₀) labels).store.history =
        (ReplayState.start data₀).insertedIn writes decode labels := by
  have hinv : ReplayState.Inv writes decode data₀
      (runState (ReplayState.step writes decode) (ReplayState.start data₀) labels) :=
    runState_invariant labels (fun s l h => ReplayState.step_inv h l) (ReplayState.inv_start writes decode data₀)
  exact ⟨hinv.accounted.exactlyOnce, ReplayState.runState_history _ labels⟩

end OpenProxy.Usage
