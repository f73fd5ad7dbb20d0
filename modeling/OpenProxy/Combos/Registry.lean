import OpenProxy.Combos.LoadBalancing
import OpenProxy.Data.Machine

/-!
# The history of the selection registry

The registry counts the requests to a target over its lifetime, and shows the count while a reference time is within the
window that is asked for: the time of the last success, or of the last activity when there is no success.
`requestCountWithin_sees_iff` says that the count sees the recent traffic unless an old success hides it.
-/

namespace OpenProxy.Combos

/-- All that the registry remembers of a target. -/
structure RegistryEntry extends SelectionRegistryEntry where
  successCount : Nat
  failureCount : Nat
  timeoutCount : Nat
  totalLatencyMs : Nat
  latencySamples : Nat
  deriving DecidableEq, Repr

/-- The entry of a new target. -/
def RegistryEntry.new : RegistryEntry := ⟨⟨0, 0, 0⟩, 0, 0, 0, 0, 0⟩

/-- `fetch_add`, which wraps around. -/
def fetchAdd (v n : Nat) : Nat := (v + n) % 2 ^ 64

namespace RegistryEntry

/-- The update of `record_request`. -/
def recordRequest (now : Nat) (e : RegistryEntry) : RegistryEntry :=
  { e with lastActivityMs := now, requestCount := min (e.requestCount + 1) (2 ^ 64 - 1) }

/-- The update of `record_success_with_latency`. -/
def recordSuccessWithLatency (now latencyMs : Nat) (e : RegistryEntry) : RegistryEntry :=
  { e with
    lastSuccessMs := now
    lastActivityMs := now
    requestCount := fetchAdd e.requestCount 1
    successCount := fetchAdd e.successCount 1
    totalLatencyMs := if 0 < latencyMs then fetchAdd e.totalLatencyMs latencyMs else e.totalLatencyMs
    latencySamples := if 0 < latencyMs then fetchAdd e.latencySamples 1 else e.latencySamples }

/-- The update of `record_failure_with_kind`. -/
def recordFailureWithKind (now : Nat) (isTimeout : Bool) (e : RegistryEntry) : RegistryEntry :=
  { e with
    lastActivityMs := now
    lastSuccessMs := 0
    requestCount := fetchAdd e.requestCount 1
    failureCount := fetchAdd e.failureCount 1
    timeoutCount := if isTimeout then fetchAdd e.timeoutCount 1 else e.timeoutCount }

end RegistryEntry

abbrev RegistryState := Int → Option RegistryEntry

/-- `update_entry`. -/
def updateEntry (s : RegistryState) (targetId : Int) (update : RegistryEntry → RegistryEntry) : RegistryState :=
  fun id => if id = targetId then some (update ((s targetId).getD .new)) else s id

/-- `prune_stale`. -/
def pruneStale (s : RegistryState) (now maxAgeMs : Nat) : RegistryState :=
  fun id => (s id).filter fun e =>
    let lastActive := max e.lastSuccessMs e.lastActivityMs
    0 < lastActive ∧ now - maxAgeMs % 2 ^ 64 ≤ lastActive

inductive RegistryCall
  | recordRequest (targetId : Int)
  | recordSuccessWithLatency (targetId : Int) (latencyMs : Nat)
  | recordFailureWithKind (targetId : Int) (isTimeout : Bool)
  | pruneStale (maxAgeMs : Nat)
  deriving DecidableEq, Repr

/-- A call, at a time. -/
structure RegistryEvent where
  nowMs : Nat
  call : RegistryCall
  deriving DecidableEq, Repr

/-- The target that a call is recorded for. -/
def RegistryEvent.target (event : RegistryEvent) : Option Int :=
  match event.call with
  | .recordRequest targetId => some targetId
  | .recordSuccessWithLatency targetId _ => some targetId
  | .recordFailureWithKind targetId _ => some targetId
  | .pruneStale _ => none

def registryStep (s : RegistryState) (event : RegistryEvent) : RegistryState × Unit :=
  match event.call with
  | .recordRequest targetId => (updateEntry s targetId (.recordRequest event.nowMs), ())
  | .recordSuccessWithLatency targetId latencyMs =>
    (updateEntry s targetId (.recordSuccessWithLatency event.nowMs latencyMs), ())
  | .recordFailureWithKind targetId isTimeout => (updateEntry s targetId (.recordFailureWithKind event.nowMs isTimeout), ())
  | .pruneStale maxAgeMs => (pruneStale s event.nowMs maxAgeMs, ())

/-- The registry after a history. -/
def registryAfter (history : List RegistryEvent) : RegistryState := runState registryStep (fun _ => none) history

/-- `request_count_within`, at a time. -/
def countAt (s : RegistryState) (now : Nat) (targetId : Int) (windowSecs : Nat) : Nat :=
  SelectionRegistry.requestCountWithin ⟨fun id => (s id).map RegistryEntry.toSelectionRegistryEntry, now⟩ targetId windowSecs

/-! ### What the count should see -/

/-- The event does not remove the target. -/
def Keeps (targetId : Int) (s : RegistryState) (event : RegistryEvent) : Prop :=
  (s targetId).isSome → ((registryStep s event).1 targetId).isSome

/-- The count of requests does not overflow, where it is not saturated. -/
def NoWrap (s : RegistryState) (event : RegistryEvent) : Prop :=
  match event.call with
  | .recordSuccessWithLatency targetId _ => ∀ e, s targetId = some e → e.requestCount < 2 ^ 64 - 1
  | .recordFailureWithKind targetId _ => ∀ e, s targetId = some e → e.requestCount < 2 ^ 64 - 1
  | _ => True

/-- The times of a history do not decrease; the clock begins at 1 and fits into 64 bits. -/
structure WellTimed (history : List RegistryEvent) (now : Nat) : Prop where
  sorted : history.Pairwise fun event event' => event.nowMs ≤ event'.nowMs
  pos : ∀ event ∈ history, 0 < event.nowMs
  le : ∀ event ∈ history, event.nowMs ≤ now
  fits : now < 2 ^ 64

/-- The count at the end of a history sees the recent traffic: it is positive if there is some, zero if there is none, and
from a recording on it does not decrease while that recording is recent. -/
structure Sees (history : List RegistryEvent) (now : Nat) (targetId : Int) (windowSecs : Nat) : Prop where
  positive : ∀ before r after, history = before ++ r :: after → r.target = some targetId →
    now - r.nowMs ≤ windowSecs * 1000 → AllSteps registryStep (Keeps targetId) (registryAfter (before ++ [r])) after →
    0 < countAt (registryAfter history) now targetId windowSecs
  zero : (∀ r ∈ history, r.target = some targetId → windowSecs * 1000 < now - r.nowMs) →
    countAt (registryAfter history) now targetId windowSecs = 0
  monotone : ∀ before r between after, history = before ++ r :: (between ++ after) → r.target = some targetId →
    now - r.nowMs ≤ windowSecs * 1000 →
    AllSteps registryStep (Keeps targetId) (registryAfter (before ++ [r])) (between ++ after) → ∀ earlier ≤ now,
    countAt (registryAfter (before ++ r :: between)) earlier targetId windowSecs ≤
      countAt (registryAfter history) now targetId windowSecs

/-- There is a recent activity, but the last success is not recent. -/
def Outdated (s : RegistryState) (now : Nat) (targetId : Int) (windowSecs : Nat) : Prop :=
  ∃ e, s targetId = some e ∧ now - e.lastActivityMs ≤ windowSecs * 1000 ∧ 0 < e.lastSuccessMs ∧
    windowSecs * 1000 < now - e.lastSuccessMs

/-! ### One step -/

theorem updateEntry_self (s : RegistryState) (targetId : Int) (update : RegistryEntry → RegistryEntry) :
    updateEntry s targetId update targetId = some (update ((s targetId).getD .new)) := if_pos rfl

theorem updateEntry_of_ne {s : RegistryState} {targetId id : Int} (h : id ≠ targetId)
    (update : RegistryEntry → RegistryEntry) : updateEntry s targetId update id = s id := if_neg h

/-- What an update makes of an entry. -/
structure Updated (now : Nat) (e e' : RegistryEntry) : Prop where
  activity : e'.lastActivityMs = now
  success : e'.lastSuccessMs = now ∨ e'.lastSuccessMs = 0 ∨ e'.lastSuccessMs = e.lastSuccessMs
  count : e.requestCount ≤ e'.requestCount
  count_pos : 0 < e'.requestCount
  count_lt : e'.requestCount < 2 ^ 64

theorem updated_recordRequest (now : Nat) {e : RegistryEntry} (h : e.requestCount < 2 ^ 64) :
    Updated now e (e.recordRequest now) := by
  refine ⟨rfl, Or.inr (Or.inr rfl), ?_, ?_, ?_⟩ <;> simp only [RegistryEntry.recordRequest] <;> omega

theorem updated_recordSuccessWithLatency (now latencyMs : Nat) {e : RegistryEntry} (h : e.requestCount < 2 ^ 64 - 1) :
    Updated now e (e.recordSuccessWithLatency now latencyMs) := by
  refine ⟨rfl, Or.inl rfl, ?_, ?_, ?_⟩ <;> simp only [RegistryEntry.recordSuccessWithLatency, fetchAdd] <;> omega

theorem updated_recordFailureWithKind (now : Nat) (isTimeout : Bool) {e : RegistryEntry}
    (h : e.requestCount < 2 ^ 64 - 1) : Updated now e (e.recordFailureWithKind now isTimeout) := by
  refine ⟨rfl, Or.inr (Or.inl rfl), ?_, ?_, ?_⟩ <;> simp only [RegistryEntry.recordFailureWithKind, fetchAdd] <;> omega

theorem getD_new {s : RegistryState} {targetId : Int} {P : RegistryEntry → Prop} (hnew : P .new)
    (h : ∀ e, s targetId = some e → P e) : P ((s targetId).getD .new) := by
  cases hs : s targetId with
  | none => exact hnew
  | some e => exact h e hs

/-- A recording updates the entry of its target; everything else leaves an entry as it is, or removes it. -/
theorem registryStep_spec {s : RegistryState} {event : RegistryEvent} (hwrap : NoWrap s event) {targetId : Int}
    (hcount : ∀ e, s targetId = some e → e.requestCount < 2 ^ 64) :
    (event.target = some targetId ∧
      ∃ e', (registryStep s event).1 targetId = some e' ∧ Updated event.nowMs ((s targetId).getD .new) e') ∨
    (event.target ≠ some targetId ∧
      ((registryStep s event).1 targetId = s targetId ∨ (registryStep s event).1 targetId = none)) := by
  have hother : ∀ {id : Int} (update : RegistryEntry → RegistryEntry), targetId ≠ id →
      some id ≠ some targetId ∧ (updateEntry s id update targetId = s targetId ∨ updateEntry s id update targetId = none) :=
    fun update hid => ⟨fun h => hid (Option.some.inj h).symm, Or.inl (updateEntry_of_ne hid update)⟩
  obtain ⟨now, call⟩ := event
  cases call with
  | recordRequest id =>
    by_cases hid : targetId = id
    · subst hid
      exact Or.inl ⟨rfl, _, updateEntry_self _ _ _, updated_recordRequest now (getD_new (by decide) hcount)⟩
    · exact Or.inr (hother _ hid)
  | recordSuccessWithLatency id latencyMs =>
    by_cases hid : targetId = id
    · subst hid
      exact Or.inl ⟨rfl, _, updateEntry_self _ _ _,
        updated_recordSuccessWithLatency now latencyMs (getD_new (by decide) hwrap)⟩
    · exact Or.inr (hother _ hid)
  | recordFailureWithKind id isTimeout =>
    by_cases hid : targetId = id
    · subst hid
      exact Or.inl ⟨rfl, _, updateEntry_self _ _ _,
        updated_recordFailureWithKind now isTimeout (getD_new (by decide) hwrap)⟩
    · exact Or.inr (hother _ hid)
  | pruneStale maxAgeMs =>
    refine Or.inr ⟨by simp [RegistryEvent.target], ?_⟩
    change (s targetId).filter _ = _ ∨ (s targetId).filter _ = _
    cases s targetId with
    | none => exact Or.inl rfl
    | some e =>
      rw [Option.filter_some]
      split
      · exact Or.inl rfl
      · exact Or.inr rfl

/-! ### A whole history -/

/-- What holds of an entry at a time. -/
structure Sound (now : Nat) (e : RegistryEntry) : Prop where
  success_le : e.lastSuccessMs ≤ e.lastActivityMs
  activity_le : e.lastActivityMs ≤ now
  activity_pos : 0 < e.lastActivityMs
  count_pos : 0 < e.requestCount
  count_lt : e.requestCount < 2 ^ 64

theorem Sound.later {now later : Nat} {e : RegistryEntry} (h : Sound now e) (hle : now ≤ later) : Sound later e :=
  ⟨h.success_le, h.activity_le.trans hle, h.activity_pos, h.count_pos, h.count_lt⟩

theorem sound_of_updated {now : Nat} {e e' : RegistryEntry} (h : Updated now e e') (hle : e.lastSuccessMs ≤ now)
    (hpos : 0 < now) : Sound now e' := by
  obtain ⟨hactivity, hsuccess, -, hcount, hlt⟩ := h
  exact ⟨by omega, by omega, by omega, hcount, hlt⟩

/-- From an entry on: as long as it is not removed, its count and the time of its last activity do not decrease. -/
theorem runState_keeps {s : RegistryState} {events : List RegistryEvent} {targetId : Int} {e : RegistryEntry} {now : Nat}
    (he : s targetId = some e) (hsound : Sound now e) (hwrap : AllSteps registryStep NoWrap s events)
    (hkeeps : AllSteps registryStep (Keeps targetId) s events)
    (htimes : events.Pairwise fun event event' => event.nowMs ≤ event'.nowMs) (hpos : ∀ event ∈ events, now ≤ event.nowMs) :
    ∃ e', runState registryStep s events targetId = some e' ∧ e.requestCount ≤ e'.requestCount ∧
      e.lastActivityMs ≤ e'.lastActivityMs := by
  induction events generalizing s e now with
  | nil => exact ⟨e, he, le_refl _, le_refl _⟩
  | cons event events ih =>
    obtain ⟨hwrap, hwraps⟩ := hwrap
    obtain ⟨hkeep, hkeeps⟩ := hkeeps
    obtain ⟨hfirst, htimes⟩ := List.pairwise_cons.mp htimes
    have hnow := hpos event List.mem_cons_self
    rcases registryStep_spec hwrap fun e' he' => by
        rw [he] at he'
        cases he'
        exact hsound.count_lt with
      ⟨-, e', he', hupdated⟩ | ⟨-, hsame | hnone⟩
    · rw [he, Option.getD_some] at hupdated
      have hle := hsound.success_le.trans hsound.activity_le
      have hsound' : Sound event.nowMs e' :=
        sound_of_updated hupdated (hle.trans hnow) (by have := hsound.activity_pos; have := hsound.activity_le; omega)
      obtain ⟨e'', he'', hcount, hactivity⟩ := ih he' hsound' hwraps hkeeps htimes hfirst
      refine ⟨e'', he'', hupdated.count.trans hcount, ?_⟩
      have := hsound.activity_le
      have := hupdated.activity
      omega
    · exact ih (hsame.trans he) hsound hwraps hkeeps htimes fun event' h => hpos event' (List.mem_cons_of_mem _ h)
    · have hsome := hkeep (by rw [he]; rfl)
      rw [hnone] at hsome
      cases hsome

/-- Between two parts of a history there is a time. -/
theorem WellTimed.split {earlier later : List RegistryEvent} {now : Nat} (h : WellTimed (earlier ++ later) now) :
    ∃ time ≤ now, WellTimed earlier time ∧ ∀ event ∈ later, time ≤ event.nowMs := by
  obtain ⟨hsorted, hpos, hle, hfits⟩ := h
  obtain ⟨hearlier, hlater, hbetween⟩ := List.pairwise_append.mp hsorted
  have hpos' : ∀ event ∈ earlier, 0 < event.nowMs := fun event h => hpos event (List.mem_append_left _ h)
  cases later with
  | nil => exact ⟨now, le_refl _, ⟨hearlier, hpos', fun event h => hle event (List.mem_append_left _ h), hfits⟩, by simp⟩
  | cons first later =>
    have hfirst := hle first (List.mem_append_right _ List.mem_cons_self)
    refine ⟨first.nowMs, hfirst, ⟨hearlier, hpos', fun event h => hbetween event h first List.mem_cons_self, by omega⟩, ?_⟩
    intro event hevent
    rcases List.mem_cons.mp hevent with rfl | hevent
    · exact le_refl _
    · exact (List.pairwise_cons.mp hlater).1 event hevent

theorem registryAfter_append (history : List RegistryEvent) (event : RegistryEvent) :
    registryAfter (history ++ [event]) = (registryStep (registryAfter history) event).1 := runState_append _ _ _

theorem registryAfter_from (earlier later : List RegistryEvent) :
    runState registryStep (registryAfter earlier) later = registryAfter (earlier ++ later) := (runState_append _ _ _).symm

/-- The entry of a target is sound, and its last activity is a recording since which the target has not been removed. -/
theorem registryAfter_spec {history : List RegistryEvent} {now : Nat} {targetId : Int} {e : RegistryEntry}
    (htimed : WellTimed history now) (hwrap : AllSteps registryStep NoWrap (fun _ => none) history)
    (he : registryAfter history targetId = some e) :
    Sound now e ∧ ∃ before r after, history = before ++ r :: after ∧ r.target = some targetId ∧
      r.nowMs = e.lastActivityMs ∧ AllSteps registryStep (Keeps targetId) (registryAfter (before ++ [r])) after := by
  induction history using List.reverseRecOn generalizing now e with
  | nil => cases he
  | append_singleton history event ih =>
    obtain ⟨hwraps, hwrap, -⟩ := allSteps_append.mp hwrap
    change NoWrap (registryAfter history) event at hwrap
    obtain ⟨time, -, hinit, hlater⟩ := htimed.split
    have htime := hlater event List.mem_cons_self
    have hle := htimed.le event (List.mem_append_right _ List.mem_cons_self)
    have hpos := htimed.pos event (List.mem_append_right _ List.mem_cons_self)
    rw [registryAfter_append] at he
    rcases registryStep_spec hwrap fun e' he' => (ih hinit hwraps he').1.count_lt with
      ⟨htarget, e', he', hupdated⟩ | ⟨-, hsame | hnone⟩
    · rw [he] at he'
      cases he'
      have hsuccess : ((registryAfter history targetId).getD .new).lastSuccessMs ≤ event.nowMs :=
        getD_new (P := fun e => e.lastSuccessMs ≤ event.nowMs) (Nat.zero_le _) fun e' he' => by
          have hsound := (ih hinit hwraps he').1
          exact (hsound.success_le.trans hsound.activity_le).trans htime
      exact ⟨(sound_of_updated hupdated hsuccess hpos).later hle, history, event, [], rfl, htarget, hupdated.activity.symm,
        trivial⟩
    · rw [he] at hsame
      obtain ⟨hsound, before, r, after, rfl, htarget, hactivity, hkeeps⟩ := ih hinit hwraps hsame.symm
      refine ⟨hsound.later (htime.trans hle), before, r, after ++ [event], by rw [List.append_assoc, List.cons_append],
        htarget, hactivity, ?_⟩
      refine allSteps_append.mpr ⟨hkeeps, fun _ => ?_, trivial⟩
      rw [registryAfter_from, List.append_assoc, List.singleton_append, he]
      rfl
    · rw [he] at hnone
      cases hnone

/-- From a part of a history on: as long as a target is not removed, its count and its last activity do not decrease. -/
theorem registryAfter_mono {earlier later : List RegistryEvent} {now : Nat} {targetId : Int} {e : RegistryEntry}
    (htimed : WellTimed (earlier ++ later) now) (hwrap : AllSteps registryStep NoWrap (fun _ => none) (earlier ++ later))
    (he : registryAfter earlier targetId = some e)
    (hkeeps : AllSteps registryStep (Keeps targetId) (registryAfter earlier) later) :
    ∃ e', registryAfter (earlier ++ later) targetId = some e' ∧ e.requestCount ≤ e'.requestCount ∧
      e.lastActivityMs ≤ e'.lastActivityMs := by
  obtain ⟨time, -, hearlier, hlater⟩ := htimed.split
  obtain ⟨hwraps, hwrap⟩ := allSteps_append.mp hwrap
  have hsound := (registryAfter_spec hearlier hwraps he).1
  rw [← registryAfter_from]
  exact runState_keeps he hsound hwrap hkeeps (List.pairwise_append.mp htimed.sorted).2.1 hlater

/-! ### The count -/

theorem countAt_none {s : RegistryState} {targetId : Int} (h : s targetId = none) (now windowSecs : Nat) :
    countAt s now targetId windowSecs = 0 := by
  simp [countAt, SelectionRegistry.requestCountWithin, h]

/-- The time that decides. -/
def reference (e : RegistryEntry) : Nat := if 0 < e.lastSuccessMs then e.lastSuccessMs else e.lastActivityMs

theorem countAt_some {s : RegistryState} {targetId : Int} {e : RegistryEntry} {now : Nat} (h : s targetId = some e)
    (hsound : Sound now e) (hnow : now < 2 ^ 64) (windowSecs : Nat) :
    countAt s now targetId windowSecs = if now - reference e ≤ windowSecs * 1000 then e.requestCount else 0 := by
  have hpos := hsound.count_pos
  have hactivity := hsound.activity_pos
  have hreference : SelectionRegistry.resolveEntryReferenceMs e.toSelectionRegistryEntry = reference e := rfl
  have hne : reference e ≠ 0 := by
    unfold reference
    split <;> omega
  have hwindow : now - reference e ≤ SelectionRegistry.windowMs windowSecs ↔ now - reference e ≤ windowSecs * 1000 := by
    unfold SelectionRegistry.windowMs
    omega
  unfold countAt SelectionRegistry.requestCountWithin
  dsimp only
  rw [h, Option.map_some, Option.map_some, Option.getD_some, SelectionRegistry.getEntryRequestCount, if_neg (by omega),
    hreference, if_neg hne]
  simp only [hwindow]

theorem countAt_le {s : RegistryState} {targetId : Int} {e : RegistryEntry} (h : s targetId = some e)
    (now windowSecs : Nat) : countAt s now targetId windowSecs ≤ e.requestCount := by
  unfold countAt SelectionRegistry.requestCountWithin SelectionRegistry.getEntryRequestCount
  dsimp only
  rw [h, Option.map_some, Option.map_some, Option.getD_some]
  split
  · omega
  · split
    · exact le_refl _
    · split
      · exact le_refl _
      · exact Nat.zero_le _

/-- The reference time is recent, if the last activity is and the entry is not outdated. -/
theorem reference_recent {s : RegistryState} {now : Nat} {targetId : Int} {windowSecs : Nat} {e : RegistryEntry}
    (he : s targetId = some e) (hrecent : now - e.lastActivityMs ≤ windowSecs * 1000)
    (h : ¬ Outdated s now targetId windowSecs) : now - reference e ≤ windowSecs * 1000 := by
  unfold reference
  split
  · rename_i hpos
    by_contra hstale
    exact h ⟨e, he, hrecent, hpos, by omega⟩
  · exact hrecent

section

variable {history : List RegistryEvent} {now : Nat} (htimed : WellTimed history now)
  (hwrap : AllSteps registryStep NoWrap (fun _ => none) history)

include htimed hwrap in
/-- A recent recording since which the target has not been removed leaves a recent entry with at least its count. -/
theorem exists_recent {before between after : List RegistryEvent} {r : RegistryEvent} {targetId : Int} {windowSecs : Nat}
    (hsplit : history = before ++ r :: (between ++ after)) (htarget : r.target = some targetId)
    (hrecent : now - r.nowMs ≤ windowSecs * 1000)
    (hkeeps : AllSteps registryStep (Keeps targetId) (registryAfter (before ++ [r])) (between ++ after)) :
    ∃ e e', registryAfter (before ++ r :: between) targetId = some e ∧ registryAfter history targetId = some e' ∧
      e.requestCount ≤ e'.requestCount ∧ now - e'.lastActivityMs ≤ windowSecs * 1000 := by
  have hparts : history = before ++ [r] ++ between ++ after := by rw [hsplit]; simp
  have hprior : before ++ r :: between = before ++ [r] ++ between := by simp
  obtain ⟨hkeepsBetween, hkeepsAfter⟩ := allSteps_append.mp hkeeps
  rw [registryAfter_from] at hkeepsAfter
  rw [hparts] at htimed hwrap
  obtain ⟨time, -, htimed₁, -⟩ := htimed.split
  obtain ⟨hwrap₁, -⟩ := allSteps_append.mp hwrap
  obtain ⟨time', -, htimed₀, -⟩ := htimed₁.split
  obtain ⟨hwrap₀, -⟩ := allSteps_append.mp hwrap₁
  -- The entry right after the recording.
  have hrecorded : ∃ e₀, registryAfter (before ++ [r]) targetId = some e₀ ∧ e₀.lastActivityMs = r.nowMs := by
    obtain ⟨_, -, hbefore, -⟩ := htimed₀.split
    obtain ⟨hwraps, hwrap, -⟩ := allSteps_append.mp hwrap₀
    rw [registryAfter_append]
    rcases registryStep_spec hwrap fun e he => (registryAfter_spec hbefore hwraps he).1.count_lt with
      ⟨-, e₀, he₀, hupdated⟩ | ⟨hother, -⟩
    · exact ⟨e₀, he₀, hupdated.activity⟩
    · exact absurd htarget hother
  obtain ⟨e₀, he₀, hactivity₀⟩ := hrecorded
  obtain ⟨e, he, -, hactivity⟩ := registryAfter_mono htimed₁ hwrap₁ he₀ hkeepsBetween
  obtain ⟨e', he', hcount, hactivity'⟩ := registryAfter_mono htimed hwrap he hkeepsAfter
  refine ⟨e, e', by rw [hprior, he], by rw [hparts, he'], hcount, by omega⟩

include htimed hwrap in
/-- The count sees the recent traffic exactly when the entry is not outdated. -/
theorem requestCountWithin_sees_iff (targetId : Int) (windowSecs : Nat) :
    Sees history now targetId windowSecs ↔ ¬ Outdated (registryAfter history) now targetId windowSecs := by
  constructor
  · rintro hsees ⟨e, he, hrecent, hpos, hstale⟩
    obtain ⟨hsound, before, r, after, hsplit, htarget, htime, hkeeps⟩ := registryAfter_spec htimed hwrap he
    have hcount := hsees.positive before r after hsplit htarget (by omega) hkeeps
    rw [countAt_some he hsound htimed.fits, if_neg] at hcount
    · omega
    · unfold reference
      rw [if_pos hpos]
      omega
  · intro hfresh
    -- With a recent entry the whole count is shown.
    have hshown : ∀ e, registryAfter history targetId = some e → now - e.lastActivityMs ≤ windowSecs * 1000 →
        countAt (registryAfter history) now targetId windowSecs = e.requestCount := by
      intro e he hrecent
      rw [countAt_some he (registryAfter_spec htimed hwrap he).1 htimed.fits,
        if_pos (reference_recent he hrecent hfresh)]
    constructor
    · intro before r after hsplit htarget hrecent hkeeps
      obtain ⟨-, e, -, he, -, hactivity⟩ :=
        exists_recent htimed hwrap (show history = before ++ r :: ([] ++ after) from hsplit) htarget hrecent hkeeps
      rw [hshown e he hactivity]
      exact (registryAfter_spec htimed hwrap he).1.count_pos
    · intro hold
      cases he : registryAfter history targetId with
      | none => exact countAt_none he now windowSecs
      | some e =>
        obtain ⟨hsound, before, r, after, hsplit, htarget, htime, -⟩ := registryAfter_spec htimed hwrap he
        have hstale := hold r (by rw [hsplit]; simp) htarget
        have hle := hsound.success_le
        rw [countAt_some he hsound htimed.fits, if_neg]
        unfold reference
        split <;> omega
    · intro before r between after hsplit htarget hrecent hkeeps earlier _
      obtain ⟨e, e', he, he', hcount, hactivity⟩ := exists_recent htimed hwrap hsplit htarget hrecent hkeeps
      rw [hshown e' he' hactivity]
      exact (countAt_le he earlier windowSecs).trans hcount

end

/-- A success, and ten seconds later a request. -/
def successThenRequest : List RegistryEvent := [⟨1, .recordSuccessWithLatency 7 0⟩, ⟨10001, .recordRequest 7⟩]

theorem successThenRequest_wellTimed (now : Nat) (hle : 10001 ≤ now) (hlt : now < 2 ^ 64) :
    WellTimed successThenRequest now := by
  refine ⟨by decide, by decide, fun event h => ?_, hlt⟩
  have : event.nowMs ≤ 10001 := by
    revert event
    decide
  omega

theorem successThenRequest_sees : Sees successThenRequest 10001 7 60 := by
  refine (requestCountWithin_sees_iff (successThenRequest_wellTimed 10001 (by decide) (by decide)) ?_ 7 60).mpr ?_
  · refine ⟨fun e he => ?_, trivial, trivial⟩
    cases he
  · rintro ⟨e, he, -, -, hstale⟩
    have hentry : registryAfter successThenRequest 7 = some ⟨⟨1, 10001, 2⟩, 1, 0, 0, 0, 0⟩ := rfl
    rw [hentry] at he
    cases he
    revert hstale
    decide

/-- The request is not seen at the time at which it is recorded. -/
theorem successThenRequest_hidden :
    countAt (registryAfter successThenRequest) 10001 7 5 = 0 ∧ ¬ Sees successThenRequest 10001 7 5 := by
  have hzero : countAt (registryAfter successThenRequest) 10001 7 5 = 0 := by decide
  refine ⟨hzero, fun h => ?_⟩
  have hpos := h.positive [⟨1, .recordSuccessWithLatency 7 0⟩] ⟨10001, .recordRequest 7⟩ [] rfl rfl (by decide) trivial
  omega

end OpenProxy.Combos
