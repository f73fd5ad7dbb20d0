import OpenProxy.Racing.Race
import Mathlib.Logic.Function.Iterate

/-!
# One winner

The sink has one owner, and only the owner sends, claims and stores.  The waiter looks first for a result and then at the
number of running workers.  If the last worker counts itself out between the two, the waiter sees no worker and reports
an error although a result has been stored.  In every other schedule the stored result is returned.
-/

namespace OpenProxy.Racing

/-- If a test changes at one index only, from true to false, one index less passes it. -/
theorem countP_range_succ {p q : Nat → Bool} {lane n : Nat} (hlane : lane < n) (hp : p lane = true) (hq : q lane = false)
    (hne : ∀ i, i ≠ lane → q i = p i) : (List.range n).countP p = (List.range n).countP q + 1 := by
  induction n with
  | zero => omega
  | succ n ih =>
    simp only [List.range_succ, List.countP_append, List.countP_singleton]
    by_cases heq : lane = n
    · subst heq
      have hrest : (List.range lane).countP p = (List.range lane).countP q := by
        refine List.countP_congr fun i hi => ?_
        have hlt : i < lane := List.mem_range.mp hi
        rw [hne i (by omega)]
      simp [hrest, hp, hq]
    · rw [ih (by omega), hne n (Ne.symm heq)]
      omega

variable {τ ε β μ : Type}

namespace WorkerPc

/-- The lane is past a successful `claim_winner`. -/
def claimed : WorkerPc τ ε β → Bool
  | cancelOthers _ _ _ => true
  | reserve _ _ => true
  | commit _ _ => true
  | enqueue _ _ => true
  | storeResult _ => true
  | _ => false

/-- The lane does not take another target. -/
def stopped : WorkerPc τ ε β → Bool
  | countOut => true
  | finished => true
  | aborted => true
  | _ => false

def isFinished : WorkerPc τ ε β → Bool
  | finished => true
  | _ => false

end WorkerPc

namespace RaceState

variable {n lane : Nat} {s s' : RaceState τ ε β μ}

/-- The number of workers that have not counted themselves out. -/
def unfinished (n : Nat) (s : RaceState τ ε β μ) : Nat := (List.range n).countP fun i => !(s.workers i).isFinished

/-- What the waiter knows of the result and of the workers. -/
def WaiterOk (s : RaceState τ ε β μ) : Prop :=
  match s.waiter with
  | .takeWinner => s.winner = s.stored.map Prod.snd
  | .loadRunning => s.winner = s.stored.map Prod.snd ∧ (s.running = 0 → s.winner = none)
  | .waiting => s.winner = s.stored.map Prod.snd ∧ (s.running = 0 → s.notified = true)
  | .cancelTokens _ (some r) => ∃ lane, s.stored = some (lane, r)
  | .returned (.ok r) => ∃ lane, s.stored = some (lane, r)
  | _ => s.stored = none ∧ s.running = 0

/-- What the lanes know of the sink. -/
structure LanesOk (s : RaceState τ ε β μ) : Prop where
  claimed : ∀ i, (s.workers i).claimed = true → s.owner = i + 1
  sent : ∀ c ∈ s.sent, s.owner = c.1 + 1
  claims : ∀ i ∈ s.claims, s.owner = i + 1
  sink : ∀ i, s.sinkCancelled i = true → s.owner ≠ 0 ∧ s.owner ≠ i + 1
  stored : ∀ p ∈ s.stored, s.owner = p.1 + 1 ∧ (s.workers p.1).stopped = true

structure Inv (n : Nat) (s : RaceState τ ε β μ) : Prop where
  lanes : s.LanesOk
  count : s.running = s.unfinished n
  waiter : s.WaiterOk

theorem inv_start (n : Nat) (toRun : List τ) : Inv n (start n toRun : RaceState τ ε β μ) := by
  refine ⟨⟨?_, ?_, ?_, ?_, ?_⟩, ?_, rfl⟩
  · intro i h
    cases h
  · intro c h
    cases h
  · intro i h
    cases h
  · intro i h
    cases h
  · intro p h
    cases h
  · simp [start, unfinished, WorkerPc.isFinished]

/-- The fields in which two states agree that differ only in what the invariant does not speak of. -/
structure SameCore (s s' : RaceState τ ε β μ) : Prop where
  owner : s'.owner = s.owner
  winner : s'.winner = s.winner
  running : s'.running = s.running
  notified : s'.notified = s.notified
  workers : s'.workers = s.workers
  waiter : s'.waiter = s.waiter
  sent : s'.sent = s.sent
  claims : s'.claims = s.claims
  sinkCancelled : s'.sinkCancelled = s.sinkCancelled
  stored : s'.stored = s.stored

theorem SameCore.inv (h : SameCore s s') (hinv : Inv n s) : Inv n s' := by
  obtain ⟨⟨hclaimed, hsent, hclaims, hsink, hstored⟩, hcount, hwaiter⟩ := hinv
  refine ⟨⟨?_, ?_, ?_, ?_, ?_⟩, ?_, ?_⟩
  · simpa only [h.workers, h.owner] using hclaimed
  · simpa only [h.sent, h.owner] using hsent
  · simpa only [h.claims, h.owner] using hclaims
  · simpa only [h.sinkCancelled, h.owner] using hsink
  · simpa only [h.stored, h.owner, h.workers] using hstored
  · simpa only [unfinished, h.workers, h.running] using hcount
  · simpa only [WaiterOk, h.waiter, h.winner, h.stored, h.running, h.notified] using hwaiter

theorem unfinished_goto {pc : WorkerPc τ ε β} (h : pc.isFinished = (s.workers lane).isFinished) :
    (s.goto lane pc).unfinished n = s.unfinished n := by
  refine List.countP_congr fun i _ => ?_
  by_cases heq : i = lane
  · subst heq
    simp [RaceState.goto, h]
  · simp [RaceState.goto, heq]

/-- A step in which only the place of a worker changes. -/
theorem Inv.goto (h : Inv n s) {pc : WorkerPc τ ε β} (hclaimed : pc.claimed = true → s.owner = lane + 1)
    (hstopped : (s.workers lane).stopped = true → pc.stopped = true)
    (hfinished : pc.isFinished = (s.workers lane).isFinished) : Inv n (s.goto lane pc) := by
  refine ⟨⟨?_, h.lanes.sent, h.lanes.claims, h.lanes.sink, ?_⟩, h.count.trans (unfinished_goto hfinished).symm, h.waiter⟩
  · intro i hi
    by_cases heq : i = lane
    · subst heq
      exact hclaimed (by simpa [RaceState.goto] using hi)
    · exact h.lanes.claimed i (by simpa [RaceState.goto, heq] using hi)
  · intro p hp
    obtain ⟨howner, hstop⟩ := h.lanes.stored p hp
    refine ⟨howner, ?_⟩
    by_cases heq : p.1 = lane
    · simpa [RaceState.goto, heq] using hstopped (heq ▸ hstop)
    · simpa [RaceState.goto, heq] using hstop

/-- No worker is left once the count is zero. -/
theorem Inv.finished_of_running (h : Inv n s) (hrunning : s.running = 0) (hlane : lane < n) :
    s.workers lane = .finished := by
  have hcount : s.unfinished n = 0 := h.count.symm.trans hrunning
  have hnot := List.countP_eq_zero.mp hcount lane (List.mem_range.mpr hlane)
  cases hpc : s.workers lane <;> simp_all [WorkerPc.isFinished]

theorem Inv.running_ne_zero (h : Inv n s) (hlane : lane < n) (hpc : (s.workers lane).isFinished = false) :
    s.running ≠ 0 := by
  intro hrunning
  simp [h.finished_of_running hrunning hlane, WorkerPc.isFinished] at hpc

/-! ### The steps of a worker -/

theorem isFinished_of_busy (hbusy : (s.workers lane).stopped = false) : (s.workers lane).isFinished = false := by
  cases hpc : s.workers lane <;> simp_all [WorkerPc.stopped, WorkerPc.isFinished]

theorem Inv.cancelOther (h : Inv n s) (howner : s.owner = lane + 1) (next : Nat) : Inv n (s.cancelOther lane next) := by
  unfold RaceState.cancelOther
  split
  · exact h
  · rename_i hne
    refine ⟨⟨h.lanes.claimed, h.lanes.sent, h.lanes.claims, ?_, h.lanes.stored⟩, h.count, h.waiter⟩
    intro i hi
    by_cases heq : i = next
    · have hcancel : (s.cancel next).owner = lane + 1 := howner
      simp only [hcancel]
      omega
    · exact h.lanes.sink i (by simpa [heq] using hi)

section

variable (h : Inv n s) (hbusy : (s.workers lane).stopped = false)
include h hbusy

/-- A worker that has not stopped goes on. -/
theorem Inv.move {pc : WorkerPc τ ε β} (hclaimed : pc.claimed = true → s.owner = lane + 1)
    (hfinished : pc.isFinished = false) : Inv n (s.goto lane pc) := by
  refine h.goto hclaimed ?_ ?_
  · simp [hbusy]
  · rw [hfinished, isFinished_of_busy hbusy]

/-- The same, where also fields change of which the invariant does not speak. -/
theorem Inv.advance (pc : WorkerPc τ ε β) (hclaimed : pc.claimed = true → s.owner = lane + 1)
    (hfinished : pc.isFinished = false) (hsame : SameCore (s.goto lane pc) s') : Inv n s' :=
  hsame.inv (h.move hbusy hclaimed hfinished)

theorem Inv.rejected (target : τ) (r : PipelineResult ε β) : Inv n (s.rejected lane target r) := by
  unfold RaceState.rejected
  split
  · exact h.move hbusy (by simp [WorkerPc.claimed]) rfl
  · exact h.move hbusy (by simp [WorkerPc.claimed]) rfl

theorem Inv.lost (target : τ) (p : Purpose ε β) : Inv n (s.lost lane target p) := by
  cases p with
  | send chunk => exact h.move hbusy (by simp [WorkerPc.claimed]) rfl
  | result r => exact h.rejected hbusy target r

theorem Inv.won (howner : s.owner = lane + 1) (target : τ) (p : Purpose ε β) : Inv n (s.won lane target p) := by
  cases p with
  | send chunk => exact h.move hbusy (fun _ => howner) rfl
  | result r =>
    have hmove : Inv n (s.goto lane (.storeResult r)) := h.move hbusy (fun _ => howner) rfl
    refine ⟨⟨hmove.lanes.claimed, hmove.lanes.sent, ?_, hmove.lanes.sink, hmove.lanes.stored⟩, hmove.count, hmove.waiter⟩
    intro i hi
    rcases List.mem_append.mp hi with hi | hi
    · exact h.lanes.claims i hi
    · rw [List.mem_singleton.mp hi]
      exact howner

/-- The compare-and-exchange of the sink succeeds at most once. -/
theorem Inv.exchange (howner : s.owner = 0) (target : τ) (p : Purpose ε β) :
    Inv n { s.goto lane (.cancelOthers 0 target p) with owner := lane + 1 } := by
  have hfinished : (.cancelOthers 0 target p : WorkerPc τ ε β).isFinished = (s.workers lane).isFinished :=
    (isFinished_of_busy hbusy).symm
  refine ⟨⟨?_, ?_, ?_, ?_, ?_⟩, h.count.trans (unfinished_goto hfinished).symm, h.waiter⟩
  · intro i hi
    by_cases heq : i = lane
    · rw [heq]
    · have := h.lanes.claimed i (by simpa [RaceState.goto, heq] using hi)
      omega
  · intro c hc
    have := h.lanes.sent c hc
    omega
  · intro i hi
    have := h.lanes.claims i hi
    omega
  · intro i hi
    exact absurd howner (h.lanes.sink i hi).1
  · intro p hp
    have := (h.lanes.stored p hp).1
    omega

theorem Inv.enqueue (howner : s.owner = lane + 1) (target : τ) (chunk : Bytes) :
    Inv n { s.goto lane (.executing target) with sent := s.sent ++ [(lane, chunk)] } := by
  have hmove : Inv n (s.goto lane (.executing target)) := h.move hbusy (by simp [WorkerPc.claimed]) rfl
  refine ⟨⟨hmove.lanes.claimed, ?_, hmove.lanes.claims, hmove.lanes.sink, hmove.lanes.stored⟩, hmove.count, hmove.waiter⟩
  intro c hc
  rcases List.mem_append.mp hc with hc | hc
  · exact h.lanes.sent c hc
  · rw [List.mem_singleton.mp hc]
    exact howner

/-- The owner stores its result once, since it has not stopped before. -/
theorem Inv.store (hlane : lane < n) (howner : s.owner = lane + 1) (r : PipelineResult ε β) :
    Inv n { s.goto lane .countOut with winner := some r, stored := some (lane, r) } := by
  have hnone : s.stored = none := by
    cases hstored : s.stored with
    | none => rfl
    | some p =>
      obtain ⟨hp, hstopped⟩ := h.lanes.stored p hstored
      have heq : p.1 = lane := by omega
      rw [heq, hbusy] at hstopped
      cases hstopped
  have hrunning : s.running ≠ 0 := h.running_ne_zero hlane (isFinished_of_busy hbusy)
  have hmove : Inv n (s.goto lane .countOut) := h.move hbusy (by simp [WorkerPc.claimed]) rfl
  refine ⟨⟨hmove.lanes.claimed, hmove.lanes.sent, hmove.lanes.claims, hmove.lanes.sink, ?_⟩, hmove.count, ?_⟩
  · rintro p ⟨⟩
    exact ⟨howner, by simp [RaceState.goto, WorkerPc.stopped]⟩
  · have hwaiter := h.waiter
    unfold WaiterOk at hwaiter ⊢
    simp only [RaceState.goto]
    split at hwaiter <;> simp_all

end

/-- The last worker does not count itself out while the waiter is between its two reads and a result has been stored. -/
def Allowed (n : Nat) (s : RaceState τ ε β μ) : Label ε β → Prop
  | .worker lane _ =>
    lane < n → s.workers lane = .countOut → s.running = 1 → s.waiter = .loadRunning → s.winner = none
  | _ => True

theorem Inv.countOut (h : Inv n s) (hlane : lane < n) (hpc : s.workers lane = .countOut)
    (hallowed : s.running = 1 → s.waiter = .loadRunning → s.winner = none) :
    Inv n { s.goto lane .finished with running := s.running - 1, notified := s.notified || s.running == 1 } := by
  have hrunning : s.running ≠ 0 := h.running_ne_zero hlane (by simp [hpc, WorkerPc.isFinished])
  refine ⟨⟨?_, h.lanes.sent, h.lanes.claims, h.lanes.sink, ?_⟩, ?_, ?_⟩
  · intro i hi
    by_cases heq : i = lane
    · simp [RaceState.goto, heq, WorkerPc.claimed] at hi
    · exact h.lanes.claimed i (by simpa [RaceState.goto, heq] using hi)
  · intro p hp
    obtain ⟨howner, hstop⟩ := h.lanes.stored p hp
    refine ⟨howner, ?_⟩
    by_cases heq : p.1 = lane
    · simp [RaceState.goto, heq, WorkerPc.stopped]
    · simpa [RaceState.goto, heq] using hstop
  · have hcount : s.unfinished n = (s.goto lane (.finished : WorkerPc τ ε β)).unfinished n + 1 := by
      refine countP_range_succ hlane ?_ ?_ ?_
      · simp [hpc, WorkerPc.isFinished]
      · simp [RaceState.goto, WorkerPc.isFinished]
      · intro i hi
        simp [RaceState.goto, hi]
    have hold := h.count
    change s.running - 1 = (s.goto lane (.finished : WorkerPc τ ε β)).unfinished n
    omega
  · have hwaiter := h.waiter
    unfold WaiterOk at hwaiter ⊢
    simp only [RaceState.goto]
    split at hwaiter
    · exact hwaiter
    · rename_i hload
      refine ⟨hwaiter.1, fun hzero => hallowed (by omega) hload⟩
    · refine ⟨hwaiter.1, fun hzero => ?_⟩
      have hone : s.running = 1 := by omega
      simp [hone]
    · exact hwaiter
    · exact hwaiter
    · exact absurd hwaiter.2 hrunning

theorem workerStep_inv {modelOf : τ → ε → Option μ} {choice : Choice ε β} (h : Inv n s) (hlane : lane < n)
    (hallowed : s.Allowed n (.worker lane choice)) : Inv n (s.workerStep n modelOf lane choice) := by
  have hbusy : ∀ pc, s.workers lane = pc → pc.stopped = false → (s.workers lane).stopped = false := by
    intro pc hpc hstopped
    rw [hpc, hstopped]
  have howner : ∀ pc, s.workers lane = pc → pc.claimed = true → s.owner = lane + 1 := by
    intro pc hpc hclaimed
    exact h.lanes.claimed lane (by rw [hpc, hclaimed])
  unfold workerStep
  cases hpc : s.workers lane with
  | loopTop =>
    refine h.move (hbusy _ hpc rfl) ?_ ?_ <;> split <;> simp [WorkerPc.claimed, WorkerPc.isFinished]
  | popQueue =>
    dsimp only
    split
    · exact h.move (hbusy _ hpc rfl) (by simp [WorkerPc.claimed]) rfl
    · rename_i target queue _
      exact h.advance (hbusy _ hpc rfl) (.recheck target) (by simp [WorkerPc.claimed]) rfl
        ⟨rfl, rfl, rfl, rfl, rfl, rfl, rfl, rfl, rfl, rfl⟩
  | recheck target =>
    refine h.move (hbusy _ hpc rfl) ?_ ?_ <;> split <;> simp [WorkerPc.claimed, WorkerPc.isFinished]
  | executing target =>
    cases choice with
    | send chunk => exact h.move (hbusy _ hpc rfl) (by simp [WorkerPc.claimed]) rfl
    | finish r => refine h.move (hbusy _ hpc rfl) ?_ ?_ <;> split <;> simp [WorkerPc.claimed, WorkerPc.isFinished]
    | closed => exact h
  | claimLoad target p =>
    dsimp only
    split
    · exact h.move (hbusy _ hpc rfl) (by simp [WorkerPc.claimed]) rfl
    · split
      · rename_i hwinner
        exact h.won (hbusy _ hpc rfl) hwinner target p
      · exact h.lost (hbusy _ hpc rfl) target p
  | claimExchange target p =>
    dsimp only
    split
    · rename_i hzero
      exact h.exchange (hbusy _ hpc rfl) hzero target p
    · split
      · rename_i hwinner
        exact h.won (hbusy _ hpc rfl) hwinner target p
      · exact h.lost (hbusy _ hpc rfl) target p
  | cancelOthers next target p =>
    have hown := howner _ hpc rfl
    dsimp only
    split
    · have hsame : (s.cancelOther lane next).workers = s.workers ∧ (s.cancelOther lane next).owner = s.owner := by
        unfold cancelOther
        split <;> exact ⟨rfl, rfl⟩
      refine (h.cancelOther hown next).move ?_ ?_ rfl
      · rw [hsame.1]
        exact hbusy _ hpc rfl
      · intro _
        rw [hsame.2]
        exact hown
    · exact h.won (hbusy _ hpc rfl) hown target p
  | reserve target chunk =>
    have hown := howner _ hpc rfl
    cases choice with
    | send chunk' => exact h.move (hbusy _ hpc rfl) (fun _ => hown) rfl
    | finish r => exact h.move (hbusy _ hpc rfl) (fun _ => hown) rfl
    | closed => exact h.move (hbusy _ hpc rfl) (by simp [WorkerPc.claimed]) rfl
  | commit target chunk =>
    exact h.advance (hbusy _ hpc rfl) (.enqueue target chunk) (fun _ => howner _ hpc rfl) rfl
      ⟨rfl, rfl, rfl, rfl, rfl, rfl, rfl, rfl, rfl, rfl⟩
  | enqueue target chunk => exact h.enqueue (hbusy _ hpc rfl) (howner _ hpc rfl) target chunk
  | outputOwner target r =>
    dsimp only
    split
    · exact h.move (hbusy _ hpc rfl) (by simp [WorkerPc.claimed]) rfl
    · exact h.rejected (hbusy _ hpc rfl) target r
  | outputCommitted target r =>
    dsimp only
    split
    · exact h.move (hbusy _ hpc rfl) (by simp [WorkerPc.claimed]) rfl
    · exact h.rejected (hbusy _ hpc rfl) target r
  | storeResult r =>
    dsimp only
    split
    · exact h.store (hbusy _ hpc rfl) hlane (howner _ hpc rfl) r
    · exact h.move (hbusy _ hpc rfl) (by simp [WorkerPc.claimed]) rfl
  | recordError target e =>
    exact h.advance (hbusy _ hpc rfl) (.recordTarget target e) (by simp [WorkerPc.claimed]) rfl
      ⟨rfl, rfl, rfl, rfl, rfl, rfl, rfl, rfl, rfl, rfl⟩
  | recordTarget target e =>
    exact h.advance (hbusy _ hpc rfl) (.recordModel target e) (by simp [WorkerPc.claimed]) rfl
      ⟨rfl, rfl, rfl, rfl, rfl, rfl, rfl, rfl, rfl, rfl⟩
  | recordModel target e =>
    exact h.advance (hbusy _ hpc rfl) .loopTop (by simp [WorkerPc.claimed]) rfl
      ⟨rfl, rfl, rfl, rfl, rfl, rfl, rfl, rfl, rfl, rfl⟩
  | countOut => exact h.countOut hlane hpc (hallowed hlane hpc)
  | finished => exact h
  | aborted => exact h

/-! ### The steps of the waiter -/

theorem waiterStep_inv {defaultErr : ε} (h : Inv n s) : Inv n (s.waiterStep n defaultErr) := by
  have hlanes : ∀ s' : RaceState τ ε β μ, s'.owner = s.owner → s'.workers = s.workers → s'.sent = s.sent →
      s'.claims = s.claims → s'.sinkCancelled = s.sinkCancelled → s'.stored = s.stored → s'.LanesOk := by
    intro s' howner hworkers hsent hclaims hsink hstored
    refine ⟨?_, ?_, ?_, ?_, ?_⟩
    · simpa only [hworkers, howner] using h.lanes.claimed
    · simpa only [hsent, howner] using h.lanes.sent
    · simpa only [hclaims, howner] using h.lanes.claims
    · simpa only [hsink, howner] using h.lanes.sink
    · simpa only [hstored, howner, hworkers] using h.lanes.stored
  have hwaiter := h.waiter
  unfold WaiterOk at hwaiter
  unfold waiterStep
  cases hpc : s.waiter with
  | takeWinner =>
    simp only [hpc] at hwaiter ⊢
    split
    · rename_i r hwinner
      rw [hwinner] at hwaiter
      obtain ⟨⟨lane, r'⟩, hstored, rfl⟩ := Option.map_eq_some_iff.mp hwaiter.symm
      exact ⟨hlanes _ rfl rfl rfl rfl rfl rfl, h.count, lane, hstored⟩
    · rename_i hwinner
      exact ⟨hlanes _ rfl rfl rfl rfl rfl rfl, h.count, hwaiter, fun _ => hwinner⟩
  | loadRunning =>
    simp only [hpc] at hwaiter ⊢
    refine ⟨hlanes _ rfl rfl rfl rfl rfl rfl, h.count, ?_⟩
    split
    · rename_i hzero
      have hnone : s.stored.map Prod.snd = none := hwaiter.1.symm.trans (hwaiter.2 hzero)
      exact ⟨Option.map_eq_none_iff.mp hnone, hzero⟩
    · rename_i hrunning
      exact ⟨hwaiter.1, fun hzero => absurd hzero hrunning⟩
  | waiting =>
    simp only [hpc] at hwaiter ⊢
    split
    · exact ⟨hlanes _ rfl rfl rfl rfl rfl rfl, h.count, hwaiter.1⟩
    · exact h
  | cancelTokens next result =>
    simp only [hpc] at hwaiter ⊢
    split
    · refine ⟨hlanes _ rfl rfl rfl rfl rfl rfl, h.count, ?_⟩
      cases result with
      | none => exact hwaiter
      | some r => exact hwaiter
    · cases result with
      | none => exact ⟨hlanes _ rfl rfl rfl rfl rfl rfl, h.count, hwaiter⟩
      | some r => exact ⟨hlanes _ rfl rfl rfl rfl rfl rfl, h.count, hwaiter⟩
  | takeError =>
    simp only [hpc] at hwaiter ⊢
    exact ⟨hlanes _ rfl rfl rfl rfl rfl rfl, h.count, hwaiter⟩
  | returned outcome => exact h

/-! ### Whole races -/

theorem abortStep_inv (h : Inv n s) (lane : Nat) : Inv n (s.abortStep lane) := by
  unfold abortStep
  split
  · exact h
  · rename_i hnot
    refine h.goto (by simp [WorkerPc.claimed]) (fun _ => rfl) ?_
    cases hpc : s.workers lane <;> simp_all [WorkerPc.isFinished]
  · exact h

theorem step_inv {modelOf : τ → ε → Option μ} {defaultErr : ε} {l : Label ε β} (h : Inv n s) (hallowed : s.Allowed n l) :
    Inv n (s.step n modelOf defaultErr l).1 := by
  cases l with
  | worker lane choice =>
    dsimp only [step]
    split
    · rename_i hlane
      exact workerStep_inv h hlane hallowed
    · exact h
  | waiter => exact waiterStep_inv h
  | abort lane =>
    dsimp only [step]
    split
    · exact abortStep_inv h lane
    · exact h

theorem cancelTokens_returns (n : Nat) (defaultErr : ε) {next : Nat} {r : PipelineResult ε β}
    (h : s.waiter = .cancelTokens next (some r)) :
    ∃ k, ((waiterStep n defaultErr)^[k] s).waiter = .returned (.ok r) := by
  induction hleft : n - next generalizing s next with
  | zero =>
    refine ⟨1, ?_⟩
    have hdone : ¬ next < n := by omega
    simp [waiterStep, h, hdone]
  | succ left ih =>
    have hmore : next < n := by omega
    have hstep : (s.waiterStep n defaultErr).waiter = .cancelTokens (next + 1) (some r) := by
      simp [waiterStep, h, hmore]
    obtain ⟨k, hk⟩ := ih hstep (by omega)
    exact ⟨k + 1, by rw [Function.iterate_succ_apply, hk]⟩

/-- Once all workers are done, the waiter alone returns the stored result. -/
theorem Inv.returns (h : Inv n s) (defaultErr : ε) {lane : Nat} {r : PipelineResult ε β} (hstored : s.stored = some (lane, r))
    (hrunning : s.running = 0) : ∃ k, ((waiterStep n defaultErr)^[k] s).waiter = .returned (.ok r) := by
  have hwaiter := h.waiter
  unfold WaiterOk at hwaiter
  have htake : ∀ s' : RaceState τ ε β μ, s'.waiter = .takeWinner → s'.winner = some r →
      ∃ k, ((waiterStep n defaultErr)^[k] s').waiter = .returned (.ok r) := by
    intro s' hpc hwinner
    have hstep : (s'.waiterStep n defaultErr).waiter = .cancelTokens 0 (some r) := by simp [waiterStep, hpc, hwinner]
    obtain ⟨k, hk⟩ := cancelTokens_returns n defaultErr hstep
    exact ⟨k + 1, by rw [Function.iterate_succ_apply, hk]⟩
  cases hpc : s.waiter with
  | takeWinner =>
    simp only [hpc, hstored] at hwaiter
    exact htake s hpc hwaiter
  | loadRunning =>
    simp only [hpc, hstored] at hwaiter
    rw [hwaiter.2 hrunning] at hwaiter
    cases hwaiter.1
  | waiting =>
    simp only [hpc, hstored] at hwaiter
    have hnotified := hwaiter.2 hrunning
    have hstep : (s.waiterStep n defaultErr).waiter = .takeWinner ∧ (s.waiterStep n defaultErr).winner = some r := by
      simp [waiterStep, hpc, hnotified, hwaiter.1]
    obtain ⟨k, hk⟩ := htake _ hstep.1 hstep.2
    exact ⟨k + 1, by rw [Function.iterate_succ_apply, hk]⟩
  | cancelTokens next result =>
    cases result with
    | none => simp [hpc, hstored] at hwaiter
    | some r' =>
      simp only [hpc, hstored] at hwaiter
      obtain ⟨lane', heq⟩ := hwaiter
      cases heq
      exact cancelTokens_returns n defaultErr hpc
  | takeError => simp [hpc, hstored] at hwaiter
  | returned outcome =>
    cases outcome with
    | error e => simp [hpc, hstored] at hwaiter
    | ok r' =>
      simp only [hpc, hstored] at hwaiter
      obtain ⟨lane', heq⟩ := hwaiter
      cases heq
      exact ⟨0, hpc⟩

/-- The race has one winner: all bytes come from one lane, at most one lane's `claim_result` is true, the sink does not
cancel a lane that has claimed, and a stored result is the one that is returned. -/
structure Sound (n : Nat) (defaultErr : ε) (s : RaceState τ ε β μ) : Prop where
  bytes : ∀ c ∈ s.sent, ∀ c' ∈ s.sent, c.1 = c'.1
  claims : ∀ i ∈ s.claims, ∀ j ∈ s.claims, i = j
  kept : ∀ i, s.owner = i + 1 ∨ i ∈ s.claims → s.sinkCancelled i = false
  owner : ∀ p ∈ s.stored, s.owner = p.1 + 1 ∧ ∀ c ∈ s.sent, c.1 = p.1
  returned : ∀ r, s.waiter = .returned (.ok r) → ∃ lane, s.stored = some (lane, r)
  noError : ∀ e, s.waiter = .returned (.error e) → s.stored = none
  returns : ∀ p ∈ s.stored, s.running = 0 → ∃ k, ((waiterStep n defaultErr)^[k] s).waiter = .returned (.ok p.2)

theorem Inv.sound (h : Inv n s) (defaultErr : ε) : Sound n defaultErr s := by
  have hwaiter := h.waiter
  unfold WaiterOk at hwaiter
  refine ⟨?_, ?_, ?_, ?_, ?_, ?_, ?_⟩
  · intro c hc c' hc'
    have := h.lanes.sent c hc
    have := h.lanes.sent c' hc'
    omega
  · intro i hi j hj
    have := h.lanes.claims i hi
    have := h.lanes.claims j hj
    omega
  · intro i hi
    have howner : s.owner = i + 1 := hi.elim id (h.lanes.claims i)
    cases hsink : s.sinkCancelled i with
    | false => rfl
    | true => exact absurd howner (h.lanes.sink i hsink).2
  · intro p hp
    obtain ⟨howner, -⟩ := h.lanes.stored p hp
    refine ⟨howner, fun c hc => ?_⟩
    have := h.lanes.sent c hc
    omega
  · intro r hr
    simpa only [hr] using hwaiter
  · intro e he
    simp only [he] at hwaiter
    exact hwaiter.1
  · rintro ⟨lane, r⟩ hp hrunning
    exact h.returns defaultErr hp hrunning

/-- The waiter has seen, or is about to see, that no worker is left. -/
def Failing (s : RaceState τ ε β μ) : Prop :=
  match s.waiter with
  | .loadRunning => s.running = 0
  | .cancelTokens _ none => True
  | .takeError => True
  | .returned (.error _) => True
  | _ => False

theorem waiterStep_failing {defaultErr : ε} (h : s.Failing) : (s.waiterStep n defaultErr).Failing := by
  unfold Failing at h
  unfold waiterStep
  split at h
  · rename_i hpc
    simp [hpc, h, Failing]
  · rename_i next hpc
    simp only [hpc]
    split <;> simp [Failing]
  · rename_i hpc
    simp [hpc, Failing]
  · rename_i e hpc
    simp [hpc, Failing]
  · exact absurd h id

theorem failing_iterate {defaultErr : ε} (h : s.Failing) (k : Nat) : ((waiterStep n defaultErr)^[k] s).Failing := by
  induction k generalizing s with
  | zero => exact h
  | succ k ih =>
    rw [Function.iterate_succ_apply]
    exact ih (waiterStep_failing h)

theorem Failing.not_returned {defaultErr : ε} (h : s.Failing) (r : PipelineResult ε β) :
    ¬ ∃ k, ((waiterStep n defaultErr)^[k] s).waiter = .returned (.ok r) := by
  rintro ⟨k, hk⟩
  have hnever : ((waiterStep n defaultErr)^[k] s).Failing := failing_iterate h k
  simp [Failing, hk] at hnever

/-- After the defect the stored result is never returned. -/
theorem not_sound_of_not_allowed {modelOf : τ → ε → Option μ} {defaultErr : ε} {l : Label ε β} (h : Inv n s)
    (hallowed : ¬ s.Allowed n l) : ¬ Sound n defaultErr (s.step n modelOf defaultErr l).1 := by
  cases l with
  | worker lane choice =>
    simp only [Allowed, Classical.not_imp] at hallowed
    obtain ⟨hlane, hpc, hrunning, hload, hwinner⟩ := hallowed
    have hwaiter := h.waiter
    simp only [WaiterOk, hload] at hwaiter
    obtain ⟨p, hstored⟩ : ∃ p, s.stored = some p := by
      refine Option.ne_none_iff_exists'.mp fun hnone => hwinner ?_
      rw [hwaiter.1, hnone]
      rfl
    intro hsound
    simp only [step, hlane, ↓reduceIte, workerStep, hpc] at hsound
    refine Failing.not_returned ?_ p.2 (hsound.returns p hstored (by simp [hrunning]))
    simp [Failing, goto, hload, hrunning]
  | waiter => exact absurd trivial hallowed
  | abort lane => exact absurd trivial hallowed

theorem sound_iff_of_inv {modelOf : τ → ε → Option μ} {defaultErr : ε} {labels : List (Label ε β)} (h : Inv n s) :
    (∀ k, Sound n defaultErr (runState (step n modelOf defaultErr) s (labels.take k))) ↔
      AllSteps (step n modelOf defaultErr) (Allowed n) s labels := by
  induction labels generalizing s with
  | nil => simpa [AllSteps, runState] using h.sound defaultErr
  | cons l labels ih =>
    constructor
    · intro hsound
      by_cases hallowed : s.Allowed n l
      · exact ⟨hallowed, (ih (step_inv h hallowed)).mp fun k => hsound (k + 1)⟩
      · exact absurd (hsound 1) (not_sound_of_not_allowed h hallowed)
    · rintro ⟨hallowed, hrest⟩ k
      cases k with
      | zero => exact h.sound defaultErr
      | succ k => exact (ih (step_inv h hallowed)).mpr hrest k

/-- The race has one winner in every state of a run exactly if the last worker never counts itself out between the two
reads of the waiter. -/
theorem race_sound_iff (numWorkers : Nat) (toRun : List τ) (modelOf : τ → ε → Option μ) (defaultErr : ε)
    (labels : List (Label ε β)) :
    (∀ k, Sound numWorkers defaultErr
        (runState (step numWorkers modelOf defaultErr) (start numWorkers toRun) (labels.take k))) ↔
      AllSteps (step numWorkers modelOf defaultErr) (Allowed numWorkers) (start numWorkers toRun) labels :=
  sound_iff_of_inv (inv_start numWorkers toRun)

/-- A success, and a choice where none is needed. -/
def success : Choice Unit Unit := .finish ⟨none, ()⟩

/-- Two lanes.  The first one wins and the second one stops; the waiter looks for a result before the first lane has
stored it and at the count after that. -/
def lateResult : List (Label Unit Unit) :=
  List.replicate 9 (.worker 0 success) ++ List.replicate 2 (.worker 1 success) ++ [.waiter] ++
    List.replicate 2 (.worker 0 success) ++ List.replicate 5 .waiter

theorem race_loses_result :
    ¬ ∀ labels : List (Label Unit Unit), ∀ k, Sound 2 ()
      (runState (step 2 (fun (_ : Nat) _ => (none : Option Nat)) ()) (start 2 [0, 1]) (labels.take k)) := by
  intro h
  have hsound := h lateResult lateResult.length
  have hnone := hsound.noError () rfl
  exact absurd (congrArg Option.isSome hnone) (by decide)

end RaceState

end OpenProxy.Racing
