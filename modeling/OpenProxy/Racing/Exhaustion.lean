import OpenProxy.Racing.SingleWinner

/-!
# A race that nobody wins

Every call of `execute_single` fails without asking for the sink.  The workers then take the queue down together, and the
waiter sees no worker any more only after each target has been tried and put down as failed.  This needs a worker to
begin with: their number is the smaller one of `race_size` and the length of the list as a `u8`, which is zero for 256
targets.  The executor never asks for such a race: it cuts the list to the `race_size` of the combo, which is a `u8`
(`givesUpLast_iff`).
-/

namespace OpenProxy.Racing

variable {τ ε β μ κ : Type}

namespace WorkerPc

/-- The target that has been taken from the queue and not yet been passed to `execute_single`. -/
def held : WorkerPc τ ε β → Option τ
  | recheck target => some target
  | _ => none

/-- The target that has been passed to `execute_single` and not yet been put down as failed. -/
def tried : WorkerPc τ ε β → Option τ
  | executing target => some target
  | outputOwner target _ => some target
  | recordError target _ => some target
  | recordTarget target _ => some target
  | _ => none

/-- The places of a worker whose calls all fail without asking for the sink. -/
def losing : WorkerPc τ ε β → Bool
  | loopTop => true
  | popQueue => true
  | recheck _ => true
  | executing _ => true
  | outputOwner _ r => r.error.isSome
  | recordError _ _ => true
  | recordTarget _ _ => true
  | recordModel _ _ => true
  | countOut => true
  | finished => true
  | _ => false

end WorkerPc

namespace RaceState

/-- The target that a step passes to `execute_single`. -/
def passed (n : Nat) (s : RaceState τ ε β μ) : Label ε β → Option τ
  | .worker lane _ => if lane < n ∧ s.cancelled lane = false then (s.workers lane).held else none
  | _ => none

/-- A step, with the list of the targets that have been passed to `execute_single`. -/
def tracedStep (n : Nat) (modelOf : τ → ε → Option μ) (defaultErr : ε) (p : RaceState τ ε β μ × List τ)
    (l : Label ε β) : (RaceState τ ε β μ × List τ) × Unit :=
  (((p.1.step n modelOf defaultErr l).1, p.2 ++ (p.1.passed n l).toList), ())

/-- A call of `execute_single` does not send and ends with an error. -/
def Fails (p : RaceState τ ε β μ × List τ) : Label ε β → Prop
  | .worker lane choice =>
    ∀ target, p.1.workers lane = .executing target →
      match choice with
      | .send _ => False
      | .finish r => r.error.isSome = true
      | .closed => True
  | _ => True

/-! ### What holds while every call fails -/

variable {n lane : Nat} {toRun log : List τ} {s : RaceState τ ε β μ}

private theorem passed_eq_none {choice : Choice ε β} (h : (s.workers lane).held = none) :
    s.passed n (.worker lane choice) = none := by
  rw [passed, h]
  exact ite_self none

/-- What holds of every worker and of the place where one goes. -/
private theorem forall_goto {P : Nat → WorkerPc τ ε β → Prop} (h : ∀ i, P i (s.workers i)) {pc : WorkerPc τ ε β}
    (hpc : P lane pc) (i : Nat) : P i ((s.goto lane pc).workers i) := by
  by_cases heq : i = lane
  · subst heq
    simpa [RaceState.goto] using hpc
  · simpa [RaceState.goto, heq] using h i

section

variable [DecidableEq τ]

/-- How often a target is held by a worker. -/
def holding (n : Nat) (s : RaceState τ ε β μ) (target : τ) : Nat :=
  (List.range n).countP fun i => decide ((s.workers i).held = some target)

structure Losing (n : Nat) (toRun : List τ) (s : RaceState τ ε β μ) (log : List τ) : Prop where
  owner : s.owner = 0
  winner : s.winner = none
  stored : s.stored = none
  places : ∀ i, (s.workers i).losing = true
  cancelled : ∀ i, s.cancelled i = true → s.running = 0
  drained : ∀ i < n, (s.workers i).stopped = true → s.queue = []
  accounted : ∀ t, s.queue.count t + s.holding n t + log.count t = toRun.count t
  failed : ∀ t ∈ log, t ∈ s.failedTargets ∨ ∃ i < n, (s.workers i).tried = some t

theorem losing_start (n : Nat) (toRun : List τ) : Losing n toRun (start n toRun : RaceState τ ε β μ) [] where
  owner := rfl
  winner := rfl
  stored := rfl
  places _ := rfl
  cancelled _ h := by cases h
  drained _ _ h := by cases h
  accounted t := by simp [start, holding, WorkerPc.held]
  failed t h := by cases h

private theorem holding_goto {pc : WorkerPc τ ε β} (hheld : pc.held = (s.workers lane).held) (t : τ) :
    (s.goto lane pc).holding n t = s.holding n t := by
  refine List.countP_congr fun i _ => ?_
  by_cases heq : i = lane
  · subst heq
    simp [RaceState.goto, hheld]
  · simp [RaceState.goto, heq]

/-- A worker that takes a target holds one more. -/
private theorem holding_take {s' : RaceState τ ε β μ} (hlane : lane < n) (hothers : ∀ i, i ≠ lane → s'.workers i = s.workers i)
    {target : τ} (hbefore : (s.workers lane).held = none) (hafter : (s'.workers lane).held = some target) (t : τ) :
    s'.holding n t = s.holding n t + if target == t then 1 else 0 := by
  by_cases heq : target = t
  · subst heq
    rw [if_pos (beq_self_eq_true target)]
    refine countP_range_succ hlane (by simpa using hafter) (by simp [hbefore]) fun i hi => ?_
    rw [hothers i hi]
  · rw [if_neg (by simpa using heq), Nat.add_zero]
    refine List.countP_congr fun i _ => ?_
    by_cases hi : i = lane
    · simp [hi, hbefore, hafter, heq]
    · rw [hothers i hi]

omit [DecidableEq τ] in
/-- A target that has been tried stays so when the worker goes on with it. -/
private theorem tried_goto {pc : WorkerPc τ ε β} {t : τ}
    (htried : ∀ t, (s.workers lane).tried = some t → pc.tried = some t)
    (h : t ∈ s.failedTargets ∨ ∃ i < n, (s.workers i).tried = some t) :
    t ∈ s.failedTargets ∨ ∃ i < n, ((s.goto lane pc).workers i).tried = some t := by
  rcases h with hfailed | ⟨i, hi, hin⟩
  · exact Or.inl hfailed
  · refine Or.inr ⟨i, hi, ?_⟩
    by_cases heq : i = lane
    · subst heq
      simpa [RaceState.goto] using htried t hin
    · simpa [RaceState.goto, heq] using hin

/-- A worker goes on with the same targets; it stops only when the queue is empty. -/
theorem Losing.goto (h : Losing n toRun s log) {pc : WorkerPc τ ε β} (hplace : pc.losing = true)
    (hheld : pc.held = (s.workers lane).held) (hstopped : pc.stopped = true → s.queue = [])
    (htried : ∀ t, (s.workers lane).tried = some t → pc.tried = some t) :
    Losing n toRun (s.goto lane pc) log where
  owner := h.owner
  winner := h.winner
  stored := h.stored
  places := forall_goto (P := fun _ pc => pc.losing = true) h.places hplace
  cancelled := h.cancelled
  drained := forall_goto (P := fun i pc => i < n → pc.stopped = true → s.queue = []) h.drained fun _ => hstopped
  accounted t := by
    rw [holding_goto hheld]
    exact h.accounted t
  failed t ht := tried_goto htried (h.failed t ht)

/-- A worker takes the first target of the queue. -/
private theorem Losing.pop (h : Losing n toRun s log) (hlane : lane < n) (hpc : s.workers lane = .popQueue) {target : τ}
    {queue : List τ} (hqueue : s.queue = target :: queue) :
    Losing n toRun { s.goto lane (.recheck target) with queue := queue } log where
  owner := h.owner
  winner := h.winner
  stored := h.stored
  places := forall_goto (P := fun _ pc => pc.losing = true) h.places rfl
  cancelled := h.cancelled
  drained := forall_goto (P := fun i pc => i < n → pc.stopped = true → queue = [])
    (fun i hi hstop => by
      have hempty := h.drained i hi hstop
      rw [hqueue] at hempty
      cases hempty)
    fun _ hstop => by cases hstop
  accounted t := by
    have hbefore := h.accounted t
    rw [hqueue, List.count_cons] at hbefore
    have hholding : holding n { s.goto lane (.recheck target) with queue := queue } t =
        s.holding n t + if target == t then 1 else 0 :=
      holding_take hlane (fun i hi => by simp [RaceState.goto, hi]) (by rw [hpc]; rfl)
        (by simp [RaceState.goto, WorkerPc.held]) t
    rw [hholding]
    change queue.count t + _ + _ = _
    omega
  failed t ht := tried_goto (fun t hin => by rw [hpc] at hin; cases hin) (h.failed t ht)

/-- A worker passes the target that it holds to `execute_single`. -/
private theorem Losing.execute (h : Losing n toRun s log) (hlane : lane < n) {target : τ}
    (hpc : s.workers lane = .recheck target) : Losing n toRun (s.goto lane (.executing target)) (log ++ [target]) where
  owner := h.owner
  winner := h.winner
  stored := h.stored
  places := forall_goto (P := fun _ pc => pc.losing = true) h.places rfl
  cancelled := h.cancelled
  drained := forall_goto (P := fun i pc => i < n → pc.stopped = true → s.queue = []) h.drained
    fun _ hstop => by cases hstop
  accounted t := by
    have hbefore := h.accounted t
    have hholding : s.holding n t =
        (s.goto lane (.executing target)).holding n t + if target == t then 1 else 0 :=
      holding_take hlane (fun i hi => by simp [RaceState.goto, hi]) (by simp [RaceState.goto, WorkerPc.held])
        (by rw [hpc]; rfl) t
    rw [List.count_append, List.count_singleton]
    change s.queue.count t + _ + _ = _
    omega
  failed t ht := by
    rcases List.mem_append.mp ht with ht | ht
    · exact tried_goto (fun t hin => by rw [hpc] at hin; cases hin) (h.failed t ht)
    · rw [List.mem_singleton] at ht
      subst ht
      exact Or.inr ⟨lane, hlane, by simp [RaceState.goto, WorkerPc.tried]⟩

/-- A worker puts its target down as failed. -/
private theorem Losing.record (h : Losing n toRun s log) {target : τ} {e : ε}
    (hpc : s.workers lane = .recordTarget target e) :
    Losing n toRun { s.goto lane (.recordModel target e) with failedTargets := s.failedTargets ++ [target] } log where
  owner := h.owner
  winner := h.winner
  stored := h.stored
  places := forall_goto (P := fun _ pc => pc.losing = true) h.places rfl
  cancelled := h.cancelled
  drained := forall_goto (P := fun i pc => i < n → pc.stopped = true → s.queue = []) h.drained
    fun _ hstop => by cases hstop
  accounted t := by
    have hholding : (s.goto lane (.recordModel target e)).holding n t = s.holding n t :=
      holding_goto (by rw [hpc]; rfl) t
    change s.queue.count t + (s.goto lane (.recordModel target e)).holding n t + _ = _
    rw [hholding]
    exact h.accounted t
  failed t ht := by
    rcases h.failed t ht with hfailed | ⟨i, hi, hin⟩
    · exact Or.inl (List.mem_append_left _ hfailed)
    · by_cases heq : i = lane
      · subst heq
        rw [hpc] at hin
        exact Or.inl (List.mem_append_right _ (by simpa [WorkerPc.tried, eq_comm] using hin))
      · exact Or.inr ⟨i, hi, by simpa [RaceState.goto, heq] using hin⟩

theorem workerStep_losing {modelOf : τ → ε → Option μ} {choice : Choice ε β} (h : Losing n toRun s log) (hinv : Inv n s)
    (hlane : lane < n) (hfails : Fails (s, log) (.worker lane choice)) :
    Losing n toRun (s.workerStep n modelOf lane choice) (log ++ (s.passed n (.worker lane choice)).toList) := by
  have hrunning : ∀ pc, s.workers lane = pc → pc.isFinished = false → s.cancelled lane = false := by
    intro pc hpc hfinished
    rw [← Bool.not_eq_true]
    intro hcancelled
    exact hinv.running_ne_zero hlane (hpc ▸ hfinished) (h.cancelled lane hcancelled)
  have hlog : (s.workers lane).held = none → log ++ (s.passed n (.worker lane choice)).toList = log := by
    intro hheld
    rw [passed_eq_none hheld]
    exact List.append_nil log
  have hplace := h.places lane
  unfold workerStep
  cases hpc : s.workers lane with
  | loopTop =>
    rw [hlog (by rw [hpc]; rfl)]
    simp only [hrunning _ hpc rfl, Bool.false_eq_true, if_false]
    exact h.goto rfl (by rw [hpc]; rfl) (fun hstop => by cases hstop) (fun t ht => by rw [hpc] at ht; cases ht)
  | popQueue =>
    rw [hlog (by rw [hpc]; rfl)]
    dsimp only
    split
    · rename_i hqueue
      exact h.goto rfl (by rw [hpc]; rfl) (fun _ => hqueue) (fun t ht => by rw [hpc] at ht; cases ht)
    · rename_i target queue hqueue
      exact h.pop hlane hpc hqueue
  | recheck target =>
    have hcancelled := hrunning _ hpc rfl
    have hpassed : s.passed n (.worker lane choice) = some target := by
      rw [passed, if_pos ⟨hlane, hcancelled⟩, hpc]
      rfl
    simp only [hcancelled, Bool.false_eq_true, if_false, hpassed]
    exact h.execute hlane hpc
  | executing target =>
    rw [hlog (by rw [hpc]; rfl)]
    have hchoice := hfails target hpc
    cases choice with
    | send chunk => exact absurd hchoice id
    | finish r =>
      have herror : r.error.isNone = false := by
        rw [← Option.not_isSome, Bool.not_eq_false']
        exact hchoice
      simp only [herror, Bool.false_eq_true, if_false]
      refine h.goto hchoice (by rw [hpc]; rfl) (fun hstop => by cases hstop) (fun t ht => ?_)
      rw [hpc] at ht
      exact ht
    | closed => exact h
  | outputOwner target r =>
    rw [hlog (by rw [hpc]; rfl)]
    have howner : ¬ s.owner = lane + 1 := by
      rw [h.owner]
      omega
    rw [hpc] at hplace
    obtain ⟨e, he⟩ := Option.isSome_iff_exists.mp hplace
    simp only [if_neg howner, rejected, he]
    refine h.goto rfl (by rw [hpc]; rfl) (fun hstop => by cases hstop) (fun t ht => ?_)
    rw [hpc] at ht
    exact ht
  | recordError target e =>
    rw [hlog (by rw [hpc]; rfl)]
    have hnext : Losing n toRun (s.goto lane (.recordTarget target e)) log := by
      refine h.goto rfl (by rw [hpc]; rfl) (fun hstop => by cases hstop) (fun t ht => ?_)
      rw [hpc] at ht
      exact ht
    exact { hnext with }
  | recordTarget target e =>
    rw [hlog (by rw [hpc]; rfl)]
    exact h.record hpc
  | recordModel target e =>
    rw [hlog (by rw [hpc]; rfl)]
    have hnext : Losing n toRun (s.goto lane (.loopTop : WorkerPc τ ε β)) log :=
      h.goto rfl (by rw [hpc]; rfl) (fun hstop => by cases hstop) (fun t ht => by rw [hpc] at ht; cases ht)
    exact { hnext with }
  | countOut =>
    rw [hlog (by rw [hpc]; rfl)]
    have hqueue := h.drained lane hlane (by rw [hpc]; rfl)
    have hnext : Losing n toRun (s.goto lane (.finished : WorkerPc τ ε β)) log :=
      h.goto rfl (by rw [hpc]; rfl) (fun _ => hqueue) (fun t ht => by rw [hpc] at ht; cases ht)
    refine { hnext with cancelled := fun i hi => ?_ }
    exact absurd (h.cancelled i hi) (hinv.running_ne_zero hlane (by rw [hpc]; rfl))
  | finished =>
    rw [hlog (by rw [hpc]; rfl)]
    exact h
  | claimLoad target p => rw [hpc] at hplace; cases hplace
  | claimExchange target p => rw [hpc] at hplace; cases hplace
  | cancelOthers next target p => rw [hpc] at hplace; cases hplace
  | reserve target chunk => rw [hpc] at hplace; cases hplace
  | commit target chunk => rw [hpc] at hplace; cases hplace
  | enqueue target chunk => rw [hpc] at hplace; cases hplace
  | outputCommitted target r => rw [hpc] at hplace; cases hplace
  | storeResult r => rw [hpc] at hplace; cases hplace
  | aborted => rw [hpc] at hplace; cases hplace

/-- The waiter cancels the tokens only when no worker is left. -/
theorem waiterStep_losing {defaultErr : ε} (h : Losing n toRun s log) (hinv : Inv n s) :
    Losing n toRun (s.waiterStep n defaultErr) log := by
  have hwaiter := hinv.waiter
  unfold WaiterOk at hwaiter
  unfold waiterStep
  cases hpc : s.waiter with
  | takeWinner =>
    simp only [h.winner]
    exact { h with winner := rfl }
  | loadRunning => exact { h with }
  | waiting =>
    dsimp only
    split
    · exact { h with }
    · exact h
  | cancelTokens next result =>
    have hnone : result = none ∧ s.running = 0 := by
      rw [hpc] at hwaiter
      cases result with
      | none => exact ⟨rfl, hwaiter.2⟩
      | some r =>
        obtain ⟨lane, hstored⟩ := hwaiter
        rw [h.stored] at hstored
        cases hstored
    obtain ⟨rfl, hrunning⟩ := hnone
    dsimp only
    split
    · exact { h with cancelled := fun _ _ => hrunning }
    · exact { h with }
  | takeError => exact { h with }
  | returned outcome => exact h

/-- No result is returned, so nothing is aborted. -/
theorem abortStep_losing (h : Losing n toRun s log) (hinv : Inv n s) (lane : Nat) :
    Losing n toRun (s.abortStep lane) log := by
  have hwaiter := hinv.waiter
  unfold WaiterOk at hwaiter
  unfold abortStep
  split
  · exact h
  · rename_i r hreturned hpc
    rw [hreturned] at hwaiter
    obtain ⟨i, hstored⟩ := hwaiter
    rw [h.stored] at hstored
    cases hstored
  · exact h

/-- The invariant of `SingleWinner` and that of this file, which need each other. -/
def LosingInv (n : Nat) (toRun : List τ) (p : RaceState τ ε β μ × List τ) : Prop :=
  Inv n p.1 ∧ Losing n toRun p.1 p.2

theorem tracedStep_losingInv {modelOf : τ → ε → Option μ} {defaultErr : ε} {p : RaceState τ ε β μ × List τ}
    {l : Label ε β} (h : LosingInv n toRun p) (hfails : Fails p l) :
    LosingInv n toRun (tracedStep n modelOf defaultErr p l).1 := by
  obtain ⟨hinv, hlosing⟩ := h
  have hallowed : p.1.Allowed n l := by
    cases l with
    | worker lane choice => exact fun _ _ _ _ => hlosing.winner
    | waiter => trivial
    | abort lane => trivial
  refine ⟨step_inv hinv hallowed, ?_⟩
  cases l with
  | worker lane choice =>
    simp only [tracedStep, step]
    split
    · rename_i hlane
      exact workerStep_losing hlosing hinv hlane hfails
    · rename_i hlane
      have hpassed : p.1.passed n (.worker lane choice) = none := if_neg fun h => hlane h.1
      rw [hpassed]
      simpa using hlosing
  | waiter =>
    simp only [tracedStep, step, passed, Option.toList_none, List.append_nil]
    exact waiterStep_losing hlosing hinv
  | abort lane =>
    simp only [tracedStep, step, passed, Option.toList_none, List.append_nil]
    split
    · exact abortStep_losing hlosing hinv lane
    · exact hlosing

/-- Once the waiter has returned an error, each target has been tried once and is put down as failed. -/
theorem LosingInv.exhausted {p : RaceState τ ε β μ × List τ} (h : LosingInv n toRun p) (hn : 0 < n) {e : ε}
    (hreturned : p.1.waiter = .returned (.error e)) :
    p.2.Perm toRun ∧ ∀ t ∈ toRun, t ∈ p.1.failedTargets := by
  obtain ⟨hinv, hlosing⟩ := h
  have hrunning : p.1.running = 0 := by
    have hwaiter := hinv.waiter
    unfold WaiterOk at hwaiter
    rw [hreturned] at hwaiter
    exact hwaiter.2
  have hfinished : ∀ i < n, p.1.workers i = .finished := fun i hi => hinv.finished_of_running hrunning hi
  have hqueue : p.1.queue = [] := hlosing.drained 0 hn (by rw [hfinished 0 hn]; rfl)
  have hholding : ∀ t, p.1.holding n t = 0 := by
    intro t
    rw [holding, List.countP_eq_zero]
    intro i hi
    rw [hfinished i (List.mem_range.mp hi)]
    simp [WorkerPc.held]
  have hperm : p.2.Perm toRun := by
    rw [List.perm_iff_count]
    intro t
    have haccounted := hlosing.accounted t
    rw [hqueue, hholding, List.count_nil] at haccounted
    omega
  refine ⟨hperm, ?_⟩
  intro t ht
  rcases hlosing.failed t (hperm.mem_iff.mpr ht) with hfailed | ⟨i, hi, hin⟩
  · exact hfailed
  · rw [hfinished i hi] at hin
    cases hin

end

end RaceState

/-! ### The outcome of a race -/

/-- The kinds of `StreamSink`. -/
inductive StreamSink
  | direct
  | race
  | discard
  deriving DecidableEq

/-- `RaceOutcome`, with the targets that have been passed to `execute_single`. -/
structure RaceOutcome (τ ε β μ κ : Type) where
  result : Except ε (PipelineResult ε β)
  failedTargets : List κ
  failedModels : List μ
  passed : List τ

section RunRace

variable (ident : τ → κ) (modelOf : τ → ε → Option μ) (noHealthyTargets missingSink : ε) (sink : Option StreamSink)
  (raceSize : Nat) (toRun : List τ)

/-- The number of workers; the length of the list is taken as a `u8`. -/
def numWorkers : Nat := min raceSize (toRun.length % 256)

/-- `run_race` along a schedule, if it returns; `ident` is `TargetExecutionId::from_target`. -/
def runRace (labels : List (Label ε β)) : Option (RaceOutcome τ ε β μ κ) :=
  if numWorkers raceSize toRun = 0 then some ⟨.error noHealthyTargets, [], [], []⟩
  else if sink ≠ some .direct then some ⟨.error missingSink, [], [], []⟩
  else
    let final := runState (RaceState.tracedStep (numWorkers raceSize toRun) modelOf noHealthyTargets)
      (RaceState.start (numWorkers raceSize toRun) toRun, []) labels
    match final.1.waiter with
    | .returned (.ok r) => some ⟨.ok r, [], [], final.2⟩
    | .returned (.error e) => some ⟨.error e, final.1.failedTargets.map ident, final.1.failedModels, final.2⟩
    | _ => none

/-- In every schedule in which each call of `execute_single` fails without asking for the sink, an error is the outcome
only after every target has been passed to `execute_single` once, and all of them are among the failed targets. -/
def GivesUpLast (β : Type) : Prop :=
  ∀ labels : List (Label ε β),
    AllSteps (RaceState.tracedStep (numWorkers raceSize toRun) modelOf noHealthyTargets) RaceState.Fails
      (RaceState.start (numWorkers raceSize toRun) toRun, []) labels →
    ∀ (outcome : RaceOutcome τ ε β μ κ) (e : ε),
      runRace ident modelOf noHealthyTargets missingSink sink raceSize toRun labels = some outcome →
      outcome.result = .error e →
        outcome.passed.Perm toRun ∧ ∀ t ∈ toRun, ident t ∈ outcome.failedTargets

theorem numWorkers_eq_zero {raceSize : Nat} (hsize : 0 < raceSize) :
    numWorkers raceSize toRun = 0 ↔ toRun.length % 256 = 0 := by
  unfold numWorkers
  omega

/-- Without a worker, or without a direct sink, the race is over before it begins. -/
theorem runRace_of_not_started {raceSize : Nat} (hsize : 0 < raceSize)
    (h : ¬ (sink = some .direct ∧ toRun.length % 256 ≠ 0)) (labels : List (Label ε β)) :
    ∃ e, runRace ident modelOf noHealthyTargets missingSink sink raceSize toRun labels =
      some ⟨.error e, [], [], []⟩ := by
  unfold runRace
  split
  · exact ⟨_, rfl⟩
  · rename_i hn
    rw [numWorkers_eq_zero toRun hsize] at hn
    have hsink : sink ≠ some .direct := fun hsink => h ⟨hsink, hn⟩
    rw [if_pos hsink]
    exact ⟨_, rfl⟩

/-- A race that is not started tries nothing. -/
theorem not_givesUpLast {raceSize : Nat} (hsize : 0 < raceSize) (htargets : toRun ≠ [])
    (hnot : ¬ (sink = some .direct ∧ toRun.length % 256 ≠ 0)) :
    ¬ GivesUpLast ident modelOf noHealthyTargets missingSink sink raceSize toRun β := by
  intro h
  obtain ⟨e, he⟩ := runRace_of_not_started ident modelOf noHealthyTargets missingSink sink toRun hsize hnot
    ([] : List (Label ε β))
  have hperm := (h [] trivial _ e he rfl).1
  exact htargets (List.nil_perm.mp hperm)

/-- With a worker and a direct sink, every call that fails is waited for. -/
theorem givesUpLast_of_worker (hsink : sink = some .direct) (hn : numWorkers raceSize toRun ≠ 0) :
    GivesUpLast ident modelOf noHealthyTargets missingSink sink raceSize toRun β := by
  intro labels hfails outcome e hrun herror
  classical
  have hinv : RaceState.LosingInv (numWorkers raceSize toRun) toRun
      (runState (RaceState.tracedStep (numWorkers raceSize toRun) modelOf noHealthyTargets)
        (RaceState.start (numWorkers raceSize toRun) toRun, []) labels) :=
    hfails.invariant (fun p l hp hl => RaceState.tracedStep_losingInv hp hl)
      ⟨RaceState.inv_start _ toRun, RaceState.losing_start _ toRun⟩
  unfold runRace at hrun
  rw [if_neg hn, if_neg (not_not.mpr hsink)] at hrun
  dsimp only at hrun
  split at hrun
  · rw [Option.some.injEq] at hrun
    subst hrun
    cases herror
  · rename_i e' hreturned
    rw [Option.some.injEq] at hrun
    subst hrun
    obtain ⟨hperm, hfailed⟩ := hinv.exhausted (Nat.pos_of_ne_zero hn) hreturned
    exact ⟨hperm, fun t ht => List.mem_map_of_mem (hfailed t ht)⟩
  · cases hrun

/-- The race of `try_initial_race`, if it starts one: its size and its targets, for the `race_size` of the combo and the
`max_race_size` of the configuration. -/
def initialRace (maxRaceSize : Nat) : Option (Nat × List τ) :=
  if raceSize ≤ 1 ∨ toRun.length < 2 then none
  else
    let raceN := min (min raceSize toRun.length) maxRaceSize
    some (raceN % 256, toRun.take raceN)

/-- A `race_size` is below 256, so the cut list has a worker, or there is nothing in it. -/
theorem numWorkers_initialRace {maxRaceSize : Nat} (hsize : raceSize < 256) {race : Nat × List τ}
    (hrace : initialRace raceSize toRun maxRaceSize = some race) : numWorkers race.1 race.2 ≠ 0 ∨ race.2 = [] := by
  unfold initialRace at hrace
  split at hrace
  · cases hrace
  · rw [Option.some.injEq] at hrace
    subst hrace
    by_cases hzero : min (min raceSize toRun.length) maxRaceSize = 0
    · right
      simp only [hzero, List.take_zero]
    · left
      unfold numWorkers
      rw [List.length_take]
      omega

/-- `run_race` gives up only after it has tried everything exactly if the request has a direct sink and the number of the
targets is not a multiple of 256; a race that `try_initial_race` starts always does, given the sink. -/
theorem givesUpLast_iff (hsize : 0 < raceSize) (htargets : toRun ≠ []) :
    (GivesUpLast ident modelOf noHealthyTargets missingSink sink raceSize toRun β ↔
      sink = some .direct ∧ toRun.length % 256 ≠ 0) ∧
    ∀ (maxRaceSize : Nat) (race : Nat × List τ), raceSize < 256 → initialRace raceSize toRun maxRaceSize = some race →
      sink = some .direct → GivesUpLast ident modelOf noHealthyTargets missingSink sink race.1 race.2 β := by
  refine ⟨⟨?_, ?_⟩, ?_⟩
  · intro h
    by_contra hnot
    exact not_givesUpLast ident modelOf noHealthyTargets missingSink sink toRun hsize htargets hnot h
  · rintro ⟨hsink, hlength⟩
    have hn : numWorkers raceSize toRun ≠ 0 := fun hn => hlength ((numWorkers_eq_zero toRun hsize).mp hn)
    exact givesUpLast_of_worker ident modelOf noHealthyTargets missingSink sink raceSize toRun hsink hn
  · intro maxRaceSize race hbound hrace hsink
    rcases numWorkers_initialRace raceSize toRun hbound hrace with hn | hempty
    · exact givesUpLast_of_worker ident modelOf noHealthyTargets missingSink sink race.1 race.2 hsink hn
    · intro labels _ outcome e hrun _
      have hnone : numWorkers race.1 race.2 = 0 := by simp [numWorkers, hempty]
      unfold runRace at hrun
      rw [if_pos hnone, Option.some.injEq] at hrun
      subst hrun
      rw [hempty]
      exact ⟨List.Perm.refl [], fun t ht => by cases ht⟩

end RunRace

/-- Two targets and one worker. -/
theorem givesUpLast_two :
    GivesUpLast id (fun _ _ => (none : Option Nat)) () () (some .direct) 1 [0, 1] Unit :=
  (givesUpLast_iff id (fun _ _ => none) () () (some .direct) 1 [0, 1] (by decide) (by decide)).1.mpr (by decide)

/-- With 256 targets nothing is tried, and without a direct sink neither. -/
theorem not_givesUpLast_256 :
    (¬ ∀ (raceSize : Nat) (toRun : List Nat), 0 < raceSize → toRun ≠ [] →
      GivesUpLast id (fun _ _ => (none : Option Nat)) () () (some .direct) raceSize toRun Unit) ∧
    ¬ GivesUpLast id (fun _ _ => (none : Option Nat)) () () none 1 [0] Unit := by
  refine ⟨fun h => ?_, not_givesUpLast _ _ _ _ _ _ Nat.one_pos (by decide) (by decide)⟩
  have hlength : (List.range 256).length = 256 := List.length_range
  have htargets : List.range 256 ≠ [] := by
    intro hnil
    rw [hnil] at hlength
    cases hlength
  exact not_givesUpLast _ _ _ _ _ _ Nat.one_pos htargets (by rw [hlength]; decide)
    (h 1 (List.range 256) Nat.one_pos htargets)

end OpenProxy.Racing
