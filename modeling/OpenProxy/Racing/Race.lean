import OpenProxy.Data.Machine

/-!
# A race of upstreams

`run_race` starts workers that share a queue of targets and a `RaceSink`, and waits for a result.  Every lock section and
every atomic operation is one step, and the steps of the workers and of the waiter come in any order.  What
`execute_single` does in between (which chunks it sends and with which result it returns) is chosen by the schedule.

Some fields are kept for the statements only: which lane has sent a chunk, which lanes have claimed the result, which
tokens the sink has cancelled and which lane has stored the result.
-/

namespace OpenProxy.Racing

variable {τ ε β μ : Type}

/-- What is used of a `PipelineResult`: its error, and the rest. -/
structure PipelineResult (ε β : Type) where
  error : Option ε
  response : β
deriving DecidableEq

abbrev Bytes := List UInt8

/-- Why a lane asks the sink to be the winner: for a chunk, or with `claim_result`. -/
inductive Purpose (ε β : Type)
  | send (chunk : Bytes)
  | result (r : PipelineResult ε β)

/-- Where a worker is in `execute_race_worker`, or in the `send` of its sink. -/
inductive WorkerPc (τ ε β : Type)
  | loopTop
  | popQueue
  | recheck (target : τ)
  | executing (target : τ)
  | claimLoad (target : τ) (p : Purpose ε β)
  | claimExchange (target : τ) (p : Purpose ε β)
  | cancelOthers (next : Nat) (target : τ) (p : Purpose ε β)
  | reserve (target : τ) (chunk : Bytes)
  | commit (target : τ) (chunk : Bytes)
  | enqueue (target : τ) (chunk : Bytes)
  | outputOwner (target : τ) (r : PipelineResult ε β)
  | outputCommitted (target : τ) (r : PipelineResult ε β)
  | storeResult (r : PipelineResult ε β)
  | recordError (target : τ) (e : ε)
  | recordTarget (target : τ) (e : ε)
  | recordModel (target : τ) (e : ε)
  | countOut
  | finished
  | aborted

/-- Where the waiter is in `wait_for_race_winner`. -/
inductive WaiterPc (ε β : Type)
  | takeWinner
  | loadRunning
  | waiting
  | cancelTokens (next : Nat) (result : Option (PipelineResult ε β))
  | takeError
  | returned (outcome : Except ε (PipelineResult ε β))

structure RaceState (τ ε β μ : Type) where
  /-- `RaceSink::winner`: zero, or the lane that owns the sink plus one. -/
  owner : Nat
  committed : Bool
  cancelled : Nat → Bool
  queue : List τ
  winner : Option (PipelineResult ε β)
  lastErr : Option ε
  failedTargets : List τ
  failedModels : List μ
  running : Nat
  /-- The permit of `all_done`. -/
  notified : Bool
  workers : Nat → WorkerPc τ ε β
  waiter : WaiterPc ε β
  sent : List (Nat × Bytes)
  claims : List Nat
  sinkCancelled : Nat → Bool
  stored : Option (Nat × PipelineResult ε β)

/-- What the schedule decides: the next action of `execute_single`, or that the channel is closed. -/
inductive Choice (ε β : Type)
  | send (chunk : Bytes)
  | finish (r : PipelineResult ε β)
  | closed

inductive Label (ε β : Type)
  | worker (lane : Nat) (choice : Choice ε β)
  | waiter
  | abort (lane : Nat)

namespace RaceState

/-- The state in which `run_race` begins to wait. -/
def start (numWorkers : Nat) (toRun : List τ) : RaceState τ ε β μ where
  owner := 0
  committed := false
  cancelled _ := false
  queue := toRun
  winner := none
  lastErr := none
  failedTargets := []
  failedModels := []
  running := numWorkers
  notified := false
  workers _ := .loopTop
  waiter := .takeWinner
  sent := []
  claims := []
  sinkCancelled _ := false
  stored := none

def goto (s : RaceState τ ε β μ) (lane : Nat) (pc : WorkerPc τ ε β) : RaceState τ ε β μ :=
  { s with workers := fun i => if i = lane then pc else s.workers i }

/-- `CancellationToken::cancel`. -/
def cancel (s : RaceState τ ε β μ) (lane : Nat) : RaceState τ ε β μ :=
  { s with cancelled := fun i => if i = lane then true else s.cancelled i }

/-- The worker goes on after a result that is not the result of the race. -/
def rejected (s : RaceState τ ε β μ) (lane : Nat) (target : τ) (r : PipelineResult ε β) : RaceState τ ε β μ :=
  match r.error with
  | some e => s.goto lane (.recordError target e)
  | none => s.goto lane .loopTop

/-- `claim_winner` returns `Ok`. -/
def won (s : RaceState τ ε β μ) (lane : Nat) (target : τ) : Purpose ε β → RaceState τ ε β μ
  | .send chunk => s.goto lane (.reserve target chunk)
  | .result r => { s.goto lane (.storeResult r) with claims := s.claims ++ [lane] }

/-- `claim_winner` returns `StreamSinkError::Lost`. -/
def lost (s : RaceState τ ε β μ) (lane : Nat) (target : τ) : Purpose ε β → RaceState τ ε β μ
  | .send _ => s.goto lane (.executing target)
  | .result r => s.rejected lane target r

/-- One turn of the loop of `cancel_other_workers`. -/
def cancelOther (s : RaceState τ ε β μ) (lane next : Nat) : RaceState τ ε β μ :=
  if next = lane then s
  else { s.cancel next with sinkCancelled := fun i => if i = next then true else s.sinkCancelled i }

/-- One step of a worker; `modelOf` gives the model that a failure excludes. -/
def workerStep (numWorkers : Nat) (modelOf : τ → ε → Option μ) (s : RaceState τ ε β μ) (lane : Nat)
    (choice : Choice ε β) : RaceState τ ε β μ :=
  match s.workers lane with
  | .loopTop => s.goto lane (if s.cancelled lane then .countOut else .popQueue)
  | .popQueue =>
    match s.queue with
    | [] => s.goto lane .countOut
    | target :: queue => { s.goto lane (.recheck target) with queue := queue }
  | .recheck target => s.goto lane (if s.cancelled lane then .countOut else .executing target)
  | .executing target =>
    match choice with
    | .send chunk => s.goto lane (.claimLoad target (.send chunk))
    | .finish r =>
      -- `has_stream_output` is asked only if the result is an error.
      s.goto lane (if r.error.isNone then .claimLoad target (.result r) else .outputOwner target r)
    | .closed => s
  | .claimLoad target p =>
    if s.owner = 0 then s.goto lane (.claimExchange target p)
    else if s.owner = lane + 1 then s.won lane target p
    else s.lost lane target p
  | .claimExchange target p =>
    if s.owner = 0 then { s.goto lane (.cancelOthers 0 target p) with owner := lane + 1 }
    else if s.owner = lane + 1 then s.won lane target p
    else s.lost lane target p
  | .cancelOthers next target p =>
    if next < numWorkers then (s.cancelOther lane next).goto lane (.cancelOthers (next + 1) target p)
    else s.won lane target p
  | .reserve target chunk =>
    match choice with
    | .closed => s.goto lane (.executing target)
    | _ => s.goto lane (.commit target chunk)
  | .commit target chunk =>
    { s.goto lane (.enqueue target chunk) with committed := if chunk.isEmpty then s.committed else true }
  | .enqueue target chunk => { s.goto lane (.executing target) with sent := s.sent ++ [(lane, chunk)] }
  | .outputOwner target r =>
    if s.owner = lane + 1 then s.goto lane (.outputCommitted target r) else s.rejected lane target r
  | .outputCommitted target r =>
    if s.committed then s.goto lane (.claimLoad target (.result r)) else s.rejected lane target r
  | .storeResult r =>
    match s.winner with
    | none => { s.goto lane .countOut with winner := some r, stored := some (lane, r) }
    | some _ => s.goto lane .countOut
  | .recordError target e => { s.goto lane (.recordTarget target e) with lastErr := some e }
  | .recordTarget target e => { s.goto lane (.recordModel target e) with failedTargets := s.failedTargets ++ [target] }
  | .recordModel target e =>
    { s.goto lane .loopTop with failedModels := s.failedModels ++ (modelOf target e).toList }
  | .countOut =>
    -- `notify_worker_done`: the worker that takes the count from one to zero wakes the waiter.
    { s.goto lane .finished with running := s.running - 1, notified := s.notified || s.running == 1 }
  | .finished => s
  | .aborted => s

/-- One step of the waiter; `defaultErr` is `NoHealthyTargets`. -/
def waiterStep (numWorkers : Nat) (defaultErr : ε) (s : RaceState τ ε β μ) : RaceState τ ε β μ :=
  match s.waiter with
  | .takeWinner =>
    match s.winner with
    | some r => { s with winner := none, waiter := .cancelTokens 0 (some r) }
    | none => { s with waiter := .loadRunning }
  | .loadRunning => { s with waiter := if s.running = 0 then .cancelTokens 0 none else .waiting }
  | .waiting => if s.notified then { s with notified := false, waiter := .takeWinner } else s
  | .cancelTokens next result =>
    if next < numWorkers then { s.cancel next with waiter := .cancelTokens (next + 1) result }
    else
      match result with
      | some r => { s with waiter := .returned (.ok r) }
      | none => { s with waiter := .takeError }
  | .takeError => { s with lastErr := none, waiter := .returned (.error (s.lastErr.getD defaultErr)) }
  | .returned _ => s

/-- `spawn_graceful_drain` aborts the workers that are left some time after a result has been returned. -/
def abortStep (s : RaceState τ ε β μ) (lane : Nat) : RaceState τ ε β μ :=
  match s.waiter, s.workers lane with
  | .returned (.ok _), .finished => s
  | .returned (.ok _), _ => s.goto lane .aborted
  | _, _ => s

/-- A step of the whole race.  A step that is not possible changes nothing. -/
def step (numWorkers : Nat) (modelOf : τ → ε → Option μ) (defaultErr : ε) (s : RaceState τ ε β μ) :
    Label ε β → RaceState τ ε β μ × Unit
  | .worker lane choice => (if lane < numWorkers then s.workerStep numWorkers modelOf lane choice else s, ())
  | .waiter => (s.waiterStep numWorkers defaultErr, ())
  | .abort lane => (if lane < numWorkers then s.abortStep lane else s, ())

end RaceState

end OpenProxy.Racing
