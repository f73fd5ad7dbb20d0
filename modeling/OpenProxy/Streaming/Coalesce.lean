import OpenProxy.Data.Encoding

/-!
# Joined writes

`CoalescedSse` joins the frames of a stream that come within a window into one chunk.  A poll goes round a loop until it has a
chunk or nothing to do; the clock, the readiness of the inner stream and the timer may be different at every turn.

A poll gives out the bytes of the buffer and of the frames that it takes, or keeps them (`Polled`).  So nothing is lost or
reordered over a run, and the buffer is bounded and is never without its deadline (`coalesced_transparent`).
-/

namespace OpenProxy.Streaming

/-- `MAX_BUFFER_BYTES`. -/
def maxBufferBytes : Nat := 64 * 1024

/-- `Poll` of an optional chunk; the error type is empty. -/
inductive Poll
  | ready (chunk : Option Bytes)
  | pending
  deriving DecidableEq

def Poll.chunk : Poll → Option Bytes
  | .ready chunk => chunk
  | .pending => none

/-- A timer; it is armed when it has been polled before its deadline, and then wakes the task. -/
structure Timer where
  deadline : Nat
  armed : Bool
  deriving DecidableEq

/-- What a turn of the loop meets: the clock at the check of the deadline, the readiness of the inner stream, the clock when a
frame goes into an empty buffer, and whether the timer has elapsed. -/
structure Turn where
  now : Nat
  ready : Bool
  stamp : Nat
  elapsed : Bool

structure CoalescedSse where
  window : Nat
  buffer : Bytes
  deadline : Option Nat
  timer : Timer
  firstSent : Bool
  finished : Bool
  deriving DecidableEq

namespace CoalescedSse

def new (window now : Nat) : CoalescedSse := ⟨window, [], none, ⟨now, false⟩, false, false⟩

variable (this : CoalescedSse)

def take : Bytes × CoalescedSse := (this.buffer, { this with buffer := [], deadline := none })

def takePending : Option Bytes × CoalescedSse := if this.buffer = [] then (none, this) else (some this.take.1, this.take.2)

def deadlinePassed (now : Nat) : Bool := this.deadline.any fun d => decide (d ≤ now)

/-- What a frame of the inner stream does: it gives a chunk, or the loop goes on. -/
def receive (frame : Bytes) (stamp : Nat) : Option Bytes × CoalescedSse :=
  if !this.firstSent then (some frame, { this with firstSent := true })
  else if frame = [] then (none, this)
  else if this.buffer = [] ∧ maxBufferBytes ≤ frame.length then (some frame, this)
  else
    let deadline := if this.buffer = [] then some (stamp + this.window) else this.deadline
    let this := { this with buffer := this.buffer ++ frame, deadline := deadline }
    if maxBufferBytes ≤ this.buffer.length then (some this.take.1, this.take.2) else (none, this)

/-- What the loop does while the inner stream is idle. -/
def idle (elapsed : Bool) : Poll × CoalescedSse :=
  match this.deadline with
  | none => (.pending, this)
  | some deadline =>
    let timer := if this.timer.deadline ≠ deadline then ⟨deadline, false⟩ else this.timer
    let this := { this with timer := timer }
    if elapsed then (.ready (some this.take.1), this.take.2)
    else (.pending, { this with timer := { timer with armed := true } })

end CoalescedSse

/-- The wrapper with the frames that its inner stream still has. -/
abbrev FrameState := List Bytes × CoalescedSse

/-- The loop of `poll_next`, from a turn on. -/
def pollLoop (turns : Nat → Turn) (i : Nat) (inner : List Bytes) (this : CoalescedSse) : FrameState × Poll :=
  if this.deadlinePassed (turns i).now then ((inner, this.take.2), .ready (some this.take.1))
  else if (turns i).ready then
    match inner with
    | [] => (([], { this with finished := true }.takePending.2), .ready { this with finished := true }.takePending.1)
    | frame :: rest =>
      match this.receive frame (turns i).stamp with
      | (some chunk, this) => ((rest, this), .ready (some chunk))
      | (none, this) => pollLoop turns (i + 1) rest this
  else ((inner, (this.idle (turns i).elapsed).2), (this.idle (turns i).elapsed).1)

/-- A poll of the inner stream. -/
def pollInner (ready : Bool) (inner : List Bytes) : List Bytes × Poll :=
  if ready then (inner.tail, .ready inner.head?) else (inner, .pending)

def pollNext (s : FrameState) (turns : Nat → Turn) : FrameState × Poll :=
  if s.2.window = 0 then (((pollInner (turns 0).ready s.1).1, s.2), (pollInner (turns 0).ready s.1).2)
  else if s.2.finished then ((s.1, s.2.takePending.2), .ready s.2.takePending.1)
  else pollLoop turns 0 s.1 s.2

/-- The chunks that some polls give. -/
def yielded (s : FrameState) (polls : List (Nat → Turn)) : List Bytes := (outputs pollNext s polls).filterMap Poll.chunk

/-- The wrapper after some polls. -/
def coalescedAt (frames : List Bytes) (window now : Nat) (polls : List (Nat → Turn)) : FrameState :=
  runState pollNext (frames, .new window now) polls

/-! ### What a poll does -/

/-- The invariant of the wrapper. -/
structure Coherent (s : FrameState) : Prop where
  deadline : s.2.deadline.isSome = true ↔ s.2.buffer ≠ []
  bounded : s.2.buffer.length < maxBufferBytes
  unsent : s.2.firstSent = false → s.2.buffer = []
  disabled : s.2.window = 0 → s.2.buffer = []
  finished : s.2.finished = true → s.1 = [] ∧ s.2.buffer = []

/-- What a poll, or the rest of one, makes of a state. -/
structure Polled (s : FrameState) (r : FrameState × Poll) : Prop where
  coherent : Coherent r.1
  conserved : s.2.buffer ++ s.1.flatten = (r.2.chunk.getD []) ++ (r.1.2.buffer ++ r.1.1.flatten)
  ended : r.2 = .ready none → r.1.1 = [] ∧ r.1.2.buffer = []
  window : r.1.2.window = s.2.window
  sent : s.2.firstSent = true → r.1.2.firstSent = true
  first : s.2.window ≠ 0 → r.2.chunk.isSome = true → r.1.2.firstSent = true
  nonempty : s.2.window ≠ 0 → s.2.firstSent = true → r.2.chunk ≠ some []
  armed : r.2 = .pending → r.1.2.buffer ≠ [] → r.1.2.deadline = some r.1.2.timer.deadline ∧ r.1.2.timer.armed = true

section

variable {s : FrameState} {inner : List Bytes} {this : CoalescedSse}

theorem maxBufferBytes_pos : 0 < maxBufferBytes := by decide

theorem coherent_new (frames : List Bytes) (window now : Nat) : Coherent (frames, .new window now) where
  deadline := ⟨fun h => absurd h Bool.false_ne_true, fun h => absurd rfl h⟩
  bounded := maxBufferBytes_pos
  unsent _ := rfl
  disabled _ := rfl
  finished h := absurd h Bool.false_ne_true

/-- To take the buffer gives it out. -/
theorem Coherent.taken (h : Coherent (inner, this)) (hbuffer : this.buffer ≠ []) :
    Polled (inner, this) ((inner, this.take.2), .ready (some this.take.1)) where
  coherent := by
    refine ⟨⟨fun h => absurd h Bool.false_ne_true, fun h => absurd rfl h⟩, maxBufferBytes_pos, fun _ => rfl, fun _ => rfl, ?_⟩
    exact fun hfinished => ⟨(h.finished hfinished).1, rfl⟩
  conserved := rfl
  ended := nofun
  window := rfl
  sent hsent := hsent
  first _ _ := by
    cases hsent : this.firstSent with
    | false => exact absurd (h.unsent hsent) hbuffer
    | true => exact hsent
  nonempty _ _ hempty := hbuffer (Option.some.inj hempty)
  armed := nofun

theorem Coherent.passed (h : Coherent (inner, this)) {now : Nat} (hpassed : this.deadlinePassed now = true) :
    this.buffer ≠ [] := by
  refine h.deadline.mp ?_
  unfold CoalescedSse.deadlinePassed at hpassed
  show this.deadline.isSome = true
  cases hdeadline : this.deadline with
  | none =>
    rw [hdeadline] at hpassed
    cases hpassed
  | some d => rfl

/-- A frame that makes a chunk. -/
theorem Coherent.receive_some {frame chunk : Bytes} {stamp : Nat} {this' : CoalescedSse}
    (h : Coherent (frame :: inner, this)) (hreceive : this.receive frame stamp = (some chunk, this')) :
    Polled (frame :: inner, this) ((inner, this'), .ready (some chunk)) := by
  have hunfinished : this.finished ≠ true := fun hfinished => List.cons_ne_nil _ _ (h.finished hfinished).1
  unfold CoalescedSse.receive at hreceive
  split at hreceive
  · -- The first frame leaves at once, and there is nothing before it.
    rename_i hunsent
    obtain ⟨hchunk, rfl⟩ := Prod.mk.inj hreceive
    obtain rfl := Option.some.inj hchunk
    have hunsent : this.firstSent = false := by simpa using hunsent
    have hbuffer : this.buffer = [] := h.unsent hunsent
    refine ⟨⟨h.deadline, h.bounded, fun _ => hbuffer, h.disabled, fun hfinished => absurd hfinished hunfinished⟩,
      ?_, nofun, rfl, fun _ => rfl, fun _ _ => rfl, ?_, nofun⟩
    · show this.buffer ++ (frame :: inner).flatten = frame ++ (this.buffer ++ inner.flatten)
      rw [hbuffer, List.flatten_cons, List.nil_append, List.nil_append]
    · exact fun _ hsent => absurd (hunsent.symm.trans hsent) Bool.false_ne_true
  · rename_i hsent
    have hsent : this.firstSent = true := by simpa using hsent
    split at hreceive
    · cases hreceive
    · rename_i hframe
      split at hreceive
      · rename_i hlarge
        obtain ⟨hchunk, rfl⟩ := Prod.mk.inj hreceive
        obtain rfl := Option.some.inj hchunk
        refine ⟨⟨h.deadline, h.bounded, h.unsent, h.disabled, fun hfinished => absurd hfinished hunfinished⟩,
          ?_, nofun, rfl, fun hsent => hsent, fun _ _ => hsent, ?_, nofun⟩
        · show this.buffer ++ (frame :: inner).flatten = frame ++ (this.buffer ++ inner.flatten)
          rw [hlarge.1, List.flatten_cons, List.nil_append, List.nil_append]
        · exact fun _ _ hempty => hframe (Option.some.inj hempty)
      · dsimp only at hreceive
        split at hreceive
        · obtain ⟨hchunk, rfl⟩ := Prod.mk.inj hreceive
          have hchunk : this.buffer ++ frame = chunk := Option.some.inj hchunk
          subst hchunk
          refine ⟨⟨⟨fun h => absurd h Bool.false_ne_true, fun h => absurd rfl h⟩, maxBufferBytes_pos, fun _ => rfl,
            fun _ => rfl, fun hfinished => absurd hfinished hunfinished⟩, ?_, nofun, rfl, fun hsent => hsent,
            fun _ _ => hsent, ?_, nofun⟩
          · show this.buffer ++ (frame :: inner).flatten = (this.buffer ++ frame) ++ ([] ++ inner.flatten)
            rw [List.flatten_cons, List.nil_append, List.append_assoc]
          · intro _ _ hempty
            exact hframe (List.append_eq_nil_iff.mp (Option.some.inj hempty)).2
        · cases hreceive

/-- A frame that is kept. -/
theorem Coherent.receive_none {frame : Bytes} {stamp : Nat} {this' : CoalescedSse}
    (h : Coherent (frame :: inner, this)) (hwindow : this.window ≠ 0)
    (hreceive : this.receive frame stamp = (none, this')) :
    Coherent (inner, this') ∧ this'.buffer = this.buffer ++ frame ∧ this'.window = this.window ∧
      this.firstSent = true ∧ this'.firstSent = true := by
  have hunfinished : this.finished ≠ true := fun hfinished => List.cons_ne_nil _ _ (h.finished hfinished).1
  unfold CoalescedSse.receive at hreceive
  split at hreceive
  · cases hreceive
  · rename_i hsent
    have hsent : this.firstSent = true := by simpa using hsent
    split at hreceive
    · rename_i hframe
      obtain ⟨-, rfl⟩ := Prod.mk.inj hreceive
      refine ⟨⟨h.deadline, h.bounded, h.unsent, h.disabled, fun hfinished => absurd hfinished hunfinished⟩, ?_, rfl,
        hsent, hsent⟩
      rw [hframe, List.append_nil]
    · rename_i hframe
      split at hreceive
      · cases hreceive
      · dsimp only at hreceive
        split at hreceive
        · cases hreceive
        · rename_i hsmall
          obtain ⟨-, rfl⟩ := Prod.mk.inj hreceive
          have hbuffer : this.buffer ++ frame ≠ [] := fun hempty => hframe (List.append_eq_nil_iff.mp hempty).2
          refine ⟨⟨iff_of_true ?_ hbuffer, Nat.lt_of_not_le hsmall, ?_, fun hzero => absurd hzero hwindow,
            fun hfinished => absurd hfinished hunfinished⟩, rfl, rfl, hsent, hsent⟩
          · -- The deadline is set with the first frame of the buffer, and is kept after it.
            dsimp only
            split
            · rfl
            · rename_i hstarted
              exact h.deadline.mpr hstarted
          · exact fun hunsent => absurd (hunsent.symm.trans hsent) Bool.false_ne_true

/-- The rest of a poll after a frame that is kept. -/
theorem Polled.cons {frame : Bytes} {this' : CoalescedSse} {r : FrameState × Poll} (h : Polled (inner, this') r)
    (hbuffer : this'.buffer = this.buffer ++ frame) (hwindow : this'.window = this.window)
    (hsent : this'.firstSent = true) : Polled (frame :: inner, this) r where
  coherent := h.coherent
  conserved := by
    rw [← h.conserved]
    show this.buffer ++ (frame :: inner).flatten = this'.buffer ++ inner.flatten
    rw [hbuffer, List.flatten_cons, List.append_assoc]
  ended := h.ended
  window := h.window.trans hwindow
  sent _ := h.sent hsent
  first hzero := h.first (fun hzero' => hzero (hwindow.symm.trans hzero'))
  nonempty hzero _ := h.nonempty (fun hzero' => hzero (hwindow.symm.trans hzero')) hsent
  armed := h.armed

theorem Coherent.idle (h : Coherent (inner, this)) (elapsed : Bool) :
    Polled (inner, this) ((inner, (this.idle elapsed).2), (this.idle elapsed).1) := by
  unfold CoalescedSse.idle
  split
  · rename_i hnone
    refine ⟨h, rfl, fun hend => (by cases hend), rfl, fun hsent => hsent, fun _ hchunk => absurd hchunk Bool.false_ne_true,
      fun _ _ hempty => Option.some_ne_none _ hempty.symm, fun _ hbuffer => ?_⟩
    have hsome : this.deadline.isSome = true := h.deadline.mpr hbuffer
    rw [hnone] at hsome
    cases hsome
  · rename_i deadline hdeadline
    have hbuffer : this.buffer ≠ [] := h.deadline.mp (show this.deadline.isSome = true by rw [hdeadline]; rfl)
    dsimp only
    have hset : (if this.timer.deadline ≠ deadline then (⟨deadline, false⟩ : Timer) else this.timer).deadline = deadline := by
      split
      · rfl
      · rename_i hsame
        exact not_not.mp hsame
    generalize (if this.timer.deadline ≠ deadline then (⟨deadline, false⟩ : Timer) else this.timer) = timer at hset
    have hreset : Coherent (inner, { this with timer := timer }) :=
      ⟨h.deadline, h.bounded, h.unsent, h.disabled, h.finished⟩
    split
    · have htaken := hreset.taken hbuffer
      exact ⟨htaken.coherent, htaken.conserved, fun hend => (by cases hend), rfl, htaken.sent, htaken.first,
        htaken.nonempty, fun hpending => by cases hpending⟩
    · refine ⟨⟨h.deadline, h.bounded, h.unsent, h.disabled, h.finished⟩, rfl, fun hend => (by cases hend), rfl,
        fun hsent => hsent, fun _ hchunk => absurd hchunk Bool.false_ne_true,
        fun _ _ hempty => Option.some_ne_none _ hempty.symm, fun _ _ => ⟨?_, rfl⟩⟩
      show this.deadline = some timer.deadline
      rw [hdeadline, hset]

/-- The end of the inner stream gives out what is left. -/
theorem Coherent.end (h : Coherent ([], this)) : Polled ([], this)
    (([], { this with finished := true }.takePending.2), .ready { this with finished := true }.takePending.1) := by
  unfold CoalescedSse.takePending
  split
  · rename_i hempty
    exact ⟨⟨h.deadline, h.bounded, h.unsent, h.disabled, fun _ => ⟨rfl, hempty⟩⟩, rfl, fun _ => ⟨rfl, hempty⟩, rfl,
      fun hsent => hsent, fun _ hchunk => absurd hchunk Bool.false_ne_true,
      fun _ _ hnone => Option.some_ne_none _ hnone.symm, nofun⟩
  · rename_i hbuffer
    have htaken := h.taken hbuffer
    exact ⟨⟨htaken.coherent.deadline, maxBufferBytes_pos, fun _ => rfl, fun _ => rfl, fun _ => ⟨rfl, rfl⟩⟩, rfl, nofun, rfl,
      htaken.sent, htaken.first, htaken.nonempty, nofun⟩

theorem polled_pollLoop {turns : Nat → Turn} {i : Nat} (h : Coherent (inner, this)) (hwindow : this.window ≠ 0) :
    Polled (inner, this) (pollLoop turns i inner this) := by
  induction inner generalizing i this with
  | nil =>
    unfold pollLoop
    split
    · rename_i hpassed
      exact h.taken (h.passed hpassed)
    · split
      · exact h.end
      · exact h.idle _
  | cons frame inner ih =>
    unfold pollLoop
    split
    · rename_i hpassed
      exact h.taken (h.passed hpassed)
    · split
      · dsimp only
        split
        · rename_i chunk this' hreceive
          exact h.receive_some hreceive
        · rename_i this' hreceive
          obtain ⟨hkept, hbuffer, hsame, -, hsent⟩ := h.receive_none hwindow hreceive
          exact (ih hkept (fun hzero => hwindow (hsame.symm.trans hzero))).cons hbuffer hsame hsent
      · exact h.idle _

/-- A wrapper without a window passes its stream through. -/
theorem polled_pollInner {ready : Bool} (h : Coherent s) (hwindow : s.2.window = 0) :
    Polled s (((pollInner ready s.1).1, s.2), (pollInner ready s.1).2) := by
  have hbuffer : s.2.buffer = [] := h.disabled hwindow
  obtain ⟨inner, this⟩ := s
  dsimp only at hwindow hbuffer
  have hcoherent : ∀ rest, (inner = [] → rest = []) → Coherent (rest, this) := fun rest hrest =>
    ⟨h.deadline, h.bounded, h.unsent, h.disabled, fun hfinished => ⟨hrest (h.finished hfinished).1, hbuffer⟩⟩
  unfold pollInner
  split
  · cases inner with
    | nil =>
      exact ⟨h, rfl, fun _ => ⟨rfl, hbuffer⟩, rfl, fun hsent => hsent, fun hzero => absurd hwindow hzero,
        fun hzero => absurd hwindow hzero, nofun⟩
    | cons frame rest =>
      refine ⟨hcoherent rest nofun, ?_, nofun, rfl, fun hsent => hsent, fun hzero => absurd hwindow hzero,
        fun hzero => absurd hwindow hzero, nofun⟩
      show this.buffer ++ (frame :: rest).flatten = frame ++ (this.buffer ++ rest.flatten)
      rw [hbuffer, List.flatten_cons, List.nil_append, List.nil_append]
  · exact ⟨h, rfl, nofun, rfl, fun hsent => hsent, fun hzero => absurd hwindow hzero,
      fun hzero => absurd hwindow hzero, fun _ hstarted => absurd hbuffer hstarted⟩

theorem polled_pollNext (h : Coherent s) (turns : Nat → Turn) : Polled s (pollNext s turns) := by
  unfold pollNext
  split
  · rename_i hwindow
    exact polled_pollInner h hwindow
  · rename_i hwindow
    split
    · rename_i hfinished
      obtain ⟨hinner, hbuffer⟩ := h.finished hfinished
      unfold CoalescedSse.takePending
      rw [if_pos hbuffer]
      exact ⟨h, rfl, fun _ => ⟨hinner, hbuffer⟩, rfl, fun hsent => hsent,
        fun _ hchunk => absurd hchunk Bool.false_ne_true, fun _ _ hnone => Option.some_ne_none _ hnone.symm, nofun⟩
    · exact polled_pollLoop h hwindow

/-! ### Runs -/

theorem coherent_coalescedAt (frames : List Bytes) (window now : Nat) (polls : List (Nat → Turn)) :
    Coherent (coalescedAt frames window now polls) :=
  runState_invariant polls (fun _ turns h => (polled_pollNext h turns).coherent) (coherent_new frames window now)

theorem yielded_cons (s : FrameState) (turns : Nat → Turn) (polls : List (Nat → Turn)) :
    yielded s (turns :: polls) = (pollNext s turns).2.chunk.toList ++ yielded (pollNext s turns).1 polls := by
  show ((pollNext s turns).2 :: outputs pollNext (pollNext s turns).1 polls).filterMap Poll.chunk = _
  rw [List.filterMap_cons]
  cases (pollNext s turns).2.chunk with
  | none => rfl
  | some chunk => rfl

/-- What was yielded, what is buffered and what is still to come are the frames. -/
theorem yielded_conserved (h : Coherent s) (polls : List (Nat → Turn)) :
    s.2.buffer ++ s.1.flatten = (yielded s polls).flatten ++
      ((runState pollNext s polls).2.buffer ++ (runState pollNext s polls).1.flatten) := by
  induction polls generalizing s with
  | nil => rfl
  | cons turns polls ih =>
    have hpolled := polled_pollNext h turns
    have hchunk : (pollNext s turns).2.chunk.toList.flatten = (pollNext s turns).2.chunk.getD [] := by
      cases (pollNext s turns).2.chunk with
      | none => rfl
      | some chunk => exact List.append_nil chunk
    rw [hpolled.conserved, ih hpolled.coherent, yielded_cons, List.flatten_append, hchunk, List.append_assoc]
    rfl

/-- After the first frame, no chunk is empty. -/
theorem yielded_nonempty (h : Coherent s) (hwindow : s.2.window ≠ 0) (hsent : s.2.firstSent = true)
    (polls : List (Nat → Turn)) : ∀ chunk ∈ yielded s polls, chunk ≠ [] := by
  induction polls generalizing s with
  | nil => exact fun chunk hchunk => absurd hchunk List.not_mem_nil
  | cons turns polls ih =>
    have hpolled := polled_pollNext h turns
    intro chunk hchunk
    rw [yielded_cons, List.mem_append] at hchunk
    rcases hchunk with hchunk | hchunk
    · rintro rfl
      exact hpolled.nonempty hwindow hsent (Option.mem_toList.mp hchunk)
    · exact ih hpolled.coherent (by rwa [hpolled.window]) (hpolled.sent hsent) chunk hchunk

theorem yielded_tail_nonempty (h : Coherent s) (hwindow : s.2.window ≠ 0) (polls : List (Nat → Turn)) :
    ∀ chunk ∈ (yielded s polls).tail, chunk ≠ [] := by
  induction polls generalizing s with
  | nil => exact fun chunk hchunk => absurd hchunk List.not_mem_nil
  | cons turns polls ih =>
    have hpolled := polled_pollNext h turns
    have hwindow' : (pollNext s turns).1.2.window ≠ 0 := by rwa [hpolled.window]
    rw [yielded_cons]
    cases hchunk : (pollNext s turns).2.chunk with
    | none => exact ih hpolled.coherent hwindow'
    | some first =>
      have hsent := hpolled.first hwindow (by rw [hchunk]; rfl)
      exact yielded_nonempty hpolled.coherent hwindow' hsent polls

end

/-- A poll that ends the stream has left nothing out; the buffer is bounded and has a deadline while it is not empty; no
chunk after the first is empty unless the window is; and a poll that leaves something in the buffer has armed the timer. -/
theorem coalesced_transparent (frames : List Bytes) (window now : Nat) (polls : List (Nat → Turn)) :
    (∀ turns, (pollNext (coalescedAt frames window now polls) turns).2 = .ready none →
        (yielded (frames, .new window now) polls).flatten = frames.flatten) ∧
      ((coalescedAt frames window now polls).2.deadline.isSome = true ↔
        (coalescedAt frames window now polls).2.buffer ≠ []) ∧
      (coalescedAt frames window now polls).2.buffer.length < maxBufferBytes ∧
      (window ≠ 0 → ∀ chunk ∈ (yielded (frames, .new window now) polls).tail, chunk ≠ []) ∧
      ∀ turns, (pollNext (coalescedAt frames window now polls) turns).2 = .pending →
        (pollNext (coalescedAt frames window now polls) turns).1.2.buffer ≠ [] →
        (pollNext (coalescedAt frames window now polls) turns).1.2.deadline =
            some (pollNext (coalescedAt frames window now polls) turns).1.2.timer.deadline ∧
          (pollNext (coalescedAt frames window now polls) turns).1.2.timer.armed = true := by
  have hcoherent := coherent_coalescedAt frames window now polls
  have hnew := coherent_new frames window now
  refine ⟨fun turns hend => ?_, hcoherent.deadline, hcoherent.bounded, fun hwindow => ?_, fun turns hpending => ?_⟩
  · have hpolled := polled_pollNext hcoherent turns
    have hleft := hpolled.conserved
    have hall := yielded_conserved hnew polls
    obtain ⟨hinner, hbuffer⟩ := hpolled.ended hend
    rw [hend, hinner, hbuffer] at hleft
    have hframes : frames.flatten = (yielded (frames, .new window now) polls).flatten ++
      ((coalescedAt frames window now polls).2.buffer ++ (coalescedAt frames window now polls).1.flatten) := hall
    rw [hframes, hleft]
    exact (List.append_nil _).symm
  · exact yielded_tail_nonempty hnew hwindow polls
  · exact (polled_pollNext hcoherent turns).armed hpending

/-- A turn at which the inner stream is ready. -/
def readyTurn : Turn := ⟨0, true, 0, false⟩

/-- Without a window, an empty frame passes like any other. -/
theorem not_nonempty_disabled : ¬ ∀ (frames : List Bytes) (window now : Nat) (polls : List (Nat → Turn)),
    ∀ chunk ∈ (yielded (frames, .new window now) polls).tail, chunk ≠ [] := fun h =>
  h [[97], []] 0 0 [fun _ => readyTurn, fun _ => readyTurn] [] List.mem_cons_self rfl

end OpenProxy.Streaming
