import OpenProxy.Translation.ResponsesSse

/-!
# The protocol of the Responses events

The log of a response says for each output index whether its item is open, with the deltas so far, or done.  The items
of the stream are the entries of the log.  A run keeps to the protocol if and only if no item gets a delta after it has
been closed, no error comes while an item is open, and nothing is said after the end.
-/

namespace OpenProxy.Translation

/-! ### The log -/

inductive ItemState
  | absent
  | open (text : Text)
  | done
deriving DecidableEq

inductive ResponsePhase
  | running
  | completed
  | closed
deriving DecidableEq

structure ResponseLog where
  item : Nat → ItemState
  phase : ResponsePhase

namespace ResponseLog

def start : ResponseLog := ⟨fun _ => .absent, .running⟩

def set (m : ResponseLog) (index : Nat) (st : ItemState) : ResponseLog :=
  { m with item := fun i => if i = index then st else m.item i }

/-- A delta belongs to an open item. -/
def delta (m : ResponseLog) (index : Nat) (text : Text) : Option ResponseLog :=
  match m.item index with
  | .open acc => some (m.set index (.open (acc ++ text)))
  | _ => none

/-- The final text of an open item is the concatenation of its deltas. -/
def hasText (m : ResponseLog) (index : Nat) (text : Text) : Bool := m.item index = .open text

/-- The events that may come while the response is running. -/
def checkRunning (m : ResponseLog) : ResponsesEvent → Option ResponseLog
  | .created _ _ => some m
  | .itemAdded index _ => if m.item index = .absent then some (m.set index (.open [])) else none
  | .reasoningTextDelta index text => m.delta index text
  | .outputTextDelta index text => m.delta index text
  | .argumentsDelta index _ text => m.delta index text
  | .argumentsDone index _ arguments => if m.hasText index arguments then some m else none
  | .itemDone index item => if m.hasText index item.text then some (m.set index .done) else none
  | .completed _ _ _ _ => some { m with phase := .completed }
  | .failed _ _ _ => some { m with phase := .closed }
  | .failedPayload _ => some { m with phase := .closed }
  | .doneSentinel => none

/-- After `response.completed` only the line `data: [DONE]` follows, after that and after `response.failed` nothing. -/
def check (m : ResponseLog) (e : ResponsesEvent) : Option ResponseLog :=
  match m.phase with
  | .running => m.checkRunning e
  | .completed => if e = .doneSentinel then some { m with phase := .closed } else none
  | .closed => none

end ResponseLog

open ResponseLog (check)

/-- The events are those of a whole response: each item is added at a fresh index, deltas come while it is open, it is
done exactly once with the concatenation of its deltas, and nothing follows the end. -/
def WellFormedResponse (events : List ResponsesEvent) : Prop :=
  ∃ m, watch check .start events = some m ∧ ∀ index text, m.item index ≠ .open text

/-! ### Entries of the log -/

/-- The log of a running response has these entries, and `next` is a fresh index. -/
structure Tracks (entries : List (Nat × ItemState)) (next : Nat) (m : ResponseLog) : Prop where
  running : m.phase = .running
  nodup : (entries.map Prod.fst).Nodup
  bound : ∀ e ∈ entries, e.1 < next
  item_eq : ∀ e ∈ entries, m.item e.1 = e.2
  absent : ∀ index, index ∉ entries.map Prod.fst → m.item index = .absent

namespace Tracks

variable {A B entries : List (Nat × ItemState)} {next index : Nat} {st : ItemState} {m : ResponseLog}

theorem start : Tracks [] 0 .start := ⟨rfl, List.nodup_nil, by simp, by simp, fun _ _ => rfl⟩

theorem item_mid (h : Tracks (A ++ (index, st) :: B) next m) : m.item index = st :=
  h.item_eq (index, st) (by simp)

theorem absent_next (h : Tracks entries next m) : m.item next = .absent := by
  refine h.absent next fun hmem => ?_
  obtain ⟨e, he, heq⟩ := List.mem_map.mp hmem
  have := h.bound e he
  omega

theorem nodup_mid : ((A ++ (index, st) :: B).map Prod.fst).Nodup ↔
    index ∉ (A ++ B).map Prod.fst ∧ ((A ++ B).map Prod.fst).Nodup := by
  rw [List.map_append, List.map_cons, List.nodup_middle, ← List.map_append, List.nodup_cons]

private theorem set_of_fresh {next' : Nat} (hphase : m.phase = .running) (hfresh : index ∉ (A ++ B).map Prod.fst)
    (hnodup : ((A ++ B).map Prod.fst).Nodup) (hbound : ∀ e ∈ A ++ B, e.1 < next') (hindex : index < next')
    (hitem : ∀ e ∈ A ++ B, m.item e.1 = e.2)
    (habsent : ∀ i, i ≠ index → i ∉ (A ++ B).map Prod.fst → m.item i = .absent) (st : ItemState) :
    Tracks (A ++ (index, st) :: B) next' (m.set index st) := by
  have hmem : ∀ e, e ∈ A ++ (index, st) :: B ↔ e = (index, st) ∨ e ∈ A ++ B := by
    intro e
    simp only [List.mem_append, List.mem_cons]
    tauto
  refine ⟨hphase, ?_, ?_, ?_, ?_⟩
  · exact nodup_mid.mpr ⟨hfresh, hnodup⟩
  · intro e he
    rcases (hmem e).mp he with rfl | he
    · exact hindex
    · exact hbound e he
  · intro e he
    rcases (hmem e).mp he with rfl | he
    · simp [ResponseLog.set]
    · have hne : e.1 ≠ index := fun heq => hfresh (heq ▸ List.mem_map_of_mem he)
      simpa [ResponseLog.set, hne] using hitem e he
  · intro i hi
    have hne : i ≠ index := by
      rintro rfl
      exact hi (by simp)
    have hi' : i ∉ (A ++ B).map Prod.fst := by
      intro hmem'
      obtain ⟨e, he, rfl⟩ := List.mem_map.mp hmem'
      exact hi (List.mem_map_of_mem ((hmem e).mpr (.inr he)))
    simpa [ResponseLog.set, hne] using habsent i hne hi'

theorem set (h : Tracks (A ++ (index, st) :: B) next m) (st' : ItemState) :
    Tracks (A ++ (index, st') :: B) next (m.set index st') := by
  have hsub : ∀ e ∈ A ++ B, e ∈ A ++ (index, st) :: B := by
    intro e he
    simp only [List.mem_append, List.mem_cons] at he ⊢
    tauto
  obtain ⟨hfresh, hnodup⟩ := nodup_mid.mp h.nodup
  refine set_of_fresh h.running hfresh hnodup (fun e he => h.bound e (hsub e he))
    (h.bound (index, st) (by simp)) (fun e he => h.item_eq e (hsub e he)) (fun i hne hi => h.absent i ?_) st'
  simp only [List.map_append, List.map_cons, List.mem_append, List.mem_cons] at hi ⊢
  tauto

theorem insert (h : Tracks (A ++ B) next m) (st : ItemState) :
    Tracks (A ++ (next, st) :: B) (next + 1) (m.set next st) := by
  have hfresh : next ∉ (A ++ B).map Prod.fst := by
    intro hmem
    obtain ⟨e, he, heq⟩ := List.mem_map.mp hmem
    have := h.bound e he
    omega
  exact set_of_fresh h.running hfresh h.nodup (fun e he => Nat.lt_succ_of_lt (h.bound e he)) (Nat.lt_succ_self next)
    h.item_eq (fun i _ hi => h.absent i hi) st

theorem check_eq (h : Tracks entries next m) (e : ResponsesEvent) : m.check e = m.checkRunning e := by
  simp [ResponseLog.check, h.running]

theorem check_added (h : Tracks entries next m) (header : ItemHeader) :
    m.check (.itemAdded next header) = some (m.set next (.open [])) := by
  rw [h.check_eq]
  exact if_pos h.absent_next

theorem delta_eq {acc : Text} (h : Tracks (A ++ (index, .open acc) :: B) next m) (text : Text) :
    m.delta index text = some (m.set index (.open (acc ++ text))) := by
  simp [ResponseLog.delta, h.item_mid]

theorem delta_done (h : Tracks (A ++ (index, .done) :: B) next m) (text : Text) : m.delta index text = none := by
  simp [ResponseLog.delta, h.item_mid]

theorem check_itemDone {acc : Text} (h : Tracks (A ++ (index, .open acc) :: B) next m) (header : ItemHeader) :
    m.check (.itemDone index ⟨header, acc⟩) = some (m.set index .done) := by
  rw [h.check_eq]
  exact if_pos (by simp [ResponseLog.hasText, h.item_mid])

theorem check_argumentsDone {acc : Text} (h : Tracks (A ++ (index, .open acc) :: B) next m) (callId : Text) :
    m.check (.argumentsDone index callId acc) = some m := by
  rw [h.check_eq]
  exact if_pos (by simp [ResponseLog.hasText, h.item_mid])

end Tracks

/-! ### The items of the stream as entries -/

/-- An item counts as done, or as open with its text so far. -/
def itemState (done : Bool) (text : Text) : ItemState := if done then .done else .open text

namespace ItemSlot

def entry (slot : ItemSlot) : List (Nat × ItemState) :=
  slot.outputIndex.toList.map fun index => (index, itemState slot.done slot.accumulated)

/-- An item that has not been added has no text. -/
def Ok (slot : ItemSlot) : Prop := slot.outputIndex = none → slot.done = false ∧ slot.accumulated = []

theorem ok_empty : Ok .empty := fun _ => ⟨rfl, rfl⟩

variable {slot : ItemSlot} {A B : List (Nat × ItemState)} {next : Nat} {m : ResponseLog}

theorem ok_close (h : slot.Ok) (header : ItemHeader) : (slot.close header).1.Ok := by
  unfold close
  split
  · split
    · exact h
    · rename_i index heq _
      intro hnone
      simp [heq] at hnone
  · exact h

theorem watch_close (header : ItemHeader) (h : Tracks (A ++ slot.entry ++ B) next m) :
    ∃ m', watch check m (slot.close header).2 = some m' ∧
      Tracks (A ++ (slot.close header).1.entry ++ B) next m' := by
  obtain ⟨outputIndex, done, accumulated⟩ := slot
  cases outputIndex with
  | none => exact ⟨m, rfl, h⟩
  | some index =>
    cases done with
    | true => exact ⟨m, rfl, h⟩
    | false =>
      replace h : Tracks (A ++ (index, .open accumulated) :: B) next m := by simpa [entry, itemState] using h
      refine ⟨m.set index .done, ?_, ?_⟩
      · simp [close, h.check_itemDone]
      · simpa [close, entry, itemState] using h.set .done

/-- The events by which a delta reaches the log. -/
def IsDelta (delta : Nat → ResponsesEvent) (text : Text) : Prop :=
  ∀ (m : ResponseLog) (index : Nat), m.checkRunning (delta index) = m.delta index text

theorem watch_append {delta : Nat → ResponsesEvent} {text : Text} (header : ItemHeader) (hdelta : IsDelta delta text)
    (hok : slot.Ok) (hdone : slot.done = false) (h : Tracks (A ++ slot.entry ++ B) next m) :
    ∃ m', watch check m (slot.append next header delta text).2.2 = some m' ∧
      Tracks (A ++ (slot.append next header delta text).1.entry ++ B) (slot.append next header delta text).2.1 m' ∧
      (slot.append next header delta text).1.Ok := by
  obtain ⟨outputIndex, done, accumulated⟩ := slot
  unfold IsDelta at hdelta
  cases hdone
  cases outputIndex with
  | none =>
    obtain rfl : accumulated = [] := (hok rfl).2
    have hadd : Tracks (A ++ (next, .open []) :: B) (next + 1) (m.set next (.open [])) := by
      refine Tracks.insert ?_ _
      simpa [entry] using h
    have hset := hadd.set (.open text)
    refine ⟨_, ?_, by simpa [append, entry, itemState] using hset, by simp [append, Ok]⟩
    simp [append, h.check_added, hadd.check_eq, hdelta, hadd.delta_eq]
  | some index =>
    replace h : Tracks (A ++ (index, .open accumulated) :: B) next m := by simpa [entry, itemState] using h
    have hset := h.set (.open (accumulated ++ text))
    refine ⟨_, ?_, by simpa [append, entry, itemState] using hset, by simp [append, Ok]⟩
    simp [append, h.check_eq, hdelta, h.delta_eq]

/-- A delta for an item that is done is rejected. -/
theorem watch_append_done {delta : Nat → ResponsesEvent} {text : Text} (header : ItemHeader)
    (hdelta : IsDelta delta text) (hok : slot.Ok) (hdone : slot.done = true) (h : Tracks (A ++ slot.entry ++ B) next m) :
    watch check m (slot.append next header delta text).2.2 = none := by
  obtain ⟨outputIndex, done, accumulated⟩ := slot
  unfold IsDelta at hdelta
  cases hdone
  cases outputIndex with
  | none => exact absurd (hok rfl).1 (by simp)
  | some index =>
    replace h : Tracks (A ++ (index, .done) :: B) next m := by simpa [entry, itemState] using h
    simp [append, h.check_eq, hdelta, h.delta_done]

end ItemSlot

namespace StreamToolCall

def entry (tc : StreamToolCall) : Nat × ItemState := (tc.outputIndex, itemState tc.doneEmitted tc.arguments)

variable {A B : List (Nat × ItemState)} {next : Nat} {m : ResponseLog}

theorem watch_close (tc : StreamToolCall) (h : Tracks (A ++ tc.entry :: B) next m) :
    ∃ m', watch check m tc.close.2 = some m' ∧ Tracks (A ++ tc.close.1.entry :: B) next m' := by
  obtain ⟨toolIndex, outputIndex, callId, name, arguments, doneEmitted⟩ := tc
  cases doneEmitted with
  | true => exact ⟨m, rfl, h⟩
  | false =>
    replace h : Tracks (A ++ (outputIndex, .open arguments) :: B) next m := h
    refine ⟨m.set outputIndex .done, ?_, h.set .done⟩
    simp [close, h.check_argumentsDone, h.check_itemDone]

/-- The loop of `close_tool_calls`. -/
theorem watch_closeAll {tcs : List StreamToolCall} (h : Tracks (A ++ tcs.map entry) next m) :
    ∃ m', watch check m (tcs.flatMap (·.close.2)) = some m' ∧
      Tracks (A ++ (tcs.map (·.close.1)).map entry) next m' := by
  induction tcs generalizing A m with
  | nil => exact ⟨m, rfl, h⟩
  | cons tc tcs ih =>
    obtain ⟨m₁, hwatch₁, h₁⟩ := watch_close tc h
    have hsplit : A ++ tc.close.1.entry :: tcs.map entry = (A ++ [tc.close.1.entry]) ++ tcs.map entry := by simp
    rw [hsplit] at h₁
    obtain ⟨m₂, hwatch₂, h₂⟩ := ih h₁
    refine ⟨m₂, ?_, by simpa using h₂⟩
    rw [List.flatMap_cons, OpenProxy.watch_append, hwatch₁]
    exact hwatch₂

end StreamToolCall

/-! ### A chunk as a sequence of calls -/

inductive ResponsesCall
  | reasoning (reasoning : Text)
  | text (text : Text)
  | toolCalls
  | toolCall (tc : ResponsesToolCallProbe)
  | finishReason
deriving DecidableEq

def ResponsesDeltaProbe.calls (delta : ResponsesDeltaProbe) : List ResponsesCall :=
  (delta.reasoningContent.map ResponsesCall.reasoning).toList ++ (delta.content.map ResponsesCall.text).toList ++
    (delta.toolCalls.map fun tcs => .toolCalls :: tcs.map ResponsesCall.toolCall).getD []

def ResponsesChoiceProbe.calls (c : ResponsesChoiceProbe) : List ResponsesCall :=
  (c.delta.map ResponsesDeltaProbe.calls).getD [] ++ if c.finishReason.isSome then [.finishReason] else []

/-- The calls of a chunk after `ensure_started`. -/
def ResponsesSseProbe.calls (probe : ResponsesSseProbe) : List ResponsesCall :=
  (probe.choices.getD []).flatMap ResponsesChoiceProbe.calls

namespace OpenAIToResponsesSseStream

def handle (s : OpenAIToResponsesSseStream) : ResponsesCall → OpenAIToResponsesSseStream × List ResponsesEvent
  | .reasoning reasoning => s.handleReasoning reasoning
  | .text text => s.handleText text
  | .toolCalls => s.closeOutput
  | .toolCall tc => s.handleToolCall tc
  | .finishReason => s.closeAll

theorem handleToolCalls_eq (s : OpenAIToResponsesSseStream) (tcs : List ResponsesToolCallProbe) :
    s.handleToolCalls tcs = (runState handle s (tcs.map .toolCall), emitted handle s (tcs.map .toolCall)) := by
  induction tcs generalizing s with
  | nil => rfl
  | cons tc tcs ih =>
    simp only [handleToolCalls, ih]
    rfl

theorem handleDelta_eq (s : OpenAIToResponsesSseStream) (delta : ResponsesDeltaProbe) :
    s.handleDelta delta = (runState handle s delta.calls, emitted handle s delta.calls) := by
  obtain ⟨content, reasoningContent, toolCalls⟩ := delta
  cases content <;> cases reasoningContent <;> cases toolCalls <;>
    simp [handleDelta, ResponsesDeltaProbe.calls, handleToolCalls_eq, runState, handle]

theorem handleChoice_eq (s : OpenAIToResponsesSseStream) (c : ResponsesChoiceProbe) :
    s.handleChoice c = (runState handle s c.calls, emitted handle s c.calls) := by
  obtain ⟨delta, finishReason⟩ := c
  cases delta <;> cases finishReason <;>
    simp [handleChoice, ResponsesChoiceProbe.calls, handleDelta_eq, emitted_append, runState_append, runState, handle]

theorem handleChoices_eq (s : OpenAIToResponsesSseStream) (cs : List ResponsesChoiceProbe) :
    s.handleChoices cs = (runState handle s (cs.flatMap (·.calls)), emitted handle s (cs.flatMap (·.calls))) := by
  induction cs generalizing s with
  | nil => rfl
  | cons c cs ih => simp [handleChoices, handleChoice_eq, ih, emitted_append, runState_append]

theorem processChunk_eq (s : OpenAIToResponsesSseStream) (probe : ResponsesSseProbe) :
    s.processChunk probe =
      let (s, started) := (s.readMetadata probe).ensureStarted
      (runState handle s probe.calls, started ++ emitted handle s probe.calls) := by
  unfold processChunk ResponsesSseProbe.calls
  cases probe.choices <;> simp [handleChoices_eq, runState]

/-! ### The stream against the log -/

variable {s : OpenAIToResponsesSseStream} {m : ResponseLog}

def entries (s : OpenAIToResponsesSseStream) : List (Nat × ItemState) :=
  s.reasoning.entry ++ s.text.entry ++ s.toolCalls.map StreamToolCall.entry

/-- The response is running, and its log has the items of the stream. -/
structure Running (s : OpenAIToResponsesSseStream) (m : ResponseLog) : Prop where
  completed : s.hasCompleted = false
  tracks : Tracks s.entries s.nextOutputIndex m
  reasoning : s.reasoning.Ok
  text : s.text.Ok

/-- The response is over, and all its items are done. -/
structure Ended (s : OpenAIToResponsesSseStream) (m : ResponseLog) : Prop where
  completed : s.hasCompleted = true
  closed : m.phase = .closed
  entries_done : ∀ e ∈ s.entries, e.2 = .done
  item_done : ∀ index text, m.item index ≠ .open text

def Related (s : OpenAIToResponsesSseStream) (m : ResponseLog) : Prop := Running s m ∨ Ended s m

theorem closeReasoning_running (h : Running s m) :
    ∃ m', watch check m s.closeReasoning.2 = some m' ∧ Running s.closeReasoning.1 m' := by
  have htracks : Tracks ([] ++ s.reasoning.entry ++ (s.text.entry ++ s.toolCalls.map StreamToolCall.entry))
      s.nextOutputIndex m := by simpa [entries] using h.tracks
  obtain ⟨m', hwatch, h'⟩ := ItemSlot.watch_close (.reasoning s.reasoningId) htracks
  exact ⟨m', hwatch, h.completed, by simpa [entries, closeReasoning] using h', ItemSlot.ok_close h.reasoning _, h.text⟩

theorem closeText_running (h : Running s m) :
    ∃ m', watch check m s.closeText.2 = some m' ∧ Running s.closeText.1 m' := by
  obtain ⟨m', hwatch, h'⟩ := ItemSlot.watch_close (.message s.messageId) h.tracks
  exact ⟨m', hwatch, h.completed, by simpa [entries, closeText] using h', h.reasoning, ItemSlot.ok_close h.text _⟩

theorem closeToolCalls_running (h : Running s m) :
    ∃ m', watch check m s.closeToolCalls.2 = some m' ∧ Running s.closeToolCalls.1 m' := by
  obtain ⟨m', hwatch, h'⟩ := StreamToolCall.watch_closeAll h.tracks
  exact ⟨m', hwatch, h.completed, by simpa [entries, closeToolCalls] using h', h.reasoning, h.text⟩

theorem closeOutput_running (h : Running s m) :
    ∃ m', watch check m s.closeOutput.2 = some m' ∧ Running s.closeOutput.1 m' := by
  obtain ⟨m₁, hwatch₁, h₁⟩ := closeReasoning_running h
  obtain ⟨m₂, hwatch₂, h₂⟩ := closeText_running h₁
  refine ⟨m₂, ?_, h₂⟩
  simp [closeOutput, watch_append, hwatch₁, hwatch₂]

theorem closeAll_running (h : Running s m) :
    ∃ m', watch check m s.closeAll.2 = some m' ∧ Running s.closeAll.1 m' := by
  obtain ⟨m₁, hwatch₁, h₁⟩ := closeOutput_running h
  obtain ⟨m₂, hwatch₂, h₂⟩ := closeToolCalls_running h₁
  refine ⟨m₂, ?_, h₂⟩
  simp [closeAll, watch_append, hwatch₁, hwatch₂]

/-! ### Calls in a running response -/

/-- The fragment of arguments that a tool call carries. -/
def fragment (tc : ResponsesToolCallProbe) : Text := (tc.function.bind (·.arguments)).getD []

/-- The tool call of the stream to which a tool call of a chunk belongs. -/
def known (s : OpenAIToResponsesSseStream) (tc : ResponsesToolCallProbe) : Option StreamToolCall :=
  s.toolCalls.find? (·.toolIndex = tc.index.getD 0)

/-- The calls that keep to the protocol in a state. -/
def InOrder (s : OpenAIToResponsesSseStream) : ResponsesCall → Prop
  | .reasoning reasoning => reasoning ≠ [] → s.hasCompleted = false ∧ s.reasoning.done = false
  | .text text => text ≠ [] → s.hasCompleted = false ∧ s.text.done = false
  | .toolCalls => True
  | .toolCall tc =>
    (s.known tc = none → s.hasCompleted = false) ∧
      (fragment tc ≠ [] → s.hasCompleted = false ∧ ∀ t ∈ s.known tc, t.doneEmitted = false)
  | .finishReason => True

theorem isDelta_reasoning (text : Text) : ItemSlot.IsDelta (.reasoningTextDelta · text) text := fun _ _ => rfl

theorem isDelta_text (text : Text) : ItemSlot.IsDelta (.outputTextDelta · text) text := fun _ _ => rfl

theorem tracks_reasoning (h : Running s m) :
    Tracks ([] ++ s.reasoning.entry ++ (s.text.entry ++ s.toolCalls.map StreamToolCall.entry)) s.nextOutputIndex m := by
  simpa [entries] using h.tracks

theorem handleReasoning_running {reasoning : Text} (h : Running s m) (hin : s.InOrder (.reasoning reasoning)) :
    ∃ m', watch check m (s.handleReasoning reasoning).2 = some m' ∧
      Running (s.handleReasoning reasoning).1 m' := by
  by_cases hempty : reasoning = []
  · subst hempty
    exact ⟨m, rfl, h⟩
  obtain ⟨m', hwatch, htracks, hok⟩ := ItemSlot.watch_append (.reasoning s.reasoningId) (isDelta_reasoning reasoning)
    h.reasoning (hin hempty).2 (tracks_reasoning h)
  have hne : reasoning.isEmpty = false := by simp [hempty]
  simp only [handleReasoning, hne]
  exact ⟨m', hwatch, h.completed, by simpa [entries] using htracks, hok, h.text⟩

theorem handleReasoning_rejected {reasoning : Text} (h : Running s m) (hin : ¬ s.InOrder (.reasoning reasoning)) :
    watch check m (s.handleReasoning reasoning).2 = none := by
  simp only [InOrder, h.completed, true_and, Classical.not_imp, Bool.not_eq_false] at hin
  have hne : reasoning.isEmpty = false := by simp [hin.1]
  simp only [handleReasoning, hne]
  exact ItemSlot.watch_append_done _ (isDelta_reasoning reasoning) h.reasoning hin.2 (tracks_reasoning h)

theorem handleText_running {text : Text} (h : Running s m) (hin : s.InOrder (.text text)) :
    ∃ m', watch check m (s.handleText text).2 = some m' ∧ Running (s.handleText text).1 m' := by
  by_cases hempty : text = []
  · subst hempty
    exact ⟨m, rfl, h⟩
  obtain ⟨m₁, hwatch₁, h₁⟩ := closeReasoning_running h
  obtain ⟨m₂, hwatch₂, htracks, hok⟩ := ItemSlot.watch_append (.message s.closeReasoning.1.messageId) (isDelta_text text)
    h₁.text (hin hempty).2 h₁.tracks
  have hne : text.isEmpty = false := by simp [hempty]
  simp only [handleText, hne]
  refine ⟨m₂, ?_, h.completed, htracks, h₁.reasoning, hok⟩
  simpa [watch_append, hwatch₁] using hwatch₂

theorem handleText_rejected {text : Text} (h : Running s m) (hin : ¬ s.InOrder (.text text)) :
    watch check m (s.handleText text).2 = none := by
  simp only [InOrder, h.completed, true_and, Classical.not_imp, Bool.not_eq_false] at hin
  have hne : text.isEmpty = false := by simp [hin.1]
  obtain ⟨m₁, hwatch₁, h₁⟩ := closeReasoning_running h
  simp only [handleText, hne]
  simpa [watch_append, hwatch₁] using
    ItemSlot.watch_append_done (.message s.closeReasoning.1.messageId) (isDelta_text text) h₁.text hin.2 h₁.tracks

/-- The tool call that `find` returns is the one that gets the arguments. -/
theorem pushArguments_eq {toolIndex : Nat} {tcs : List StreamToolCall} {t : StreamToolCall}
    (h : tcs.find? (·.toolIndex = toolIndex) = some t) (args : Text) :
    ∃ L R, tcs = L ++ t :: R ∧
      pushArguments toolIndex args tcs = L ++ { t with arguments := t.arguments ++ args } :: R := by
  induction tcs with
  | nil => simp at h
  | cons t' tcs ih =>
    by_cases heq : t'.toolIndex = toolIndex
    · rw [List.find?_cons_of_pos (by simpa using heq)] at h
      cases h
      exact ⟨[], tcs, rfl, by simp [pushArguments, heq]⟩
    · rw [List.find?_cons_of_neg (by simpa using heq)] at h
      obtain ⟨L, R, hsplit, hpush⟩ := ih h
      exact ⟨t' :: L, R, by simp [hsplit], by simp [pushArguments, heq, hpush]⟩

theorem findToolCall_known {tc : ResponsesToolCallProbe} {t : StreamToolCall} (hknown : s.known tc = some t) :
    s.findToolCall tc = (s, (t.outputIndex, t.callId), []) := by
  unfold findToolCall
  unfold known at hknown
  simp [hknown]

/-- The tool call that is added for a tool call of a chunk. -/
def newToolCall (s : OpenAIToResponsesSseStream) (tc : ResponsesToolCallProbe) : StreamToolCall where
  toolIndex := tc.index.getD 0
  outputIndex := s.nextOutputIndex
  callId := if (tc.id.getD []).isEmpty then "call_".toList ++ Nat.toDigits 10 s.nextOutputIndex else tc.id.getD []
  name := (tc.function.bind (·.name)).getD []
  arguments := []
  doneEmitted := false

theorem newToolCall_toolIndex (s : OpenAIToResponsesSseStream) (tc : ResponsesToolCallProbe) :
    (s.newToolCall tc).toolIndex = tc.index.getD 0 := rfl

theorem newToolCall_doneEmitted (s : OpenAIToResponsesSseStream) (tc : ResponsesToolCallProbe) :
    (s.newToolCall tc).doneEmitted = false := rfl

theorem newToolCall_entry (s : OpenAIToResponsesSseStream) (tc : ResponsesToolCallProbe) :
    (s.newToolCall tc).entry = (s.nextOutputIndex, .open []) := rfl

theorem findToolCall_new {tc : ResponsesToolCallProbe} (hknown : s.known tc = none) :
    s.findToolCall tc =
      ({ s with nextOutputIndex := s.nextOutputIndex + 1, toolCalls := s.toolCalls ++ [s.newToolCall tc] },
        (s.nextOutputIndex, (s.newToolCall tc).callId),
        [.itemAdded s.nextOutputIndex (.functionCall (s.newToolCall tc).callId (s.newToolCall tc).name)]) := by
  unfold findToolCall
  unfold known at hknown
  simp only [hknown]
  rfl

/-- A new tool call is known from then on. -/
theorem known_new {tc : ResponsesToolCallProbe} (hknown : s.known tc = none) :
    (s.findToolCall tc).1.known tc = some (s.newToolCall tc) := by
  rw [findToolCall_new hknown]
  unfold known at hknown ⊢
  simp [List.find?_append, hknown, newToolCall_toolIndex]

/-- After the first part the tool call is known, and the second part knows its output index. -/
theorem findToolCall_spec (tc : ResponsesToolCallProbe) (h : Running s m) :
    ∃ t m', watch check m (s.findToolCall tc).2.2 = some m' ∧ Running (s.findToolCall tc).1 m' ∧
      (s.findToolCall tc).1.known tc = some t ∧ (s.findToolCall tc).2.1 = (t.outputIndex, t.callId) ∧
      (t.doneEmitted = true ↔ ∃ t ∈ s.known tc, t.doneEmitted = true) := by
  cases hknown : s.known tc with
  | some t =>
    rw [findToolCall_known hknown]
    exact ⟨t, m, rfl, h, hknown, rfl, by simp⟩
  | none =>
    have hnew := known_new hknown
    have htracks : Tracks (s.entries ++ []) s.nextOutputIndex m := by simpa using h.tracks
    rw [findToolCall_new hknown] at hnew ⊢
    refine ⟨s.newToolCall tc, m.set s.nextOutputIndex (.open []), ?_, ?_, hnew, rfl, by simp [newToolCall_doneEmitted]⟩
    · simp [h.tracks.check_added]
    · refine ⟨h.completed, ?_, h.reasoning, h.text⟩
      simpa [entries, newToolCall_entry] using htracks.insert (.open [])

/-- The second part of a tool call with arguments, for the tool call `t`. -/
theorem handleToolCall_eq (tc : ResponsesToolCallProbe) :
    s.handleToolCall tc =
      if fragment tc = [] then ((s.findToolCall tc).1, (s.findToolCall tc).2.2)
      else
        ({ (s.findToolCall tc).1 with
            toolCalls := pushArguments (tc.index.getD 0) (fragment tc) (s.findToolCall tc).1.toolCalls },
          (s.findToolCall tc).2.2 ++
            [.argumentsDelta (s.findToolCall tc).2.1.1 (s.findToolCall tc).2.1.2 (fragment tc)]) := by
  unfold handleToolCall fragment
  simp only [List.isEmpty_iff]

theorem handleToolCall_running {tc : ResponsesToolCallProbe} (h : Running s m) (hin : s.InOrder (.toolCall tc)) :
    ∃ m', watch check m (s.handleToolCall tc).2 = some m' ∧ Running (s.handleToolCall tc).1 m' := by
  obtain ⟨t, m₁, hwatch₁, h₁, hknown, hindex, hdone⟩ := findToolCall_spec tc h
  rw [handleToolCall_eq]
  by_cases hempty : fragment tc = []
  · rw [if_pos hempty]
    exact ⟨m₁, hwatch₁, h₁⟩
  rw [if_neg hempty]
  have hopen : t.doneEmitted = false := by
    by_contra htrue
    obtain ⟨t', ht', htrue'⟩ := hdone.mp (by simpa using htrue)
    simp [(hin.2 hempty).2 t' ht'] at htrue'
  obtain ⟨L, R, hsplit, hpush⟩ := pushArguments_eq hknown (fragment tc)
  let A := (s.findToolCall tc).1.reasoning.entry ++ (s.findToolCall tc).1.text.entry ++ L.map StreamToolCall.entry
  have htracks : Tracks (A ++ (t.outputIndex, .open t.arguments) :: R.map StreamToolCall.entry)
      (s.findToolCall tc).1.nextOutputIndex m₁ := by
    have htracks := h₁.tracks
    rw [entries, hsplit] at htracks
    simpa [A, StreamToolCall.entry, itemState, hopen] using htracks
  refine ⟨m₁.set t.outputIndex (.open (t.arguments ++ fragment tc)), ?_, h₁.completed, ?_, h₁.reasoning, h₁.text⟩
  · simp [watch_append, hwatch₁, hindex, htracks.check_eq, ResponseLog.checkRunning, htracks.delta_eq]
  · have hset := htracks.set (.open (t.arguments ++ fragment tc))
    simpa [entries, hpush, A, StreamToolCall.entry, itemState, hopen] using hset

theorem handleToolCall_rejected {tc : ResponsesToolCallProbe} (h : Running s m) (hin : ¬ s.InOrder (.toolCall tc)) :
    watch check m (s.handleToolCall tc).2 = none := by
  obtain ⟨t, m₁, hwatch₁, h₁, hknown, hindex, hdone⟩ := findToolCall_spec tc h
  simp only [InOrder, h.completed, implies_true, true_and, Classical.not_imp, not_forall, Bool.not_eq_false] at hin
  obtain ⟨hempty, t', ht', htrue'⟩ := hin
  have hclosed : t.doneEmitted = true := hdone.mpr ⟨t', ht', htrue'⟩
  rw [handleToolCall_eq, if_neg hempty]
  have hmem : t.entry ∈ (s.findToolCall tc).1.entries := by
    have hmem := List.mem_of_find?_eq_some hknown
    simp only [entries, List.mem_append]
    exact .inr (List.mem_map_of_mem hmem)
  have hitem : m₁.item t.outputIndex = .done := by
    simpa [StreamToolCall.entry, itemState, hclosed] using h₁.tracks.item_eq t.entry hmem
  simp [watch_append, hwatch₁, hindex, h₁.tracks.check_eq, ResponseLog.checkRunning, ResponseLog.delta, hitem]

theorem handle_running {call : ResponsesCall} (h : Running s m) (hin : s.InOrder call) :
    ∃ m', watch check m (s.handle call).2 = some m' ∧ Running (s.handle call).1 m' := by
  cases call with
  | reasoning reasoning => exact handleReasoning_running h hin
  | text text => exact handleText_running h hin
  | toolCalls => exact closeOutput_running h
  | toolCall tc => exact handleToolCall_running h hin
  | finishReason => exact closeAll_running h

theorem handle_rejected {call : ResponsesCall} (h : Running s m) (hin : ¬ s.InOrder call) :
    watch check m (s.handle call).2 = none := by
  cases call with
  | reasoning reasoning => exact handleReasoning_rejected h hin
  | text text => exact handleText_rejected h hin
  | toolCalls => exact absurd trivial hin
  | toolCall tc => exact handleToolCall_rejected h hin
  | finishReason => exact absurd trivial hin

/-! ### Calls after the end -/

theorem watch_closed (hm : m.phase = .closed) {events : List ResponsesEvent} (h : events ≠ []) :
    watch check m events = none := by
  cases events with
  | nil => exact absurd rfl h
  | cons e es => simp [ResponseLog.check, hm]

theorem close_of_done {slot : ItemSlot} (header : ItemHeader) (h : ∀ e ∈ slot.entry, e.2 = .done) :
    slot.close header = (slot, []) := by
  obtain ⟨outputIndex, done, accumulated⟩ := slot
  cases outputIndex with
  | none => rfl
  | some index =>
    cases done with
    | true => rfl
    | false => simp [ItemSlot.entry, itemState] at h

theorem toolCall_close_of_done {tc : StreamToolCall} (h : tc.entry.2 = .done) : tc.close = (tc, []) := by
  obtain ⟨toolIndex, outputIndex, callId, name, arguments, doneEmitted⟩ := tc
  cases doneEmitted with
  | true => rfl
  | false => simp [StreamToolCall.entry, itemState] at h

section

variable (h : ∀ e ∈ s.entries, e.2 = .done)
include h

theorem closeReasoning_of_done : s.closeReasoning = (s, []) := by
  have hslot : ∀ e ∈ s.reasoning.entry, e.2 = .done := fun e he => h e (by simp [entries, he])
  simp [closeReasoning, close_of_done _ hslot]

theorem closeText_of_done : s.closeText = (s, []) := by
  have hslot : ∀ e ∈ s.text.entry, e.2 = .done := fun e he => h e (by simp [entries, he])
  simp [closeText, close_of_done _ hslot]

theorem closeToolCalls_of_done : s.closeToolCalls = (s, []) := by
  have hclose : ∀ tc ∈ s.toolCalls, tc.close = (tc, []) := by
    intro tc htc
    refine toolCall_close_of_done (h _ ?_)
    simp only [entries, List.mem_append]
    exact .inr (List.mem_map_of_mem htc)
  have hmap : s.toolCalls.map (·.close.1) = s.toolCalls := by
    conv_rhs => rw [← List.map_id s.toolCalls]
    exact List.map_congr_left fun tc htc => by simp [hclose tc htc]
  have hnil : s.toolCalls.flatMap (·.close.2) = [] :=
    List.flatMap_eq_nil_iff.mpr fun tc htc => by simp [hclose tc htc]
  simp only [closeToolCalls, hmap, hnil]

theorem closeOutput_of_done : s.closeOutput = (s, []) := by
  simp [closeOutput, closeReasoning_of_done h, closeText_of_done h]

theorem closeAll_of_done : s.closeAll = (s, []) := by
  simp [closeAll, closeOutput_of_done h, closeToolCalls_of_done h]

end

/-- After the end, the calls in order are those that say nothing. -/
theorem handle_ended {call : ResponsesCall} (h : Ended s m) :
    (s.InOrder call → s.handle call = (s, [])) ∧ (¬ s.InOrder call → (s.handle call).2 ≠ []) := by
  cases call with
  | reasoning reasoning =>
    by_cases hempty : reasoning = []
    · simp [InOrder, handle, handleReasoning, hempty]
    · have hne : (s.handleReasoning reasoning).2 ≠ [] := by
        unfold handleReasoning ItemSlot.append
        cases s.reasoning.outputIndex <;> simp [hempty]
      simpa [InOrder, hempty, h.completed, handle] using hne
  | text text =>
    by_cases hempty : text = []
    · simp [InOrder, handle, handleText, hempty]
    · have hne : (s.handleText text).2 ≠ [] := by
        unfold handleText ItemSlot.append
        rw [closeReasoning_of_done h.entries_done]
        cases hindex : s.text.outputIndex <;> simp [hempty, hindex]
      simpa [InOrder, hempty, h.completed, handle] using hne
  | toolCalls => exact ⟨fun _ => closeOutput_of_done h.entries_done, fun hin => absurd trivial hin⟩
  | toolCall tc =>
    simp only [handle, handleToolCall_eq]
    by_cases hempty : fragment tc = []
    · rw [if_pos hempty]
      cases hknown : s.known tc with
      | none => simp [InOrder, hknown, h.completed, findToolCall_new hknown]
      | some t => simp [InOrder, hknown, hempty, findToolCall_known hknown]
    · rw [if_neg hempty]
      simp [InOrder, hempty, h.completed]
  | finishReason => exact ⟨fun _ => closeAll_of_done h.entries_done, fun hin => absurd trivial hin⟩

theorem handle_inOrder {call : ResponsesCall} (h : Related s m) (hin : s.InOrder call) :
    ∃ m', watch check m (s.handle call).2 = some m' ∧ Related (s.handle call).1 m' := by
  rcases h with h | h
  · obtain ⟨m', hwatch, h'⟩ := handle_running h hin
    exact ⟨m', hwatch, .inl h'⟩
  · rw [(handle_ended h).1 hin]
    exact ⟨m, rfl, .inr h⟩

theorem handle_out_of_order {call : ResponsesCall} (h : Related s m) (hin : ¬ s.InOrder call) :
    watch check m (s.handle call).2 = none := by
  rcases h with h | h
  · exact handle_rejected h hin
  · exact watch_closed h.closed ((handle_ended h).2 hin)

/-! ### Payloads -/

/-- Every item that has been added is done. -/
def NoOpenItem (s : OpenAIToResponsesSseStream) : Prop := ∀ e ∈ s.entries, e.2 = .done

/-- The payloads that keep to the protocol in a state. -/
def PayloadInOrder (serde : ResponsesSerde) (s : OpenAIToResponsesSseStream) (payload : Text) : Prop :=
  if payload = "[DONE]".toList then True
  else
    match (serde.errorProbe payload).filter (·.isError) with
    | some _ => s.hasCompleted = false ∧ s.NoOpenItem
    | none =>
      match serde.probe payload with
      | none => True
      | some probe =>
        (s.hasCompleted = true → s.hasStarted = true) ∧
          AllSteps handle InOrder (s.readMetadata probe).ensureStarted.1 probe.calls

/-- The response is over, but an item has been left open. -/
def Doomed (m : ResponseLog) : Prop := m.phase = .closed ∧ ∃ index text, m.item index = .open text

theorem doomed_check (m : ResponseLog) (e : ResponsesEvent) (m' : ResponseLog) (hm : Doomed m)
    (h : m.check e = some m') : Doomed m' := by
  simp [ResponseLog.check, hm.1] at h

theorem ensureStarted_running (h : Running s m) :
    watch check m s.ensureStarted.2 = some m ∧ Running s.ensureStarted.1 m := by
  cases hstarted : s.hasStarted with
  | true => simpa [ensureStarted, hstarted] using h
  | false =>
    simp only [ensureStarted, hstarted]
    refine ⟨?_, h.completed, h.tracks, h.reasoning, h.text⟩
    simp [h.tracks.check_eq, ResponseLog.checkRunning]

theorem entry_eq_done_or_open {e : Nat × ItemState} (he : e ∈ s.entries) : e.2 = .done ∨ ∃ text, e.2 = .open text := by
  have hstate : ∀ (done : Bool) (text : Text), itemState done text = .done ∨ ∃ text', itemState done text = .open text' := by
    intro done text
    cases done with
    | true => exact .inl rfl
    | false => exact .inr ⟨text, rfl⟩
  simp only [entries, List.mem_append, ItemSlot.entry, List.mem_map] at he
  rcases he with (⟨_, _, rfl⟩ | ⟨_, _, rfl⟩) | ⟨_, _, rfl⟩ <;> exact hstate _ _

theorem item_ne_open (h : Running s m) (hdone : s.NoOpenItem) (index : Nat) (text : Text) :
    m.item index ≠ .open text := by
  intro hopen
  by_cases hmem : index ∈ s.entries.map Prod.fst
  · obtain ⟨e, he, rfl⟩ := List.mem_map.mp hmem
    rw [h.tracks.item_eq e he, hdone e he] at hopen
    cases hopen
  · rw [h.tracks.absent index hmem] at hopen
    cases hopen

theorem noOpenItem_closeAll (s : OpenAIToResponsesSseStream) : s.closeAll.1.NoOpenItem := by
  have hslot : ∀ (slot : ItemSlot) (header : ItemHeader), ∀ e ∈ (slot.close header).1.entry, e.2 = .done := by
    intro slot header
    obtain ⟨outputIndex, done, accumulated⟩ := slot
    cases outputIndex <;> cases done <;> simp [ItemSlot.close, ItemSlot.entry, itemState]
  have htool : ∀ tc : StreamToolCall, tc.close.1.entry.2 = .done := by
    intro tc
    cases hdone : tc.doneEmitted <;> simp [StreamToolCall.close, StreamToolCall.entry, itemState, hdone]
  intro e he
  simp only [entries, List.mem_append, closeAll, closeToolCalls, closeOutput, closeText, closeReasoning,
    List.mem_map] at he
  rcases he with (he | he) | ⟨_, ⟨tc, -, rfl⟩, rfl⟩
  · exact hslot _ _ e he
  · exact hslot _ _ e he
  · exact htool tc

theorem finish_eq (hcompleted : s.hasCompleted = false) :
    s.finish =
      let closed := s.ensureStarted.1.closeAll
      let empty := closed.1.addEmptyMessage
      ({ empty.1 with hasCompleted := true },
        s.ensureStarted.2 ++ closed.2 ++ empty.2 ++
          [.completed empty.1.responseId empty.1.model empty.1.outputItems empty.1.usage, .doneSentinel]) := by
  simp [finish, hcompleted, closeAll, closeOutput]

/-- A response without items gets an empty message, which is done at once. -/
theorem addEmptyMessage_spec (h : Running s m) (hdone : s.NoOpenItem) :
    ∃ m', watch check m s.addEmptyMessage.2 = some m' ∧ m'.phase = .running ∧
      s.addEmptyMessage.1.NoOpenItem ∧ ∀ index text, m'.item index ≠ .open text := by
  unfold addEmptyMessage
  split
  · rename_i hnone
    simp only [Bool.and_eq_true, Option.isNone_iff_eq_none, List.isEmpty_iff] at hnone
    obtain ⟨⟨hreasoning, htext⟩, htools⟩ := hnone
    have hentries : s.entries = [] := by simp [entries, ItemSlot.entry, hreasoning, htext, htools]
    have habsent : m.item 0 = .absent := h.tracks.absent 0 (by simp [hentries])
    refine ⟨(m.set 0 (.open [])).set 0 .done, ?_, h.tracks.running, ?_, ?_⟩
    · simp [ResponseLog.check, h.tracks.running, ResponseLog.checkRunning, ResponseLog.hasText, ResponseLog.set, habsent]
    · intro e he
      simp only [entries, ItemSlot.entry, hreasoning, htools, Option.toList_none, List.map_nil, List.nil_append,
        Option.toList_some, List.map_cons, List.append_nil, List.mem_singleton] at he
      rw [he]
      rfl
    · intro index text
      simp only [ResponseLog.set]
      split
      · simp
      · exact item_ne_open h hdone index text
  · exact ⟨m, rfl, h.tracks.running, hdone, item_ne_open h hdone⟩

theorem finish_running (h : Running s m) :
    ∃ m', watch check m s.finish.2 = some m' ∧ Ended s.finish.1 m' := by
  obtain ⟨hwatch₁, h₁⟩ := ensureStarted_running h
  obtain ⟨m₂, hwatch₂, h₂⟩ := closeAll_running h₁
  obtain ⟨m₃, hwatch₃, hphase, hdone, hitems⟩ := addEmptyMessage_spec h₂ (noOpenItem_closeAll _)
  rw [finish_eq h.completed]
  refine ⟨{ m₃ with phase := .closed }, ?_, rfl, rfl, hdone, hitems⟩
  simp [watch_append, hwatch₁, hwatch₂, hwatch₃, ResponseLog.check, hphase, ResponseLog.checkRunning]

theorem finish_related (h : Related s m) :
    ∃ m', watch check m s.finish.2 = some m' ∧ Ended s.finish.1 m' := by
  rcases h with h | h
  · exact finish_running h
  · refine ⟨m, ?_, ?_⟩ <;> simp [finish, h.completed, h]

theorem check_failedEvent (hrunning : m.phase = .running) (payload : Text) (e : ErrorProbe) :
    m.check (s.failedEvent payload e) = some { m with phase := .closed } := by
  unfold failedEvent
  split <;> simp [ResponseLog.check, hrunning, ResponseLog.checkRunning]

theorem related_readMetadata (probe : ResponsesSseProbe) (h : Related s m) : Related (s.readMetadata probe) m := by
  rcases h with h | h
  · exact .inl ⟨h.completed, h.tracks, h.reasoning, h.text⟩
  · exact .inr ⟨h.completed, h.closed, h.entries_done, h.item_done⟩

theorem ensureStarted_related (h : Related s m) (hstarted : s.hasCompleted = true → s.hasStarted = true) :
    watch check m s.ensureStarted.2 = some m ∧ Related s.ensureStarted.1 m := by
  rcases h with h | h
  · obtain ⟨hwatch, h'⟩ := ensureStarted_running h
    exact ⟨hwatch, .inl h'⟩
  · simp only [ensureStarted, hstarted h.completed]
    exact ⟨rfl, .inr h⟩

theorem processChunk_inOrder {probe : ResponsesSseProbe} (h : Related s m)
    (hstarted : s.hasCompleted = true → s.hasStarted = true)
    (hin : AllSteps handle InOrder (s.readMetadata probe).ensureStarted.1 probe.calls) :
    ∃ m', watch check m (s.processChunk probe).2 = some m' ∧ Related (s.processChunk probe).1 m' := by
  obtain ⟨hwatch₁, h₁⟩ := ensureStarted_related (related_readMetadata probe h) hstarted
  obtain ⟨m', hwatch₂, h₂⟩ := AllSteps.watch hin (fun _ _ _ => handle_inOrder) h₁
  rw [processChunk_eq]
  refine ⟨m', ?_, h₂⟩
  simp [watch_append, hwatch₁, hwatch₂]

theorem processChunk_out_of_order {probe : ResponsesSseProbe} (h : Related s m)
    (hin : ¬ ((s.hasCompleted = true → s.hasStarted = true) ∧
      AllSteps handle InOrder (s.readMetadata probe).ensureStarted.1 probe.calls)) :
    watch check m (s.processChunk probe).2 = none := by
  rw [processChunk_eq]
  by_cases hstarted : s.hasCompleted = true → s.hasStarted = true
  · obtain ⟨hwatch₁, h₁⟩ := ensureStarted_related (related_readMetadata probe h) hstarted
    by_contra hsome
    simp only [watch_append, hwatch₁, Option.bind_some] at hsome
    obtain ⟨m₂, hwatch₂⟩ := Option.ne_none_iff_exists'.mp hsome
    refine hin ⟨hstarted, allSteps_of_watch (fun _ => False) (fun _ _ _ h _ => h) (fun _ _ _ => handle_inOrder) ?_ h₁
      hwatch₂ not_false⟩
    intro s m call m' hrel hcall hwatch
    simp [handle_out_of_order hrel hcall] at hwatch
  · -- The response has failed before it was created, and the chunk creates it.
    simp only [Classical.not_imp, Bool.not_eq_true] at hstarted
    have hended : Ended s m := h.resolve_left fun hrun => by simp [hrun.completed] at hstarted
    have hnew : (s.readMetadata probe).hasStarted = false := hstarted.2
    refine watch_closed hended.closed ?_
    simp [ensureStarted, hnew]

theorem processData_inOrder {serde : ResponsesSerde} {payload : Text} (h : Related s m)
    (hin : PayloadInOrder serde s payload) :
    ∃ m', watch check m (s.processData serde payload).2 = some m' ∧
      Related (s.processData serde payload).1 m' := by
  unfold processData
  unfold PayloadInOrder at hin
  split
  · obtain ⟨m', hwatch, h'⟩ := finish_related h
    exact ⟨m', hwatch, .inr h'⟩
  · rename_i hpayload
    rw [if_neg hpayload] at hin
    unfold processPayload
    cases herror : (serde.errorProbe payload).filter (·.isError) with
    | some e =>
      simp only [herror] at hin ⊢
      have hrun : Running s m := h.resolve_right fun hend => by simp [hend.completed] at hin
      refine ⟨{ m with phase := .closed }, ?_, .inr ⟨rfl, rfl, hin.2, fun i text => item_ne_open hrun hin.2 i text⟩⟩
      simp [check_failedEvent hrun.tracks.running]
    | none =>
      simp only [herror] at hin ⊢
      cases hprobe : serde.probe payload with
      | none => exact ⟨m, rfl, h⟩
      | some probe =>
        simp only [hprobe] at hin
        exact processChunk_inOrder h hin.1 hin.2

theorem processData_out_of_order {serde : ResponsesSerde} {payload : Text} {m' : ResponseLog} (h : Related s m)
    (hin : ¬ PayloadInOrder serde s payload)
    (hwatch : watch check m (s.processData serde payload).2 = some m') : Doomed m' := by
  unfold processData at hwatch
  unfold PayloadInOrder at hin
  split at hwatch
  · rename_i hpayload
    exact absurd (by rw [if_pos hpayload]; trivial) hin
  · rename_i hpayload
    rw [if_neg hpayload] at hin
    unfold processPayload at hwatch
    cases herror : (serde.errorProbe payload).filter (·.isError) with
    | some e =>
      simp only [herror] at hin hwatch
      rcases h with h | h
      · rw [watch_cons, check_failedEvent h.tracks.running] at hwatch
        cases hwatch
        simp only [h.completed, true_and, NoOpenItem, not_forall] at hin
        obtain ⟨entry, hmem, hne⟩ := hin
        obtain ⟨text, hopen⟩ := (entry_eq_done_or_open hmem).resolve_left hne
        exact ⟨rfl, entry.1, text, (h.tracks.item_eq entry hmem).trans hopen⟩
      · rw [watch_closed h.closed (by simp)] at hwatch
        cases hwatch
    | none =>
      simp only [herror] at hin hwatch
      cases hprobe : serde.probe payload with
      | none => simp [hprobe] at hin
      | some probe =>
        simp only [hprobe] at hin hwatch
        simp [processChunk_out_of_order h hin] at hwatch

theorem related_new (responseId model : Text) : Related (new responseId model) .start :=
  .inl ⟨rfl, Tracks.start, ItemSlot.ok_empty, ItemSlot.ok_empty⟩

/-- The stream keeps to the protocol of the Responses API exactly if every payload does. -/
theorem events_wellFormedResponse_iff (serde : ResponsesSerde) (responseId model : Text) (payloads : List Text) :
    WellFormedResponse (events serde responseId model payloads) ↔
      AllSteps (processData serde) (PayloadInOrder serde) (new responseId model) payloads := by
  constructor
  · rintro ⟨m', hwatch, hdone⟩
    rw [events, watch_append] at hwatch
    obtain ⟨m₁, hwatch₁, hwatch₂⟩ := Option.bind_eq_some_iff.mp hwatch
    refine allSteps_of_watch Doomed doomed_check (fun _ _ _ => processData_inOrder)
      (fun _ _ _ _ => processData_out_of_order) (related_new responseId model) hwatch₁ fun hdoomed => ?_
    obtain ⟨-, index, text, hopen⟩ := doomed_watch doomed_check hdoomed hwatch₂
    exact hdone index text hopen
  · intro h
    obtain ⟨m₁, hwatch₁, h₁⟩ := AllSteps.watch h (fun _ _ _ => processData_inOrder) (related_new responseId model)
    obtain ⟨m₂, hwatch₂, h₂⟩ := finish_related h₁
    refine ⟨m₂, ?_, h₂.item_done⟩
    rw [events, watch_append, hwatch₁]
    exact hwatch₂

/-! ### A reasoning that goes on after a text -/

def reasoningPayload : Text := "\x7b\"choices\":[\x7b\"delta\":\x7b\"reasoning_content\":\"r\"\x7d\x7d]\x7d".toList

def textPayload : Text := "\x7b\"choices\":[\x7b\"delta\":\x7b\"content\":\"t\"\x7d\x7d]\x7d".toList

/-- What `serde_json` reads of the two payloads. -/
def interleavedSerde : ResponsesSerde where
  errorProbe _ := some ⟨none, none, none, none⟩
  probe payload :=
    if payload = reasoningPayload then some ⟨none, some [⟨some ⟨none, some ['r'], none⟩, none⟩], none⟩
    else if payload = textPayload then some ⟨none, some [⟨some ⟨some ['t'], none, none⟩, none⟩], none⟩
    else none

/-- The second reasoning is a delta for an item that is done. -/
theorem events_reasoning_again :
    ¬ ∀ (serde : ResponsesSerde) (payloads : List Text), WellFormedResponse (events serde ['i'] ['m'] payloads) := by
  intro h
  obtain ⟨m, hwatch, -⟩ := h interleavedSerde [reasoningPayload, textPayload, reasoningPayload]
  have hnone : (watch check .start
      (events interleavedSerde ['i'] ['m'] [reasoningPayload, textPayload, reasoningPayload])).isNone := by
    decide +kernel
  simp [hwatch] at hnone

end OpenAIToResponsesSseStream

end OpenProxy.Translation
