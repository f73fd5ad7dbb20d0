import OpenProxy.Data.Machine
import OpenProxy.Text.Basic

/-!
# OpenAI chunks as an Anthropic event stream

`OpenAIToAnthropicSseStream` keeps a block index and the kind of the block that is open.  Each chunk is read by handlers
for its text, its tool calls and its `finish_reason`.  The events of a run obey the protocol of Anthropic if and only if
no text and no tool call follows a `finish_reason`, every fragment of arguments comes while a tool block is open, and the
block index does not overflow.
-/

namespace OpenProxy.Translation

/-! ### What is read of a chunk -/

structure OpenAIFunctionCallProbe where
  name : Option Text
  arguments : Option Text
deriving DecidableEq

structure OpenAIToolCallProbe where
  id : Option Text
  function : Option OpenAIFunctionCallProbe
deriving DecidableEq

structure OpenAIDeltaProbe where
  content : Option Text
  toolCalls : Option (List OpenAIToolCallProbe)
deriving DecidableEq

structure OpenAIChoiceProbe where
  delta : Option OpenAIDeltaProbe
  finishReason : Option Text
deriving DecidableEq

structure OpenAISseProbe where
  choices : Option (List OpenAIChoiceProbe)
deriving DecidableEq

/-! ### What is emitted -/

inductive ContentBlock
  | text
  | toolUse (id name : Text)
deriving DecidableEq

inductive BlockDelta
  | textDelta (text : Text)
  | inputJsonDelta (partialJson : Text)
deriving DecidableEq

inductive AnthropicEvent
  | messageStart (id model : Text)
  | contentBlockStart (index : UInt32) (contentBlock : ContentBlock)
  | contentBlockDelta (index : UInt32) (delta : BlockDelta)
  | contentBlockStop (index : UInt32)
  | messageDelta (stopReason : Text)
  | messageStop
deriving DecidableEq

/-! ### The stream -/

structure OpenAIToAnthropicSseStream where
  hasStarted : Bool
  hasFinished : Bool
  messageId : Text
  model : Text
  blockIndex : UInt32
  inTextBlock : Bool
  inToolBlock : Bool

namespace OpenAIToAnthropicSseStream

def new (messageId model : Text) : OpenAIToAnthropicSseStream where
  hasStarted := false
  hasFinished := false
  messageId := messageId
  model := model
  blockIndex := 0
  inTextBlock := false
  inToolBlock := false

variable (s : OpenAIToAnthropicSseStream)

def emitMessageStart : OpenAIToAnthropicSseStream × List AnthropicEvent :=
  if s.hasStarted then (s, [])
  else
    ({ s with hasStarted := true, inTextBlock := true, blockIndex := 0 },
      [.messageStart s.messageId s.model, .contentBlockStart 0 .text])

/-- The first part of `handle_content_delta`: an open tool block is closed. -/
def leaveToolBlock : OpenAIToAnthropicSseStream × List AnthropicEvent :=
  if s.inToolBlock then
    ({ s with inToolBlock := false, blockIndex := s.blockIndex + 1 }, [.contentBlockStop s.blockIndex])
  else (s, [])

/-- The second part of `handle_content_delta`: a text block is opened if there is none. -/
def enterTextBlock : OpenAIToAnthropicSseStream × List AnthropicEvent :=
  if s.inTextBlock then (s, []) else ({ s with inTextBlock := true }, [.contentBlockStart s.blockIndex .text])

def handleContentDelta (content : Text) : OpenAIToAnthropicSseStream × List AnthropicEvent :=
  if content.isEmpty then (s, [])
  else
    let (s, stop) := s.leaveToolBlock
    let (s, start) := s.enterTextBlock
    (s, stop ++ start ++ [.contentBlockDelta s.blockIndex (.textDelta content)])

def transitionToolBlock (id name : Text) : OpenAIToAnthropicSseStream × List AnthropicEvent :=
  let (s, stop) := if s.inTextBlock || s.inToolBlock then
    ({ s with inTextBlock := false, blockIndex := s.blockIndex + 1 }, [AnthropicEvent.contentBlockStop s.blockIndex])
  else (s, [])
  ({ s with inToolBlock := true }, stop ++ [.contentBlockStart s.blockIndex (.toolUse id name)])

def appendToolCallArgumentsDelta (args : Text) : List AnthropicEvent :=
  [.contentBlockDelta s.blockIndex (.inputJsonDelta args)]

def handleToolCallItem (tc : OpenAIToolCallProbe) : OpenAIToAnthropicSseStream × List AnthropicEvent :=
  let (s, start) := match tc.id with
    | some id => s.transitionToolBlock id ((tc.function.bind (·.name)).getD [])
    | none => (s, [])
  let delta := match tc.function.bind (·.arguments) with
    | some args => if args.isEmpty then [] else s.appendToolCallArgumentsDelta args
    | none => []
  (s, start ++ delta)

def anthropicStop (finishReason : Text) : Text :=
  if finishReason = "length".toList then "max_tokens".toList
  else if finishReason = "tool_calls".toList ∨ finishReason = "function_call".toList then "tool_use".toList
  else if finishReason = "content_filter".toList then "stop_sequence".toList
  else "end_turn".toList

def handleFinishReason (finishReason : Text) : OpenAIToAnthropicSseStream × List AnthropicEvent :=
  if s.hasFinished then (s, [])
  else
    let stop := if s.inTextBlock || s.inToolBlock then [AnthropicEvent.contentBlockStop s.blockIndex] else []
    ({ s with hasFinished := true }, stop ++ [.messageDelta (anthropicStop finishReason), .messageStop])

/-- The loop over the tool calls of a delta. -/
def handleToolCalls (s : OpenAIToAnthropicSseStream) :
    List OpenAIToolCallProbe → OpenAIToAnthropicSseStream × List AnthropicEvent
  | [] => (s, [])
  | tc :: tcs =>
    let (s, events) := s.handleToolCallItem tc
    let (s, events') := s.handleToolCalls tcs
    (s, events ++ events')

def handleDelta (delta : OpenAIDeltaProbe) : OpenAIToAnthropicSseStream × List AnthropicEvent :=
  let (s, text) := match delta.content with
    | some content => s.handleContentDelta content
    | none => (s, [])
  let (s, tools) := match delta.toolCalls with
    | some toolCalls => s.handleToolCalls toolCalls
    | none => (s, [])
  (s, text ++ tools)

def processOpenaiProbe (v : OpenAISseProbe) : OpenAIToAnthropicSseStream × List AnthropicEvent :=
  let (s, start) := s.emitMessageStart
  match v.choices.bind (·.head?) with
  | none => (s, start)
  | some first =>
    let (s, delta) := match first.delta with
      | some delta => s.handleDelta delta
      | none => (s, [])
    let (s, finish) := match first.finishReason with
      | some finishReason => s.handleFinishReason finishReason
      | none => (s, [])
    (s, start ++ delta ++ finish)

end OpenAIToAnthropicSseStream

/-! ### A chunk as a sequence of calls of the handlers -/

inductive HandlerCall
  | content (content : Text)
  | toolCall (tc : OpenAIToolCallProbe)
  | finish (finishReason : Text)
deriving DecidableEq

/-- The fragment of arguments that a tool call carries. -/
def OpenAIToolCallProbe.fragment (tc : OpenAIToolCallProbe) : Text := (tc.function.bind (·.arguments)).getD []

def OpenAIDeltaProbe.calls (delta : OpenAIDeltaProbe) : List HandlerCall :=
  (delta.content.map HandlerCall.content).toList ++ (delta.toolCalls.getD []).map HandlerCall.toolCall

def OpenAIChoiceProbe.calls (choice : OpenAIChoiceProbe) : List HandlerCall :=
  (choice.delta.map OpenAIDeltaProbe.calls).getD [] ++ (choice.finishReason.map HandlerCall.finish).toList

/-- The handlers that a chunk calls after `emit_message_start`. -/
def OpenAISseProbe.calls (v : OpenAISseProbe) : List HandlerCall :=
  ((v.choices.bind (·.head?)).map OpenAIChoiceProbe.calls).getD []

namespace OpenAIToAnthropicSseStream

def handle (s : OpenAIToAnthropicSseStream) : HandlerCall → OpenAIToAnthropicSseStream × List AnthropicEvent
  | .content content => s.handleContentDelta content
  | .toolCall tc => s.handleToolCallItem tc
  | .finish finishReason => s.handleFinishReason finishReason

variable {s : OpenAIToAnthropicSseStream}

theorem handleToolCalls_eq (s : OpenAIToAnthropicSseStream) (tcs : List OpenAIToolCallProbe) :
    s.handleToolCalls tcs =
      (runState handle s (tcs.map .toolCall), emitted handle s (tcs.map .toolCall)) := by
  induction tcs generalizing s with
  | nil => rfl
  | cons tc tcs ih =>
    simp only [handleToolCalls, ih]
    rfl

theorem handleDelta_eq (s : OpenAIToAnthropicSseStream) (delta : OpenAIDeltaProbe) :
    s.handleDelta delta = (runState handle s delta.calls, emitted handle s delta.calls) := by
  obtain ⟨content, toolCalls⟩ := delta
  cases content <;> cases toolCalls <;>
    simp [handleDelta, OpenAIDeltaProbe.calls, handleToolCalls_eq, runState, handle]

theorem processOpenaiProbe_eq (s : OpenAIToAnthropicSseStream) (v : OpenAISseProbe) :
    s.processOpenaiProbe v =
      (runState handle s.emitMessageStart.1 v.calls, s.emitMessageStart.2 ++ emitted handle s.emitMessageStart.1 v.calls) := by
  unfold processOpenaiProbe OpenAISseProbe.calls
  cases v.choices.bind (·.head?) with
  | none => simp [runState]
  | some first =>
    obtain ⟨delta, finishReason⟩ := first
    cases delta <;> cases finishReason <;>
      simp [OpenAIChoiceProbe.calls, handleDelta_eq, emitted_append, runState_append, runState, handle]

end OpenAIToAnthropicSseStream

/-! ### The protocol -/

inductive BlockKind
  | text
  | toolUse
deriving DecidableEq

def ContentBlock.kind : ContentBlock → BlockKind
  | .text => .text
  | .toolUse _ _ => .toolUse

/-- The kind of block to which a delta belongs. -/
def BlockDelta.kind : BlockDelta → BlockKind
  | .textDelta _ => .text
  | .inputJsonDelta _ => .toolUse

/-- How far an Anthropic message has come.  Between two blocks, `next` is the index of the next one. -/
inductive MessagePhase
  | fresh
  | between (next : Nat)
  | inBlock (index : Nat) (kind : BlockKind)
  | ending
  | stopped
deriving DecidableEq

/-- The events that may come in each phase. -/
@[grind =] def MessagePhase.check : MessagePhase → AnthropicEvent → Option MessagePhase
  | .fresh, .messageStart _ _ => some (.between 0)
  | .between next, .contentBlockStart index block => if index.toNat = next then some (.inBlock next block.kind) else none
  | .inBlock i kind, .contentBlockDelta index delta =>
    if index.toNat = i ∧ delta.kind = kind then some (.inBlock i kind) else none
  | .inBlock i _, .contentBlockStop index => if index.toNat = i then some (.between (i + 1)) else none
  | .between _, .messageDelta _ => some .ending
  | .ending, .messageStop => some .stopped
  | _, _ => none

open MessagePhase (check)

/-- The events are the beginning of an Anthropic event stream: one `message_start`, then blocks one at a time with the
indices `0, 1, …`, deltas in the open block and of its kind, and nothing after `message_delta` and `message_stop`. -/
def WellFormed (events : List AnthropicEvent) : Prop := (watch check .fresh events).isSome

instance (events : List AnthropicEvent) : Decidable (WellFormed events) :=
  inferInstanceAs (Decidable (_ = true))

namespace OpenAIToAnthropicSseStream

/-- What the stream emits for a sequence of chunks. -/
def events (messageId model : Text) (chunks : List OpenAISseProbe) : List AnthropicEvent :=
  emitted processOpenaiProbe (new messageId model) chunks

/-- There is another index after that of the open block. -/
def HasNextIndex (s : OpenAIToAnthropicSseStream) : Prop := s.blockIndex.toNat + 1 < 2 ^ 32

/-- The calls that keep to the protocol in a state. -/
def InOrder (s : OpenAIToAnthropicSseStream) : HandlerCall → Prop
  | .content content => content ≠ [] → s.hasFinished = false ∧ (s.inToolBlock = true → s.HasNextIndex)
  | .toolCall tc =>
    (tc.id ≠ none → s.hasFinished = false ∧ s.HasNextIndex) ∧
      (tc.fragment ≠ [] → s.hasFinished = false ∧ (tc.id ≠ none ∨ s.inToolBlock = true))
  | .finish _ => True

/-- All calls of a chunk keep to the protocol. -/
def ChunkInOrder (s : OpenAIToAnthropicSseStream) (v : OpenAISseProbe) : Prop :=
  AllSteps handle InOrder s.emitMessageStart.1 v.calls

/-- The phase that the flags of the stream stand for once it has started. -/
inductive Running (s : OpenAIToAnthropicSseStream) : MessagePhase → Prop
  | text : s.hasStarted = true → s.hasFinished = false → s.inTextBlock = true → s.inToolBlock = false →
      Running s (.inBlock s.blockIndex.toNat .text)
  | tool : s.hasStarted = true → s.hasFinished = false → s.inTextBlock = false → s.inToolBlock = true →
      Running s (.inBlock s.blockIndex.toNat .toolUse)
  | stopped : s.hasStarted = true → s.hasFinished = true → s.inTextBlock = !s.inToolBlock → Running s .stopped

variable {s : OpenAIToAnthropicSseStream} {m : MessagePhase}

theorem toNat_succ_of_hasNextIndex (h : s.HasNextIndex) : (s.blockIndex + 1).toNat = s.blockIndex.toNat + 1 := by
  unfold HasNextIndex at h
  rw [UInt32.toNat_add]
  exact Nat.mod_eq_of_lt h

theorem toNat_succ_of_not_hasNextIndex (h : ¬ s.HasNextIndex) : (s.blockIndex + 1).toNat ≠ s.blockIndex.toNat + 1 := by
  unfold HasNextIndex at h
  intro heq
  have := (s.blockIndex + 1).toNat_lt
  omega

/-- Where the index overflows, the next block does not have the next index. -/
theorem check_overflow (block : ContentBlock) (h : ¬ s.HasNextIndex) :
    (MessagePhase.between (s.blockIndex.toNat + 1)).check (.contentBlockStart (s.blockIndex + 1) block) = none :=
  if_neg (toNat_succ_of_not_hasNextIndex h)

theorem check_stop (s : OpenAIToAnthropicSseStream) (kind : BlockKind) :
    (MessagePhase.inBlock s.blockIndex.toNat kind).check (.contentBlockStop s.blockIndex) =
      some (.between (s.blockIndex.toNat + 1)) :=
  if_pos rfl

theorem check_stopped (e : AnthropicEvent) : MessagePhase.stopped.check e = none := by
  cases e <;> rfl

theorem watch_stopped {events : List AnthropicEvent} (h : events ≠ []) :
    watch check .stopped events = none := by
  cases events with
  | nil => exact absurd rfl h
  | cons e es => simp [check_stopped]

/-! ### The handlers in each phase -/

theorem handleContentDelta_of_text {content : Text} (h : content ≠ []) (htext : s.inTextBlock = true)
    (htool : s.inToolBlock = false) :
    s.handleContentDelta content = (s, [.contentBlockDelta s.blockIndex (.textDelta content)]) := by
  simp [handleContentDelta, leaveToolBlock, enterTextBlock, h, htext, htool]

theorem handleContentDelta_of_tool {content : Text} (h : content ≠ []) (htext : s.inTextBlock = false)
    (htool : s.inToolBlock = true) :
    s.handleContentDelta content =
      ({ s with inToolBlock := false, inTextBlock := true, blockIndex := s.blockIndex + 1 },
        [.contentBlockStop s.blockIndex, .contentBlockStart (s.blockIndex + 1) .text,
          .contentBlockDelta (s.blockIndex + 1) (.textDelta content)]) := by
  simp [handleContentDelta, leaveToolBlock, enterTextBlock, h, htext, htool]

theorem transitionToolBlock_eq (id name : Text) (h : s.inTextBlock = !s.inToolBlock) :
    s.transitionToolBlock id name =
      ({ s with inTextBlock := false, inToolBlock := true, blockIndex := s.blockIndex + 1 },
        [.contentBlockStop s.blockIndex, .contentBlockStart (s.blockIndex + 1) (.toolUse id name)]) := by
  simp [transitionToolBlock, h]

theorem handleToolCallItem_eq (s : OpenAIToAnthropicSseStream) (tc : OpenAIToolCallProbe) :
    ∃ name, s.handleToolCallItem tc =
      let start := (tc.id.map fun id => s.transitionToolBlock id name).getD (s, [])
      (start.1, start.2 ++
        if tc.fragment = [] then [] else [.contentBlockDelta start.1.blockIndex (.inputJsonDelta tc.fragment)]) := by
  refine ⟨(tc.function.bind (·.name)).getD [], ?_⟩
  unfold handleToolCallItem OpenAIToolCallProbe.fragment appendToolCallArgumentsDelta
  cases tc.id <;> cases tc.function.bind (·.arguments) <;> simp

theorem Running.flags (h : Running s m) : s.hasStarted = true ∧ s.inTextBlock = !s.inToolBlock := by
  cases h with
  | text hstarted _ htext htool => simp [hstarted, htext, htool]
  | tool hstarted _ htext htool => simp [hstarted, htext, htool]
  | stopped hstarted _ hflags => exact ⟨hstarted, hflags⟩

/-- As long as the message is not over, a block is open. -/
theorem Running.inBlock (h : Running s m) (hfinished : s.hasFinished = false) :
    m = .inBlock s.blockIndex.toNat (if s.inToolBlock then .toolUse else .text) := by
  cases h with
  | text _ _ _ htool => simp [htool]
  | tool _ _ _ htool => simp [htool]
  | stopped _ hstopped _ => simp [hfinished] at hstopped

theorem Running.stopped_of_hasFinished (h : Running s m) (hfinished : s.hasFinished = true) : m = .stopped := by
  cases h with
  | text _ hrunning => simp [hfinished] at hrunning
  | tool _ hrunning => simp [hfinished] at hrunning
  | stopped => rfl

theorem handleContentDelta_inOrder {content : Text} (hrel : Running s m) (h : s.InOrder (.content content)) :
    ∃ m', watch check m (s.handleContentDelta content).2 = some m' ∧
      Running (s.handleContentDelta content).1 m' := by
  by_cases hempty : content = []
  · subst hempty
    exact ⟨m, rfl, hrel⟩
  obtain ⟨hfinished, hnext⟩ := h hempty
  cases hrel with
  | text hstarted _ htext htool =>
    rw [handleContentDelta_of_text hempty htext htool]
    refine ⟨_, ?_, .text hstarted hfinished htext htool⟩
    simp [check, BlockDelta.kind]
  | tool hstarted _ htext htool =>
    rw [handleContentDelta_of_tool hempty htext htool]
    refine ⟨_, ?_, .text hstarted hfinished rfl rfl⟩
    simp [check, BlockDelta.kind, ContentBlock.kind, toNat_succ_of_hasNextIndex (hnext htool)]
  | stopped _ hstopped _ => simp [hfinished] at hstopped

/-- A tool call with an id closes the open block and opens one of its own. -/
theorem watch_transition (id name : Text) (hrel : Running s m) (hfinished : s.hasFinished = false)
    (hnext : s.HasNextIndex) :
    watch check m (s.transitionToolBlock id name).2 =
        some (.inBlock (s.transitionToolBlock id name).1.blockIndex.toNat .toolUse) ∧
      Running (s.transitionToolBlock id name).1 (.inBlock (s.transitionToolBlock id name).1.blockIndex.toNat .toolUse) := by
  obtain ⟨hstarted, hflags⟩ := hrel.flags
  rw [hrel.inBlock hfinished, transitionToolBlock_eq id name hflags]
  refine ⟨?_, .tool hstarted hfinished rfl rfl⟩
  simp [check, ContentBlock.kind, toNat_succ_of_hasNextIndex hnext]

theorem watch_arguments (args : Text) (htool : s.inToolBlock = true) (hfinished : s.hasFinished = false)
    (hrel : Running s m) :
    watch check m [.contentBlockDelta s.blockIndex (.inputJsonDelta args)] = some m := by
  rw [hrel.inBlock hfinished]
  simp [check, BlockDelta.kind, htool]

theorem handleToolCallItem_inOrder {tc : OpenAIToolCallProbe} (hrel : Running s m) (h : s.InOrder (.toolCall tc)) :
    ∃ m', watch check m (s.handleToolCallItem tc).2 = some m' ∧
      Running (s.handleToolCallItem tc).1 m' := by
  obtain ⟨name, heq⟩ := handleToolCallItem_eq s tc
  obtain ⟨hid, hargs⟩ := h
  rw [heq]
  cases hcall : tc.id with
  | none =>
    refine ⟨m, ?_, hrel⟩
    by_cases hempty : tc.fragment = []
    · simp [hempty]
    · obtain ⟨hfinished, hopen⟩ := hargs hempty
      have htool : s.inToolBlock = true := hopen.resolve_left fun hsome => hsome hcall
      simpa [hempty] using watch_arguments tc.fragment htool hfinished hrel
  | some id =>
    obtain ⟨hfinished, hnext⟩ := hid (by simp [hcall])
    obtain ⟨hwatch, hrel'⟩ := watch_transition id name hrel hfinished hnext
    refine ⟨_, ?_, hrel'⟩
    simp only [Option.map_some, Option.getD_some, watch_append, hwatch, Option.bind_some]
    by_cases hempty : tc.fragment = []
    · simp [hempty]
    · simp only [hempty, ↓reduceIte]
      refine watch_arguments _ ?_ ?_ hrel' <;>
        simp [transitionToolBlock_eq id name hrel.flags.2, hfinished]

theorem handleFinishReason_accepted (finishReason : Text) (hrel : Running s m) :
    ∃ m', watch check m (s.handleFinishReason finishReason).2 = some m' ∧
      Running (s.handleFinishReason finishReason).1 m' := by
  obtain ⟨hstarted, hflags⟩ := hrel.flags
  cases hfinished : s.hasFinished with
  | true => exact ⟨m, by simp [handleFinishReason, hfinished], by simpa [handleFinishReason, hfinished] using hrel⟩
  | false =>
    rw [hrel.inBlock hfinished]
    simp only [handleFinishReason, hfinished]
    refine ⟨.stopped, ?_, .stopped hstarted rfl hflags⟩
    simp [check, hflags]

theorem handle_inOrder {call : HandlerCall} (hrel : Running s m) (h : s.InOrder call) :
    ∃ m', watch check m (s.handle call).2 = some m' ∧ Running (s.handle call).1 m' := by
  cases call with
  | content content => exact handleContentDelta_inOrder hrel h
  | toolCall tc => exact handleToolCallItem_inOrder hrel h
  | finish finishReason => exact handleFinishReason_accepted finishReason hrel

theorem handleContentDelta_out_of_order {content : Text} (hrel : Running s m) (h : ¬ s.InOrder (.content content)) :
    watch check m (s.handleContentDelta content).2 = none := by
  simp only [InOrder, Classical.not_imp, not_and] at h
  obtain ⟨hempty, hnext⟩ := h
  cases hfinished : s.hasFinished with
  | true =>
    rw [hrel.stopped_of_hasFinished hfinished]
    exact watch_stopped (by simp [handleContentDelta, hempty])
  | false =>
    obtain ⟨htool, hlast⟩ := hnext hfinished
    have htext : s.inTextBlock = false := by simpa [htool] using hrel.flags.2
    rw [hrel.inBlock hfinished, handleContentDelta_of_tool hempty htext htool]
    simp only [watch_cons, check_stop, Option.bind_some, check_overflow _ hlast, Option.bind_none]

theorem watch_transition_none (id name : Text) (hrel : Running s m)
    (h : s.hasFinished = false → ¬ s.HasNextIndex) :
    watch check m (s.transitionToolBlock id name).2 = none := by
  rw [transitionToolBlock_eq id name hrel.flags.2]
  cases hfinished : s.hasFinished with
  | true =>
    rw [hrel.stopped_of_hasFinished hfinished]
    exact watch_stopped (by simp)
  | false =>
    rw [hrel.inBlock hfinished]
    simp only [watch_cons, check_stop, Option.bind_some, check_overflow _ (h hfinished), Option.bind_none]

theorem watch_arguments_none (args : Text) (hrel : Running s m)
    (h : s.hasFinished = false → s.inToolBlock = false) :
    watch check m [.contentBlockDelta s.blockIndex (.inputJsonDelta args)] = none := by
  cases hfinished : s.hasFinished with
  | true =>
    rw [hrel.stopped_of_hasFinished hfinished]
    exact watch_stopped (by simp)
  | false =>
    rw [hrel.inBlock hfinished]
    simp [check, BlockDelta.kind, h hfinished]

theorem handleToolCallItem_out_of_order {tc : OpenAIToolCallProbe} (hrel : Running s m)
    (h : ¬ s.InOrder (.toolCall tc)) : watch check m (s.handleToolCallItem tc).2 = none := by
  obtain ⟨name, heq⟩ := handleToolCallItem_eq s tc
  rw [heq]
  cases hcall : tc.id with
  | none =>
    -- Without an id, only the fragment can be out of order.
    simp only [InOrder, hcall, ne_eq, not_true_eq_false, false_implies, true_and, false_or, Classical.not_imp,
      not_and, Bool.not_eq_true] at h
    obtain ⟨hempty, hopen⟩ := h
    simpa [hempty] using watch_arguments_none tc.fragment hrel hopen
  | some id =>
    have hlast : s.hasFinished = false → ¬ s.HasNextIndex := by
      intro hfinished hnext
      exact h ⟨fun _ => ⟨hfinished, hnext⟩, fun _ => ⟨hfinished, .inl (by simp [hcall])⟩⟩
    simp [watch_append, watch_transition_none id name hrel hlast]

theorem handle_out_of_order {call : HandlerCall} (hrel : Running s m) (h : ¬ s.InOrder call) :
    watch check m (s.handle call).2 = none := by
  cases call with
  | content content => exact handleContentDelta_out_of_order hrel h
  | toolCall tc => exact handleToolCallItem_out_of_order hrel h
  | finish finishReason => exact absurd trivial h

/-! ### Whole runs -/

/-- The phase of the message before or after it has started. -/
inductive Phase (s : OpenAIToAnthropicSseStream) : MessagePhase → Prop
  | fresh : s.hasStarted = false → s.hasFinished = false → s.inToolBlock = false → Phase s .fresh
  | running {m : MessagePhase} : Running s m → Phase s m

theorem emitMessageStart_spec (hrel : Phase s m) :
    ∃ m', watch check m s.emitMessageStart.2 = some m' ∧ Running s.emitMessageStart.1 m' := by
  cases hrel with
  | fresh hstarted hfinished htool =>
    simp only [emitMessageStart, hstarted]
    exact ⟨.inBlock 0 .text, rfl, .text rfl hfinished rfl htool⟩
  | running hrel =>
    simp only [emitMessageStart, hrel.flags.1]
    exact ⟨m, rfl, hrel⟩

theorem processOpenaiProbe_inOrder {v : OpenAISseProbe} (hrel : Phase s m) (h : s.ChunkInOrder v) :
    ∃ m', watch check m (s.processOpenaiProbe v).2 = some m' ∧ Phase (s.processOpenaiProbe v).1 m' := by
  obtain ⟨m₁, hwatch₁, hrel₁⟩ := emitMessageStart_spec hrel
  obtain ⟨m₂, hwatch₂, hrel₂⟩ := AllSteps.watch h (fun _ _ _ => handle_inOrder) hrel₁
  rw [processOpenaiProbe_eq]
  refine ⟨m₂, ?_, .running hrel₂⟩
  simpa [watch_append, hwatch₁] using hwatch₂

theorem processOpenaiProbe_out_of_order {v : OpenAISseProbe} (hrel : Phase s m) (h : ¬ s.ChunkInOrder v) :
    watch check m (s.processOpenaiProbe v).2 = none := by
  obtain ⟨m₁, hwatch₁, hrel₁⟩ := emitMessageStart_spec hrel
  rw [processOpenaiProbe_eq]
  simp only [watch_append, hwatch₁, Option.bind_some]
  by_contra hsome
  obtain ⟨m₂, hwatch₂⟩ := Option.ne_none_iff_exists'.mp hsome
  refine h (allSteps_of_watch (fun _ => False) (fun _ _ _ h _ => h) (fun _ _ _ => handle_inOrder) ?_ hrel₁ hwatch₂ not_false)
  intro s m call m' hrel hcall hwatch
  simp [handle_out_of_order hrel hcall] at hwatch

theorem phase_new (messageId model : Text) : Phase (new messageId model) .fresh := .fresh rfl rfl rfl

/-- The stream keeps to the protocol of Anthropic exactly if every call of a handler does. -/
theorem events_wellFormed_iff (messageId model : Text) (chunks : List OpenAISseProbe) :
    WellFormed (events messageId model chunks) ↔
      AllSteps processOpenaiProbe ChunkInOrder (new messageId model) chunks := by
  constructor
  · intro h
    obtain ⟨m', hwatch⟩ := Option.isSome_iff_exists.mp h
    refine allSteps_of_watch (fun _ => False) (fun _ _ _ h _ => h) (fun _ _ _ => processOpenaiProbe_inOrder) ?_
      (phase_new messageId model) hwatch not_false
    intro s m v m' hrel hv hwatch
    simp [processOpenaiProbe_out_of_order hrel hv] at hwatch
  · intro h
    obtain ⟨m', hwatch, -⟩ := AllSteps.watch h (fun _ _ _ => processOpenaiProbe_inOrder) (phase_new messageId model)
    exact Option.isSome_iff_exists.mpr ⟨m', hwatch⟩

/-- A chunk with a text, as it may also come after the chunk with the `finish_reason`. -/
def textChunk (content : Text) (finishReason : Option Text) : OpenAISseProbe :=
  ⟨some [⟨some ⟨some content, none⟩, finishReason⟩]⟩

/-- A text after the `finish_reason` is emitted after `message_stop`. -/
theorem events_after_finish :
    ¬ ∀ chunks, WellFormed (events "msg_1".toList "m".toList chunks) := by
  intro h
  exact absurd (h [textChunk "a".toList (some "stop".toList), textChunk "b".toList none]) (by decide)

end OpenAIToAnthropicSseStream

end OpenProxy.Translation
