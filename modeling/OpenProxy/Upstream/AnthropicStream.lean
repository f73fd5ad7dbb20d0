import OpenProxy.Upstream.Anthropic

/-!
# Streams of an Anthropic response

Which sequences of events stream a response (`Streams`), and what a client puts together from the chunks that they are
translated to (`streamed`).  One lemma for each kind of event says what it adds, and `watch_block` what the events of a
block add.
-/

namespace OpenProxy.Upstream

open Json

/-! ### Well-formed events -/

/-- The document has the member once. -/
def Has (v : Json) (key : Text) (w : Json) : Prop :=
  ∃ fields, v = object fields ∧ (fields.filter fun field => field.1 == key) = [(key, w)]

/-- The document does not have the member. -/
def Lacks (v : Json) (key : Text) : Prop :=
  ∃ fields, v = object fields ∧ (fields.filter fun field => field.1 == key) = []

/-- The payload of an event with its type and its data. -/
def IsEvent (type : Text) (holds : Json → Prop) (payload : Text) : Prop :=
  ∃ t v, payload = type ++ '\n' :: t ∧ read t = some v ∧ holds v

/-- The block of `content_block_start`. -/
def IsStart (holds : Json → Prop) (payload : Text) : Prop :=
  IsEvent EventType.contentBlockStart (fun v => ∃ b, Has v Key.contentBlock b ∧ holds b) payload

/-- A delta of the given type has its piece in the given field, and no other field that is looked at. -/
def IsDelta (deltaType key piece : Text) (payload : Text) : Prop :=
  IsEvent EventType.contentBlockDelta (fun v => ∃ d, Has v Key.delta d ∧ Has d Key.type (string deltaType) ∧
    Has d key (string piece) ∧
      ∀ other ∈ [Key.text, Key.thinking, Key.partialJson, Key.estimatedTokens], other ≠ key → Lacks d other) payload

def IsStop (payload : Text) : Prop := IsEvent EventType.contentBlockStop (fun _ => True) payload

/-- A block of a response. -/
inductive Block
  | text (s : Text)
  | thinking (s : Text)
  | toolUse (id name : Text) (input : Json)

/-- The block is the value in the content of the response. -/
def Block.IsValue : Block → Json → Prop
  | text s, b => blockType b = some "text".toList ∧ b.get Key.text = some (string s)
  | thinking s, b => blockType b = some "thinking".toList ∧ b.get Key.thinking = some (string s)
  | toolUse id name input, b => blockType b = some "tool_use".toList ∧ b.get Key.id = some (string id) ∧
    b.get Key.name = some (string name) ∧ b.get Key.input = some input

/-- How the payload of a block is sent: cut into pieces, or with the start of the block. -/
inductive Sent
  | deltas (pieces : List Text)
  | inline

/-- The text is a document with the given value. -/
def IsJsonOf (t : Text) (value : Json) : Prop := (read t).map normal = some value.normal

/-- The events stream the block. -/
inductive StreamsBlock : Block → Sent → List Text → Prop
  | text {start stop : Text} {pieces deltas : List Text}
    (hstart : IsStart (fun b => Has b Key.type (string Key.text) ∧ Lacks b Key.id ∧ Lacks b Key.name ∧ Lacks b Key.input)
      start)
    (hdeltas : List.Forall₂ (IsDelta "text_delta".toList Key.text) pieces deltas) (hstop : IsStop stop) :
    StreamsBlock (.text pieces.flatten) (.deltas pieces) (start :: (deltas ++ [stop]))
  | thinking {start stop : Text} {pieces deltas : List Text}
    (hstart : IsStart
      (fun b => Has b Key.type (string Key.thinking) ∧ Lacks b Key.id ∧ Lacks b Key.name ∧ Lacks b Key.input) start)
    (hdeltas : List.Forall₂ (IsDelta "thinking_delta".toList Key.thinking) pieces deltas) (hstop : IsStop stop) :
    StreamsBlock (.thinking pieces.flatten) (.deltas pieces) (start :: (deltas ++ [stop]))
  | toolDeltas {start stop id name : Text} {input : Json} {pieces deltas : List Text}
    (hstart : IsStart (fun b => Has b Key.type (string "tool_use".toList) ∧ Has b Key.id (string id) ∧
      Has b Key.name (string name) ∧ (Lacks b Key.input ∨ Has b Key.input (object []))) start)
    (hdeltas : List.Forall₂ (IsDelta "input_json_delta".toList Key.partialJson) pieces deltas)
    (hinput : IsJsonOf pieces.flatten input) (hstop : IsStop stop) :
    StreamsBlock (.toolUse id name input) (.deltas pieces) (start :: (deltas ++ [stop]))
  | toolInline {start stop id name : Text} {input : Json}
    (hstart : IsStart (fun b => Has b Key.type (string "tool_use".toList) ∧ Has b Key.id (string id) ∧
      Has b Key.name (string name) ∧ ∃ w, Has b Key.input w ∧ 2 + w.depth ≤ 127 ∧ w.normal = input.normal) start)
    (hstop : IsStop stop) :
    StreamsBlock (.toolUse id name input) .inline [start, stop]

/-- `message_start` with the input usage of the response, and `output` output tokens so far. -/
def IsMessageStart (r : AnthropicResponse) (output : Nat) (payload : Text) : Prop :=
  IsEvent EventType.messageStart (fun v => v.depth ≤ 127 ∧
    ∃ u, (v.normal.get Key.message).bind (·.get Key.usage) = some u ∧
      tokens u Key.inputTokens = r.usage.inputTokens.toNat ∧
      tokens u Key.cacheReadInputTokens = (r.usage.cacheReadInputTokens.getD 0).toNat ∧
      tokens u Key.cacheCreationInputTokens = (r.usage.cacheCreationInputTokens.getD 0).toNat ∧
      tokens u Key.outputTokens = output) payload

/-- `message_delta` with the stop reason and the output tokens of the response. -/
def IsMessageDelta (r : AnthropicResponse) (payload : Text) : Prop :=
  IsEvent EventType.messageDelta (fun v => v.depth ≤ 127 ∧
    ((v.normal.get Key.delta).bind (·.get Key.stopReason)).bind asStr = r.stopReason ∧
    ∃ u, v.normal.get Key.usage = some u ∧ u.get Key.inputTokens = none ∧
      tokens u Key.outputTokens = r.usage.outputTokens.toNat) payload

/-- A block with how it is sent and its events. -/
structure Part where
  block : Block
  sent : Sent
  events : List Text

/-- The events stream the response; `output` is the number of output tokens that the first event has. -/
structure Streams (r : AnthropicResponse) (parts : List Part) (output : Nat) (events : List Text) : Prop where
  content : List.Forall₂ (fun (part : Part) b => part.block.IsValue b) parts r.content
  blocks : ∀ part ∈ parts, StreamsBlock part.block part.sent part.events
  counted : output ≤ r.usage.outputTokens.toNat
  sequence : ∃ start delta, IsMessageStart r output start ∧ IsMessageDelta r delta ∧
    events = start :: (parts.flatMap Part.events ++ [delta])

/-! ### What a client puts together -/

/-- The message that the chunks make, the calls with their indices. -/
structure Streamed where
  content : Text
  reasoning : Text
  toolCalls : List (Nat × OpenAIToolCall)
  usage : Option OpenAIUsage
  deriving DecidableEq, Repr

/-- An item of `tool_calls` starts a call or continues the one with its index. -/
def addToolCall (calls : List (Nat × OpenAIToolCall)) (d : ToolCallDelta) : List (Nat × OpenAIToolCall) :=
  let index := d.index.getD 0
  if calls.any (·.1 == index) then
    calls.map fun call =>
      if call.1 = index then (call.1, { call.2 with arguments := call.2.arguments ++ d.arguments }) else call
  else calls ++ [(index, ⟨d.id.getD [], d.name.getD [], d.arguments⟩)]

/-- The usage of the stream with the one of a chunk merged into it. -/
def addUsage : Option OpenAIUsage → Option OpenAIUsage → Option OpenAIUsage
  | some existing, some new => some (mergeUsage existing new)
  | none, new => new
  | existing, none => existing

@[simp] theorem addUsage_none (usage : Option OpenAIUsage) : addUsage usage none = usage := by
  cases usage <;> rfl

/-- The message with one more chunk. -/
def Streamed.add (m : Streamed) (chunk : UpstreamSseChunk) : Streamed :=
  let delta := (chunk.payload.map (·.delta)).getD {}
  { content := m.content ++ delta.content.getD []
    reasoning := m.reasoning ++ delta.reasoningContent.getD []
    toolCalls := delta.toolCalls.foldl addToolCall m.toolCalls
    usage := addUsage m.usage chunk.usage }

/-- One event; `none` after an error. -/
def advance (x : EventState × Streamed) (payload : Text) : Option (EventState × Streamed) :=
  match translateAnthropicSseEvent x.1 payload with
  | (.ok (some chunk), s) => some (s, x.2.add chunk)
  | (.ok none, s) => some (s, x.2)
  | (.error _, _) => none

/-- The message that a sequence of events makes. -/
def streamed (events : List Text) : Option Streamed :=
  (watch advance (.new, ⟨[], [], [], none⟩) events).map (·.2)

/-- A field that is left out when it is empty reads as it was. -/
theorem getD_unless_empty {α : Type} (l : List α) : (if l.isEmpty then none else some l).getD [] = l := by
  cases l <;> rfl

/-! ### Reading the events -/

theorem Has.memberOf {v w : Json} {key : Text} (h : Has v key w) (position count : Nat) (default : Bool) :
    structMember key position count default v = some (some w) := by
  obtain ⟨fields, rfl, hfields⟩ := h
  simp [structMember, OpenProxy.memberOf, hfields]

theorem Lacks.memberOf {v : Json} {key : Text} (h : Lacks v key) (position count : Nat) (default : Bool) :
    structMember key position count default v = some none := by
  obtain ⟨fields, rfl, hfields⟩ := h
  simp [structMember, OpenProxy.memberOf, hfields]

theorem Has.optionField {α : Type} {v w : Json} {key : Text} (h : Has v key w) (hw : w ≠ .null)
    (decode : Json → Option α) (position count : Nat) (default : Bool) :
    optionField decode key position count default v = (decode w).map some := by
  rw [Upstream.optionField, h.memberOf, Option.bind_some]
  cases w with
  | null => exact absurd rfl hw
  | bool b | number n | string s | array items | object fields => rfl

theorem Lacks.optionField {α : Type} {v : Json} {key : Text} (h : Lacks v key)
    (decode : Json → Option α) (position count : Nat) (default : Bool) :
    optionField decode key position count default v = some none := by
  rw [Upstream.optionField, h.memberOf, Option.bind_some]
  rfl

theorem Has.optionField_string {v : Json} {key s : Text} (h : Has v key (string s)) (position count : Nat)
    (default : Bool) : Upstream.optionField asStr key position count default v = some (some s) := by
  rw [h.optionField (by simp)]
  rfl

/-- Events of different types are translated by different functions. -/
theorem translate_event (s : EventState) (t : Text) :
    translateAnthropicSseEvent s (EventType.contentBlockDelta ++ '\n' :: t) = translateContentBlockDelta s t ∧
    translateAnthropicSseEvent s (EventType.contentBlockStart ++ '\n' :: t) = translateContentBlockStart s t ∧
    translateAnthropicSseEvent s (EventType.contentBlockStop ++ '\n' :: t) = (.ok none, { s with toolUseAcc := none }) ∧
    translateAnthropicSseEvent s (EventType.messageStart ++ '\n' :: t) =
      (translatePayload EventType.messageStart t, s) ∧
    translateAnthropicSseEvent s (EventType.messageDelta ++ '\n' :: t) =
      (translatePayload EventType.messageDelta t, s) := by
  have hlines : ∀ type ∈ [EventType.contentBlockDelta, EventType.contentBlockStart, EventType.contentBlockStop,
      EventType.messageStart, EventType.messageDelta], '\n' ∉ type := by decide
  refine ⟨?_, ?_, ?_, ?_, ?_⟩
  · rw [translateAnthropicSseEvent, splitOnce_append (hlines _ (by simp))]
    rfl
  · rw [translateAnthropicSseEvent, splitOnce_append (hlines _ (by simp))]
    rfl
  · rw [translateAnthropicSseEvent, splitOnce_append (hlines _ (by simp))]
    rfl
  · rw [translateAnthropicSseEvent, splitOnce_append (hlines _ (by simp))]
    rfl
  · rw [translateAnthropicSseEvent, splitOnce_append (hlines _ (by simp))]
    rfl

/-- What the probe reads of a delta. -/
theorem readDeltaProbe_of_isDelta {deltaType key piece payload : Text} (h : IsDelta deltaType key piece payload)
    (hkey : key ∈ [Key.text, Key.thinking, Key.partialJson]) :
    ∃ t, payload = EventType.contentBlockDelta ++ '\n' :: t ∧ ∃ probe : AnthropicDeltaProbe,
      readDeltaProbe t = some (some probe) ∧ probe.deltaType = some deltaType ∧ probe.estimatedTokens = none ∧
      probe.text = (if key = Key.text then some piece else none) ∧
      probe.thinking = (if key = Key.thinking then some piece else none) ∧
      probe.partialJson = (if key = Key.partialJson then some piece else none) := by
  obtain ⟨t, v, rfl, hread, d, hv, htype, hpiece, hlacks⟩ := h
  have hfield : ∀ other ∈ [Key.text, Key.thinking, Key.partialJson], ∀ position,
      optionField asStr other position 5 true d = some (if key = other then some piece else none) := by
    intro other hother position
    by_cases heq : key = other
    · subst heq
      rw [if_pos rfl, hpiece.optionField_string]
    · have hmem : other ∈ [Key.text, Key.thinking, Key.partialJson, Key.estimatedTokens] := by
        simp only [List.mem_cons, List.not_mem_nil, or_false] at hother ⊢
        tauto
      rw [if_neg heq, (hlacks other hmem (Ne.symm heq)).optionField]
  have hestimated : key ≠ Key.estimatedTokens := by
    intro heq
    subst heq
    exact absurd hkey (by decide)
  have hdecode : AnthropicDeltaProbe.decode d = some ⟨some deltaType, if key = Key.text then some piece else none,
      if key = Key.thinking then some piece else none, if key = Key.partialJson then some piece else none, none⟩ := by
    simp only [AnthropicDeltaProbe.decode, htype.optionField_string, hfield Key.text (by simp),
      hfield Key.thinking (by simp), hfield Key.partialJson (by simp),
      (hlacks Key.estimatedTokens (by simp) (Ne.symm hestimated)).optionField, Option.bind_eq_bind, Option.bind_some]
    rfl
  have hd : d ≠ .null := by
    obtain ⟨fields, rfl, -⟩ := htype
    simp
  have hprobe : readDeltaProbe t = some (AnthropicDeltaProbe.decode d) := by
    rw [readDeltaProbe, hread, Option.bind_some, hv.optionField hd, hdecode]
    rfl
  rw [hdecode] at hprobe
  exact ⟨t, rfl, _, hprobe, rfl, rfl, rfl, rfl, rfl⟩

/-! ### What an event adds -/

private theorem deltaTypes_ne : "text_delta".toList ≠ "input_json_delta".toList ∧
    "text_delta".toList ≠ "thinking_delta".toList ∧ "thinking_delta".toList ≠ "input_json_delta".toList := by decide

/-- A delta of text adds its piece to the content. -/
theorem advance_text {piece payload : Text} (h : IsDelta "text_delta".toList Key.text piece payload)
    (x : EventState × Streamed) :
    advance x payload = some (x.1, { x.2 with content := x.2.content ++ piece }) := by
  obtain ⟨t, rfl, probe, hprobe, htype, -, htext, -, -⟩ := readDeltaProbe_of_isDelta h (by simp)
  have htranslate : translateAnthropicSseEvent x.1 (EventType.contentBlockDelta ++ '\n' :: t) =
      (.ok (handleTextDelta probe), x.1) := by
    rw [(translate_event x.1 t).1, translateContentBlockDelta, hprobe]
    simp only [Option.getD_some, htype, if_neg deltaTypes_ne.1, if_neg deltaTypes_ne.2.1]
  rw [if_pos rfl] at htext
  rw [advance, htranslate]
  cases piece with
  | nil => simp [handleTextDelta, htext]
  | cons c piece => simp [handleTextDelta, htext, UpstreamSseChunk.ofDelta, Streamed.add]

/-- A delta of reasoning adds its piece to the reasoning. -/
theorem advance_thinking {piece payload : Text} (h : IsDelta "thinking_delta".toList Key.thinking piece payload)
    (x : EventState × Streamed) :
    advance x payload = some (x.1, { x.2 with reasoning := x.2.reasoning ++ piece }) := by
  obtain ⟨t, rfl, probe, hprobe, htype, hestimated, -, hthinking, -⟩ := readDeltaProbe_of_isDelta h (by simp)
  have htranslate : translateAnthropicSseEvent x.1 (EventType.contentBlockDelta ++ '\n' :: t) =
      (.ok (handleThinkingDelta probe), x.1) := by
    rw [(translate_event x.1 t).1, translateContentBlockDelta, hprobe]
    simp only [Option.getD_some, htype, if_neg deltaTypes_ne.2.2, if_true]
  rw [if_pos rfl] at hthinking
  rw [advance, htranslate]
  cases piece with
  | nil => simp [handleThinkingDelta, hthinking, hestimated]
  | cons c piece =>
    simp [handleThinkingDelta, hthinking, makeReasoningDelta, UpstreamSseChunk.ofDelta, Streamed.add]

/-- A fragment of the input is added to the call that the accumulator is for, as long as the cap is kept. -/
theorem advance_fragment {piece payload : Text} (h : IsDelta "input_json_delta".toList Key.partialJson piece payload)
    {s : EventState} {acc : AnthropicToolUseAccumulator} (hacc : s.toolUseAcc = some acc)
    (hcap : utf8Len acc.arguments + utf8Len piece ≤ maxToolArgumentsBytes) (m : Streamed) :
    advance (s, m) payload =
      some ({ s with toolUseAcc := some { acc with arguments := acc.arguments ++ piece } },
        { m with toolCalls := addToolCall m.toolCalls ⟨some acc.index, none, none, piece⟩ }) := by
  obtain ⟨t, rfl, probe, hprobe, htype, -, -, -, hfragment⟩ := readDeltaProbe_of_isDelta h (by simp)
  rw [if_pos rfl] at hfragment
  rw [advance, (translate_event s t).1, translateContentBlockDelta, hprobe]
  simp [htype, hacc, handleInputJsonDelta, hfragment, hcap, UpstreamSseChunk.ofDelta, Streamed.add]

theorem advance_stop {payload : Text} (h : IsStop payload) (s : EventState) (m : Streamed) :
    advance (s, m) payload = some ({ s with toolUseAcc := none }, m) := by
  obtain ⟨t, v, rfl, -, -⟩ := h
  rw [advance, (translate_event s t).2.2.1]

/-- What the probe reads of the start of a block. -/
theorem readBlockProbe_of_isStart {holds : Json → Prop} {payload : Text} (h : IsStart holds payload) :
    ∃ t b, payload = EventType.contentBlockStart ++ '\n' :: t ∧ holds b ∧
      ∀ type, Has b Key.type (string type) → readBlockProbe t = (AnthropicContentBlockProbe.decode b).map some := by
  obtain ⟨t, v, rfl, hread, b, hv, hholds⟩ := h
  refine ⟨t, b, rfl, hholds, ?_⟩
  intro type htype
  have hb : b ≠ .null := by
    obtain ⟨fields, rfl, -⟩ := htype
    simp
  rw [readBlockProbe, hread, Option.bind_some, hv.optionField hb]

/-- The start of a block that is no tool use adds nothing. -/
theorem advance_start {payload type : Text} (htype : type ≠ "tool_use".toList)
    (h : IsStart (fun b => Has b Key.type (string type) ∧ Lacks b Key.id ∧ Lacks b Key.name ∧ Lacks b Key.input) payload)
    (x : EventState × Streamed) : advance x payload = some x := by
  obtain ⟨t, b, rfl, ⟨hb, hid, hname, hinput⟩, hprobe⟩ := readBlockProbe_of_isStart h
  have hdecode : AnthropicContentBlockProbe.decode b = some ⟨some type, none, none, none⟩ := by
    simp only [AnthropicContentBlockProbe.decode, hb.optionField_string, hid.optionField, hname.optionField,
      hinput.optionField, Option.bind_eq_bind, Option.bind_some]
    rfl
  have htranslate : translateAnthropicSseEvent x.1 (EventType.contentBlockStart ++ '\n' :: t) = (.ok none, x.1) := by
    rw [(translate_event x.1 t).2.1, translateContentBlockStart, hprobe type hb, hdecode, Option.map_some]
    simp only [Option.getD_some, ne_eq, htype, not_false_eq_true, if_true]
  rw [advance, htranslate]

/-- The start of a tool use starts a call without arguments; the accumulator may have some. -/
theorem advance_tool {payload id name : Text} {input : Option Json}
    (h : IsStart (fun b => Has b Key.type (string "tool_use".toList) ∧ Has b Key.id (string id) ∧
      Has b Key.name (string name) ∧ optionField (decodeValue 2) Key.input 3 4 true b = some input) payload)
    (hid : utf8Len id ≤ maxToolIdBytes) (hname : utf8Len name ≤ maxToolNameBytes) (s : EventState) (m : Streamed) :
    advance (s, m) payload =
      some (⟨some ⟨s.toolCallIndexCounter, id, name, seededArguments input⟩, s.toolCallIndexCounter + 1⟩,
        { m with toolCalls := addToolCall m.toolCalls ⟨some s.toolCallIndexCounter, some id, some name, []⟩ }) := by
  obtain ⟨t, b, rfl, ⟨hb, hbid, hbname, hinput⟩, hprobe⟩ := readBlockProbe_of_isStart h
  have hdecode : AnthropicContentBlockProbe.decode b = some ⟨some "tool_use".toList, some id, some name, input⟩ := by
    simp only [AnthropicContentBlockProbe.decode, hb.optionField_string, hbid.optionField_string,
      hbname.optionField_string, hinput, Option.bind_eq_bind, Option.bind_some]
    rfl
  have hnew : AnthropicToolUseAccumulator.newWithBounds s.toolCallIndexCounter id name =
      .ok ⟨s.toolCallIndexCounter, id, name, []⟩ := by
    rw [AnthropicToolUseAccumulator.newWithBounds, if_neg (by omega), if_neg (by omega)]
  rw [advance, (translate_event s t).2.1, translateContentBlockStart, hprobe _ hb, hdecode, Option.map_some]
  simp [hnew, UpstreamSseChunk.ofDelta, Streamed.add]

/-! ### What a block adds -/

/-- Pieces that are added to a text one after the other. -/
theorem watch_pieces {isDelta : Text → Text → Prop} (put : Streamed → Text → Streamed)
    (hnil : ∀ m, put m [] = m) (happend : ∀ m s t, put (put m s) t = put m (s ++ t))
    (hadvance : ∀ piece payload x, isDelta piece payload → advance x payload = some (x.1, put x.2 piece))
    {pieces deltas : List Text} (h : List.Forall₂ isDelta pieces deltas) (x : EventState × Streamed) :
    watch advance x deltas = some (x.1, put x.2 pieces.flatten) := by
  induction h generalizing x with
  | nil => simp [hnil]
  | cons hdelta _ ih =>
    rw [watch_cons, hadvance _ _ _ hdelta, Option.bind_some, ih, happend, List.flatten_cons]

/-- A fragment goes to the call that was started last. -/
theorem addToolCall_last {calls : List (Nat × OpenAIToolCall)} {n : Nat} (h : ∀ call ∈ calls, call.1 < n)
    (call : OpenAIToolCall) (id name : Option Text) (piece : Text) :
    addToolCall (calls ++ [(n, call)]) ⟨some n, id, name, piece⟩ =
      calls ++ [(n, { call with arguments := call.arguments ++ piece })] := by
  have hothers : calls.map (fun c => if c.1 = n then (c.1, { c.2 with arguments := c.2.arguments ++ piece }) else c) =
      calls := by
    conv_rhs => rw [← List.map_id calls]
    apply List.map_congr_left
    intro c hc
    have := h c hc
    rw [if_neg (by omega)]
    rfl
  simp only [addToolCall, Option.getD_some]
  rw [if_pos (by simp), List.map_append, hothers]
  simp

/-- A call with an index that is not in use is a new one. -/
theorem addToolCall_new {calls : List (Nat × OpenAIToolCall)} {n : Nat} (h : ∀ call ∈ calls, call.1 < n)
    (id name arguments : Text) :
    addToolCall calls ⟨some n, some id, some name, arguments⟩ = calls ++ [(n, ⟨id, name, arguments⟩)] := by
  have hfresh : ¬ calls.any (fun call => call.1 == n) = true := by
    rw [List.any_eq_true]
    rintro ⟨call, hcall, heq⟩
    have := h call hcall
    rw [beq_iff_eq] at heq
    omega
  simp only [addToolCall, Option.getD_some]
  rw [if_neg hfresh]

/-- The fragments of an input, as long as their total is below the cap. -/
theorem watch_fragments {pieces deltas : List Text}
    (h : List.Forall₂ (IsDelta "input_json_delta".toList Key.partialJson) pieces deltas) {s : EventState}
    {acc : AnthropicToolUseAccumulator} (hacc : s.toolUseAcc = some acc)
    (hcap : utf8Len acc.arguments + utf8Len pieces.flatten ≤ maxToolArgumentsBytes) {m : Streamed}
    {calls : List (Nat × OpenAIToolCall)} {call : OpenAIToolCall} (hcalls : ∀ call ∈ calls, call.1 < acc.index)
    (hm : m.toolCalls = calls ++ [(acc.index, call)]) :
    watch advance (s, m) deltas =
      some ({ s with toolUseAcc := some { acc with arguments := acc.arguments ++ pieces.flatten } },
        { m with toolCalls := calls ++ [(acc.index, { call with arguments := call.arguments ++ pieces.flatten })] }) := by
  induction h generalizing s acc m call with
  | nil =>
    have hs : ({ s with toolUseAcc := some acc } : EventState) = s := by rw [← hacc]
    have hmm : ({ m with toolCalls := calls ++ [(acc.index, call)] } : Streamed) = m := by rw [← hm]
    simp [hs, hmm]
  | @cons piece payload pieces deltas hdelta _ ih =>
    rw [List.flatten_cons, utf8Len_append] at hcap
    have hstep := advance_fragment hdelta hacc (by omega) m
    have hcap' : utf8Len (acc.arguments ++ piece) + utf8Len pieces.flatten ≤ maxToolArgumentsBytes := by
      rw [utf8Len_append]
      omega
    rw [hm, addToolCall_last hcalls] at hstep
    have hrest := @ih { s with toolUseAcc := some { acc with arguments := acc.arguments ++ piece } }
      { acc with arguments := acc.arguments ++ piece } rfl hcap'
      { m with toolCalls := calls ++ [(acc.index, { call with arguments := call.arguments ++ piece })] }
      { call with arguments := call.arguments ++ piece } hcalls rfl
    rw [watch_cons, hstep, Option.bind_some, hrest]
    simp

/-- The events of a block are read one after the other. -/
theorem watch_envelope {x y z w : EventState × Streamed} {start stop : Text} {deltas : List Text}
    (hstart : advance x start = some y) (hdeltas : watch advance y deltas = some z) (hstop : advance z stop = some w) :
    watch advance x (start :: (deltas ++ [stop])) = some w := by
  rw [watch_cons, hstart, Option.bind_some, watch_append, hdeltas, Option.bind_some, watch_cons, hstop, Option.bind_some,
    watch_nil]

/-- A block is in bounds if its names and its input are. -/
def Part.InBounds (part : Part) : Prop :=
  match part.block, part.sent with
  | .toolUse id name _, .deltas pieces => utf8Len id ≤ maxToolIdBytes ∧ utf8Len name ≤ maxToolNameBytes ∧
    utf8Len pieces.flatten ≤ maxToolArgumentsBytes
  | .toolUse id name _, .inline => utf8Len id ≤ maxToolIdBytes ∧ utf8Len name ≤ maxToolNameBytes
  | _, _ => True

/-- What the content of a block adds to the content and to the reasoning. -/
def Block.content : Block → Text
  | text s => s
  | _ => []

def Block.reasoning : Block → Text
  | thinking s => s
  | _ => []

/-- The call that the events of a block make, if it is one. -/
def Part.Makes (part : Part) (n : Nat) (calls : List (Nat × OpenAIToolCall)) : Prop :=
  match part.block, part.sent with
  | .toolUse id name _, .deltas pieces => calls = [(n, ⟨id, name, pieces.flatten⟩)]
  | .toolUse id name _, .inline => ∃ arguments, calls = [(n, ⟨id, name, arguments⟩)]
  | _, _ => calls = []

/-- The number of calls of a block. -/
def Block.callCount : Block → Nat
  | toolUse _ _ _ => 1
  | _ => 0

/-- The events of a block add its content, its reasoning and its call, which gets the next index. -/
theorem watch_block {part : Part} (h : StreamsBlock part.block part.sent part.events) (hbounds : part.InBounds)
    (s : EventState) {m : Streamed} (hcalls : ∀ call ∈ m.toolCalls, call.1 < s.toolCallIndexCounter) :
    ∃ calls, part.Makes s.toolCallIndexCounter calls ∧
      watch advance (s, m) part.events = some (⟨none, s.toolCallIndexCounter + part.block.callCount⟩,
        { m with content := m.content ++ part.block.content, reasoning := m.reasoning ++ part.block.reasoning,
                 toolCalls := m.toolCalls ++ calls }) := by
  obtain ⟨block, sent, events⟩ := part
  cases h with
  | text hstart hdeltas hstop =>
    refine ⟨[], rfl, ?_⟩
    have hpieces := watch_pieces (fun m t => { m with content := m.content ++ t }) (by simp) (by simp)
      (fun _ _ x hdelta => advance_text hdelta x) hdeltas (s, m)
    rw [watch_envelope (advance_start (by decide) hstart _) hpieces (advance_stop hstop _ _)]
    simp [Block.callCount, Block.content, Block.reasoning]
  | thinking hstart hdeltas hstop =>
    refine ⟨[], rfl, ?_⟩
    have hpieces := watch_pieces (fun m t => { m with reasoning := m.reasoning ++ t }) (by simp) (by simp)
      (fun _ _ x hdelta => advance_thinking hdelta x) hdeltas (s, m)
    rw [watch_envelope (advance_start (by decide) hstart _) hpieces (advance_stop hstop _ _)]
    simp [Block.callCount, Block.content, Block.reasoning]
  | @toolDeltas start stop id name input pieces deltas hstart hdeltas hinput hstop =>
    obtain ⟨hid, hname, hcap⟩ := hbounds
    refine ⟨_, rfl, ?_⟩
    -- an input that comes in deltas is empty at the start
    obtain ⟨seed, hseed, hstart⟩ : ∃ seed, seededArguments seed = [] ∧
        IsStart (fun b => Has b Key.type (string "tool_use".toList) ∧ Has b Key.id (string id) ∧
          Has b Key.name (string name) ∧ optionField (decodeValue 2) Key.input 3 4 true b = some seed) start := by
      obtain ⟨t, v, rfl, hread, b, hv, htype, hbid, hbname, hlacks | hempty⟩ := hstart
      · exact ⟨none, rfl, t, v, rfl, hread, b, hv, htype, hbid, hbname, hlacks.optionField _ _ _ _⟩
      · refine ⟨some (object []), by decide, t, v, rfl, hread, b, hv, htype, hbid, hbname, ?_⟩
        rw [hempty.optionField (by simp)]
        rfl
    have htool := advance_tool hstart hid hname s m
    rw [hseed, addToolCall_new hcalls] at htool
    let acc : AnthropicToolUseAccumulator := ⟨s.toolCallIndexCounter, id, name, []⟩
    have hacc : (⟨some acc, s.toolCallIndexCounter + 1⟩ : EventState).toolUseAcc = some acc := rfl
    have hcap' : utf8Len acc.arguments + utf8Len pieces.flatten ≤ maxToolArgumentsBytes := by
      simpa [acc] using hcap
    have hstarted : ({ m with toolCalls := m.toolCalls ++ [(acc.index, ⟨id, name, []⟩)] } : Streamed).toolCalls =
      m.toolCalls ++ [(acc.index, ⟨id, name, []⟩)] := rfl
    have hfragments := watch_fragments hdeltas hacc hcap' hcalls hstarted
    rw [watch_envelope htool hfragments (advance_stop hstop _ _)]
    simp [acc, Block.callCount, Block.content, Block.reasoning]
  | @toolInline start stop id name input hstart hstop =>
    obtain ⟨hid, hname⟩ := hbounds
    refine ⟨_, ⟨[], rfl⟩, ?_⟩
    obtain ⟨seed, hstart⟩ : ∃ seed,
        IsStart (fun b => Has b Key.type (string "tool_use".toList) ∧ Has b Key.id (string id) ∧
          Has b Key.name (string name) ∧ optionField (decodeValue 2) Key.input 3 4 true b = some seed) start := by
      obtain ⟨t, v, rfl, hread, b, hv, htype, hbid, hbname, w, hw, hdepth, -⟩ := hstart
      have hdecode : decodeValue 2 w = some w.normal := if_pos hdepth
      obtain ⟨seed, hseed⟩ : ∃ seed, optionField (decodeValue 2) Key.input 3 4 true b = some seed := by
        by_cases hnull : w = .null
        · subst hnull
          exact ⟨none, by rw [optionField, hw.memberOf]; rfl⟩
        · exact ⟨some w.normal, by rw [hw.optionField hnull, hdecode, Option.map_some]⟩
      exact ⟨seed, t, v, rfl, hread, b, hv, htype, hbid, hbname, hseed⟩
    have htool := advance_tool hstart hid hname s m
    rw [addToolCall_new hcalls] at htool
    rw [watch_cons, htool, Option.bind_some, watch_cons, advance_stop hstop, Option.bind_some, watch_nil]
    simp [Block.callCount, Block.content, Block.reasoning]

end OpenProxy.Upstream
