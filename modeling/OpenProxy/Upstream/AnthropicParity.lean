import OpenProxy.Upstream.AnthropicStream

/-!
# Streaming and unary translation agree

A client that puts together what a stream of events is translated to has the content, the reasoning, the calls, the
prompt tokens and the completion tokens of the translated response (`stream_agrees`).  The total is the one that the
first event had: the last event does not repeat the input tokens, and `mergeUsage` keeps a total that is known.
-/

namespace OpenProxy.Upstream

open Json

/-! ### The blocks of the response -/

theorem Block.IsValue.contentOfBlock {block : Block} {b : Json} (h : block.IsValue b) :
    contentOfBlock b = block.content := by
  unfold Upstream.contentOfBlock
  cases block with
  | text s =>
    obtain ⟨htype, htext⟩ := h
    rw [if_pos htype]
    simp only [textOfBlock, htext, Option.some_or, Option.bind_some, asStr, Option.getD_some, Block.content]
  | thinking s =>
    rw [h.1, if_neg (by decide)]
    rfl
  | toolUse id name input =>
    rw [h.1, if_neg (by decide)]
    rfl

theorem Block.IsValue.thinkingOfBlock {block : Block} {b : Json} (h : block.IsValue b) :
    thinkingOfBlock b = block.reasoning := by
  unfold Upstream.thinkingOfBlock
  cases block with
  | text s =>
    rw [h.1, if_neg (by decide)]
    rfl
  | thinking s =>
    obtain ⟨htype, hthinking⟩ := h
    rw [if_pos (Or.inl htype)]
    simp only [reasoningOfBlock, hthinking, Option.some_or, Option.bind_some, asStr, Option.getD_some, Block.reasoning]
  | toolUse id name input =>
    rw [h.1, if_neg (by decide)]
    rfl

/-- The call of a block. -/
def Block.call : Block → Option OpenAIToolCall
  | toolUse id name input => some ⟨id, name, write input⟩
  | _ => none

theorem Block.IsValue.toolCallOfBlock {block : Block} {b : Json} (h : block.IsValue b) :
    toolCallOfBlock b = block.call := by
  unfold Upstream.toolCallOfBlock
  cases block with
  | text s =>
    rw [h.1, if_neg (by decide)]
    rfl
  | thinking s =>
    rw [h.1, if_neg (by decide)]
    rfl
  | toolUse id name input =>
    obtain ⟨htype, hid, hname, hinput⟩ := h
    rw [if_pos htype]
    simp [hid, hname, hinput, asStr, Block.call]

/-- The response block by block. -/
theorem response_eq {parts : List Part} {content : List Json}
    (h : List.Forall₂ (fun (part : Part) b => part.block.IsValue b) parts content) :
    content.flatMap contentOfBlock = parts.flatMap (·.block.content) ∧
      content.flatMap thinkingOfBlock = parts.flatMap (·.block.reasoning) ∧
      content.filterMap toolCallOfBlock = parts.filterMap (·.block.call) := by
  induction h with
  | nil => exact ⟨rfl, rfl, rfl⟩
  | cons hb _ ih =>
    obtain ⟨hcontent, hreasoning, hcalls⟩ := ih
    refine ⟨?_, ?_, ?_⟩
    · rw [List.flatMap_cons, List.flatMap_cons, hb.contentOfBlock, hcontent]
    · rw [List.flatMap_cons, List.flatMap_cons, hb.thinkingOfBlock, hreasoning]
    · rw [List.filterMap_cons, List.filterMap_cons, hb.toolCallOfBlock, hcalls]

/-! ### Calls -/

/-- The same call: its arguments are the same JSON value. -/
structure SameCall (streamed unary : OpenAIToolCall) : Prop where
  id : streamed.id = unary.id
  name : streamed.name = unary.name
  arguments : (read streamed.arguments).map normal = (read unary.arguments).map normal

/-- The calls of the blocks, one after the other.  Nothing is said of arguments that came with the start of a block. -/
inductive CallsAgree : List Part → List OpenAIToolCall → List OpenAIToolCall → Prop
  | nil : CallsAgree [] [] []
  | other {part : Part} {parts : List Part} {calls unary : List OpenAIToolCall} (hpart : part.block.call = none)
    (hrest : CallsAgree parts calls unary) : CallsAgree (part :: parts) calls unary
  | deltas {part : Part} {parts : List Part} {pieces : List Text} {call call' : OpenAIToolCall}
    {calls unary : List OpenAIToolCall} (hsent : part.sent = .deltas pieces) (hcall : SameCall call call')
    (hrest : CallsAgree parts calls unary) : CallsAgree (part :: parts) (call :: calls) (call' :: unary)
  | inline {part : Part} {parts : List Part} {call call' : OpenAIToolCall} {calls unary : List OpenAIToolCall}
    (hsent : part.sent = .inline) (hid : call.id = call'.id) (hname : call.name = call'.name)
    (hrest : CallsAgree parts calls unary) : CallsAgree (part :: parts) (call :: calls) (call' :: unary)

/-- The calls that the events of a block make agree with the call of the block. -/
theorem CallsAgree.cons {part : Part} {n : Nat} {first : List (Nat × OpenAIToolCall)} {parts : List Part}
    {calls unary : List OpenAIToolCall} (h : StreamsBlock part.block part.sent part.events)
    (hmakes : part.Makes n first) (hrest : CallsAgree parts calls unary) :
    CallsAgree (part :: parts) (first.map (·.2) ++ calls) (part.block.call.toList ++ unary) := by
  obtain ⟨block, sent, events⟩ := part
  cases h with
  | text hstart hdeltas hstop =>
    rw [show first = [] from hmakes]
    exact CallsAgree.other rfl hrest
  | thinking hstart hdeltas hstop =>
    rw [show first = [] from hmakes]
    exact CallsAgree.other rfl hrest
  | @toolDeltas start stop id name input pieces deltas hstart hdeltas hinput hstop =>
    rw [show first = [(n, ⟨id, name, pieces.flatten⟩)] from hmakes]
    refine CallsAgree.deltas rfl ⟨rfl, rfl, ?_⟩ hrest
    show (read pieces.flatten).map normal = (read (write input)).map normal
    rw [read_write]
    exact hinput
  | @toolInline start stop id name input hstart hstop =>
    obtain ⟨arguments, hfirst⟩ := hmakes
    rw [hfirst]
    exact CallsAgree.inline rfl rfl rfl hrest

/-- A call gets the next index. -/
theorem Part.Makes.lt {part : Part} {n : Nat} {calls : List (Nat × OpenAIToolCall)} (hmakes : part.Makes n calls)
    (h : StreamsBlock part.block part.sent part.events) : ∀ call ∈ calls, call.1 < n + part.block.callCount := by
  intro call hcall
  obtain ⟨block, sent, events⟩ := part
  cases h with
  | text hstart hdeltas hstop =>
    rw [show calls = [] from hmakes] at hcall
    simp at hcall
  | thinking hstart hdeltas hstop =>
    rw [show calls = [] from hmakes] at hcall
    simp at hcall
  | @toolDeltas start stop id name input pieces deltas hstart hdeltas hinput hstop =>
    rw [show calls = [(n, ⟨id, name, pieces.flatten⟩)] from hmakes, List.mem_singleton] at hcall
    rw [hcall]
    exact Nat.lt_succ_self n
  | @toolInline start stop id name input hstart hstop =>
    obtain ⟨arguments, hcalls⟩ := hmakes
    rw [hcalls, List.mem_singleton] at hcall
    rw [hcall]
    exact Nat.lt_succ_self n

/-- The events of all blocks, from a state between two blocks. -/
theorem watch_parts {parts : List Part} (h : ∀ part ∈ parts, StreamsBlock part.block part.sent part.events)
    (hbounds : ∀ part ∈ parts, part.InBounds) (s : EventState) {m : Streamed}
    (hcalls : ∀ call ∈ m.toolCalls, call.1 < s.toolCallIndexCounter) :
    ∃ s' calls, CallsAgree parts (calls.map (·.2)) (parts.filterMap (·.block.call)) ∧
      watch advance (s, m) (parts.flatMap Part.events) = some (s',
        { m with content := m.content ++ parts.flatMap (·.block.content)
                 reasoning := m.reasoning ++ parts.flatMap (·.block.reasoning)
                 toolCalls := m.toolCalls ++ calls }) := by
  induction parts generalizing s m with
  | nil => exact ⟨s, [], CallsAgree.nil, by simp⟩
  | cons part parts ih =>
    obtain ⟨first, hmakes, hblock⟩ := watch_block (h part (by simp)) (hbounds part (by simp)) s hcalls
    have hindices : ∀ call ∈ m.toolCalls ++ first, call.1 < s.toolCallIndexCounter + part.block.callCount := by
      intro call hcall
      rw [List.mem_append] at hcall
      rcases hcall with hcall | hcall
      · have := hcalls call hcall
        omega
      · exact hmakes.lt (h part (by simp)) call hcall
    obtain ⟨s', rest, hagree, hrest⟩ := ih (fun part hpart => h part (by simp [hpart]))
      (fun part hpart => hbounds part (by simp [hpart])) ⟨none, s.toolCallIndexCounter + part.block.callCount⟩
      (m := { m with content := m.content ++ part.block.content, reasoning := m.reasoning ++ part.block.reasoning,
                     toolCalls := m.toolCalls ++ first }) hindices
    refine ⟨s', first ++ rest, ?_, ?_⟩
    · have hcons := CallsAgree.cons (h part (by simp)) hmakes hagree
      rw [List.map_append]
      have hunary : (part :: parts).filterMap (·.block.call) =
          part.block.call.toList ++ parts.filterMap (·.block.call) := by
        rw [List.filterMap_cons]
        cases part.block.call <;> rfl
      rw [hunary]
      exact hcons
    · rw [List.flatMap_cons, watch_append, hblock, Option.bind_some, hrest]
      simp

/-! ### Token counts -/

theorem clamp32_eq_min (n : Nat) : clamp32 n = min n u32Max := by
  unfold clamp32
  by_cases h : n ≤ u32Max
  · rw [if_pos h, Nat.min_eq_left h]
  · rw [if_neg h, Nat.min_eq_right (by omega)]

section

variable {a b c : Nat} (ha : a < 2 ^ 32) (hb : b < 2 ^ 32) (hc : c < 2 ^ 32)

include ha hb hc

/-- The sums of the two translations saturate alike. -/
theorem clamp32_prompt : clamp32 (satAdd64 (satAdd64 a b) c) = satAdd32 (satAdd32 a b) c := by
  rw [clamp32_eq_min]
  simp only [satAdd64, satAdd32, u32Max, u64Max]
  omega

theorem clamp32_total {n : Nat} (hn : n < 2 ^ 32) :
    clamp32 (satAdd64 (satAdd64 (satAdd64 a b) c) n) = satAdd32 (satAdd32 (satAdd32 a b) c) n := by
  rw [clamp32_eq_min]
  simp only [satAdd64, satAdd32, u32Max, u64Max]
  omega

end

/-- The prompt tokens of a response. -/
def AnthropicUsage.promptTokens (usage : AnthropicUsage) : Nat :=
  satAdd32 (satAdd32 usage.inputTokens.toNat (usage.cacheReadInputTokens.getD 0).toNat)
    (usage.cacheCreationInputTokens.getD 0).toNat

/-- The first event has the prompt tokens, and starts the message. -/
theorem advance_messageStart {r : AnthropicResponse} {output : Nat} {payload : Text}
    (h : IsMessageStart r output payload) (houtput : output < 2 ^ 32) :
    ∃ details, advance (.new, ⟨[], [], [], none⟩) payload = some (.new, ⟨[], [], [],
      some ⟨r.usage.promptTokens, output, satAdd32 r.usage.promptTokens output, details⟩⟩) := by
  obtain ⟨t, v, rfl, hread, hdepth, u, hu, hinput, hcacheRead, hcacheCreation, hout⟩ := h
  have hfrom : fromStr t = some v.normal := by simp [fromStr, hread, hdepth]
  have hclamp : clamp32 output = output := by
    rw [clamp32_eq_min, u32Max]
    omega
  have hnames : EventType.messageStart ≠ EventType.ping ∧ EventType.messageStart ≠ EventType.messageStop := by decide
  have htranslate : translatePayload EventType.messageStart t = .ok (some (buildMessageStartChunk v.normal)) := by
    simp [translatePayload, hnames, hfrom]
  have hinput' := r.usage.inputTokens.toNat_lt
  have hread' := (r.usage.cacheReadInputTokens.getD 0).toNat_lt
  have hcreation' := (r.usage.cacheCreationInputTokens.getD 0).toNat_lt
  have husage : usageOf u = ⟨r.usage.promptTokens, output, satAdd32 r.usage.promptTokens output,
      some (tryU32 (r.usage.cacheReadInputTokens.getD 0).toNat)⟩ := by
    simp only [usageOf, hinput, hcacheRead, hcacheCreation, hout, hclamp, AnthropicUsage.promptTokens,
      clamp32_prompt hinput' hread' hcreation', clamp32_total hinput' hread' hcreation' houtput]
  refine ⟨some (tryU32 (r.usage.cacheReadInputTokens.getD 0).toNat), ?_⟩
  rw [advance, (translate_event .new t).2.2.2.1, htranslate]
  simp [buildMessageStartChunk, hu, husage, UpstreamSseChunk.ofDelta, Streamed.add, addUsage]

/-- The last event has the completion tokens; the total of the first one is kept. -/
theorem advance_messageDelta {r : AnthropicResponse} {payload : Text} (h : IsMessageDelta r payload) {s : EventState}
    {m : Streamed} {prompt output : Nat} {details : Option (Option Nat)}
    (hm : m.usage = some ⟨prompt, output, satAdd32 prompt output, details⟩)
    (houtput : output ≤ r.usage.outputTokens.toNat) :
    advance (s, m) payload = some (s, { m with
      usage := some ⟨prompt, r.usage.outputTokens.toNat, satAdd32 prompt output, details⟩ }) := by
  obtain ⟨t, v, rfl, hread, hdepth, -, u, hu, hinput, hout⟩ := h
  have hfrom : fromStr t = some v.normal := by simp [fromStr, hread, hdepth]
  have hnames : EventType.messageDelta ≠ EventType.ping ∧ EventType.messageDelta ≠ EventType.messageStop ∧
      EventType.messageDelta ≠ EventType.messageStart ∧ EventType.messageDelta ≠ EventType.contentBlockDelta := by decide
  have htranslate : translatePayload EventType.messageDelta t = .ok (some (translateMessageDelta v.normal)) := by
    simp [translatePayload, hnames, hfrom]
  have hlt := r.usage.outputTokens.toNat_lt
  have hclamp : clamp32 r.usage.outputTokens.toNat = r.usage.outputTokens.toNat := by
    rw [clamp32_eq_min, u32Max]
    omega
  have husage : messageDeltaUsage v.normal =
      if 0 < r.usage.outputTokens.toNat then some ⟨0, r.usage.outputTokens.toNat, 0, none⟩ else none := by
    simp [messageDeltaUsage, hu, hinput, hout, hclamp]
  have hadd : addUsage m.usage (messageDeltaUsage v.normal) =
      some ⟨prompt, r.usage.outputTokens.toNat, satAdd32 prompt output, details⟩ := by
    rw [hm, husage]
    split
    · have hmax : max output r.usage.outputTokens.toNat = r.usage.outputTokens.toNat := by omega
      have htotal : (if 0 < satAdd32 prompt output then satAdd32 prompt output else satAdd32 prompt output) =
          satAdd32 prompt output := by split <;> rfl
      simp only [addUsage, mergeUsage, hmax, Nat.lt_irrefl, if_false, htotal]
      cases details <;> rfl
    · rename_i hzero
      have hboth : output = r.usage.outputTokens.toNat := by omega
      rw [addUsage_none, hboth]
  rw [advance, (translate_event s t).2.2.2.2, htranslate]
  simp only [Streamed.add, translateMessageDelta, hadd, Option.map_some, Option.getD_some, Option.getD_none,
    List.append_nil, List.foldl_nil]

/-! ### The two translations -/

/-- For every stream of a response whose names and inputs are in bounds, the content, the reasoning, the calls, the
prompt tokens and the completion tokens are those of the response; the total is that of the first event. -/
theorem stream_agrees {r : AnthropicResponse} {parts : List Part} {output : Nat} {events : List Text}
    (h : Streams r parts output events) (hbounds : ∀ part ∈ parts, part.InBounds) :
    ∃ out usage, streamed events = some out ∧ out.content = (anthropicToOpenai r).content.getD [] ∧
      out.reasoning = (anthropicToOpenai r).reasoning.getD [] ∧
      CallsAgree parts (out.toolCalls.map (·.2)) ((anthropicToOpenai r).toolCalls.getD []) ∧
      out.usage = some usage ∧ usage.promptTokens = (anthropicToOpenai r).usage.promptTokens ∧
      usage.completionTokens = (anthropicToOpenai r).usage.completionTokens ∧
      usage.totalTokens = satAdd32 (anthropicToOpenai r).usage.promptTokens output := by
  obtain ⟨start, delta, hstart, hdelta, rfl⟩ := h.sequence
  have hlt := r.usage.outputTokens.toNat_lt
  have hcounted := h.counted
  obtain ⟨details, hfirst⟩ := advance_messageStart hstart (by omega)
  obtain ⟨s, calls, hagree, hparts⟩ := watch_parts h.blocks hbounds .new
    (m := ⟨[], [], [], some ⟨r.usage.promptTokens, output, satAdd32 r.usage.promptTokens output, details⟩⟩) (by simp)
  have hlast := advance_messageDelta hdelta (s := s) (m := ⟨parts.flatMap (·.block.content),
    parts.flatMap (·.block.reasoning), calls,
    some ⟨r.usage.promptTokens, output, satAdd32 r.usage.promptTokens output, details⟩⟩) rfl hcounted
  have hstreamed : streamed (start :: (parts.flatMap Part.events ++ [delta])) =
      some ⟨parts.flatMap (·.block.content), parts.flatMap (·.block.reasoning), calls,
        some ⟨r.usage.promptTokens, r.usage.outputTokens.toNat, satAdd32 r.usage.promptTokens output, details⟩⟩ := by
    simp only [List.nil_append] at hparts
    rw [streamed, watch_cons, hfirst, Option.bind_some, watch_append, hparts, Option.bind_some, watch_cons, hlast]
    rfl
  obtain ⟨hcontent, hreasoning, hcalls⟩ := response_eq h.content
  refine ⟨_, _, hstreamed, ?_, ?_, ?_, rfl, rfl, rfl, rfl⟩
  · show parts.flatMap (·.block.content) = _
    simp only [anthropicToOpenai, hcontent]
    split
    · rename_i hempty
      rw [Bool.and_eq_true, List.isEmpty_iff] at hempty
      exact hempty.1
    · rfl
  · show parts.flatMap (·.block.reasoning) = _
    simp only [anthropicToOpenai, hreasoning]
    split
    · rename_i hempty
      rw [List.isEmpty_iff] at hempty
      exact hempty
    · rfl
  · have hunary : (anthropicToOpenai r).toolCalls.getD [] = parts.filterMap (·.block.call) := by
      simp only [anthropicToOpenai, hcalls]
      split
      · rename_i hempty
        rw [List.isEmpty_iff] at hempty
        rw [hempty]
        rfl
      · rfl
    rw [hunary]
    exact hagree

/-- What the two translations would have to agree on, the total included. -/
structure Agrees (r : AnthropicResponse) (out : Streamed) : Prop where
  content : out.content = (anthropicToOpenai r).content.getD []
  reasoning : out.reasoning = (anthropicToOpenai r).reasoning.getD []
  calls : List.Forall₂ SameCall (out.toolCalls.map (·.2)) ((anthropicToOpenai r).toolCalls.getD [])
  promptTokens : out.usage.map (·.promptTokens) = some (anthropicToOpenai r).usage.promptTokens
  completionTokens : out.usage.map (·.completionTokens) = some (anthropicToOpenai r).usage.completionTokens
  totalTokens : out.usage.map (·.totalTokens) = some (anthropicToOpenai r).usage.totalTokens

/-! ### A stream with a text and a call -/

/-- The payload of an event. -/
def event (type : Text) (data : List (Text × Json)) : Text := type ++ '\n' :: write (object data)

theorem isEvent_event {type : Text} {holds : Json → Prop} {data : List (Text × Json)} (h : holds (object data)) :
    IsEvent type holds (event type data) := ⟨write (object data), object data, rfl, read_write _, h⟩

def callInput : Json := object [("a".toList, number (.ofNat 1))]

def callResponse : AnthropicResponse where
  id := "msg".toList
  content := [object [(Key.text, string "hi".toList), (Key.type, string "text".toList)],
    object [(Key.id, string "t".toList), (Key.input, callInput), (Key.name, string "f".toList),
      (Key.type, string "tool_use".toList)]]
  model := "m".toList
  stopReason := some "tool_use".toList
  usage := ⟨10, 5, none, none⟩

def startUsage : List (Text × Json) :=
  [(Key.inputTokens, number (.ofNat 10)), (Key.outputTokens, number (.ofNat 1))]

def textPart : Part where
  block := .text ["h".toList, "i".toList].flatten
  sent := .deltas ["h".toList, "i".toList]
  events := event EventType.contentBlockStart [(Key.contentBlock, object [(Key.type, string Key.text)])] ::
    ([event EventType.contentBlockDelta
        [(Key.delta, object [(Key.text, string "h".toList), (Key.type, string "text_delta".toList)])],
      event EventType.contentBlockDelta
        [(Key.delta, object [(Key.text, string "i".toList), (Key.type, string "text_delta".toList)])]] ++
      [event EventType.contentBlockStop []])

def callPart : Part where
  block := .toolUse "t".toList "f".toList callInput
  sent := .deltas [write callInput, []]
  events := event EventType.contentBlockStart [(Key.contentBlock, object [(Key.id, string "t".toList),
      (Key.input, object []), (Key.name, string "f".toList), (Key.type, string "tool_use".toList)])] ::
    ([event EventType.contentBlockDelta [(Key.delta,
        object [(Key.partialJson, string (write callInput)), (Key.type, string "input_json_delta".toList)])],
      event EventType.contentBlockDelta [(Key.delta,
        object [(Key.partialJson, string []), (Key.type, string "input_json_delta".toList)])]] ++
      [event EventType.contentBlockStop []])

def callEvents : List Text :=
  event EventType.messageStart [(Key.message, object [(Key.usage, object startUsage)])] ::
    ([textPart, callPart].flatMap Part.events ++
      [event EventType.messageDelta [(Key.delta, object [(Key.stopReason, string "tool_use".toList)]),
        (Key.usage, object [(Key.outputTokens, number (.ofNat 5))])]])

private theorem lacks_of_nil {fields : List (Text × Json)} {key : Text}
    (h : (fields.map (·.1)).all (· != key) = true) : Lacks (object fields) key := by
  refine ⟨fields, rfl, ?_⟩
  rw [List.filter_eq_nil_iff]
  intro field hfield heq
  rw [List.all_eq_true] at h
  have := h field.1 (List.mem_map_of_mem hfield)
  simp_all

theorem isDelta_event {key : Text} (hkey : key ∈ [Key.text, Key.partialJson]) (deltaType piece : Text) :
    IsDelta deltaType key piece (event EventType.contentBlockDelta
      [(Key.delta, object [(key, string piece), (Key.type, string deltaType)])]) := by
  have hother : ∀ key ∈ [Key.text, Key.partialJson], ∀ other ∈ [Key.text, Key.thinking, Key.partialJson,
      Key.estimatedTokens], other ≠ key → [key, Key.type].all (· != other) = true := by decide
  have hlacks : ∀ other ∈ [Key.text, Key.thinking, Key.partialJson, Key.estimatedTokens], other ≠ key →
      Lacks (object [(key, string piece), (Key.type, string deltaType)]) other := fun other hmem hne =>
    lacks_of_nil (hother key hkey other hmem hne)
  simp only [List.mem_cons, List.not_mem_nil, or_false] at hkey
  rcases hkey with rfl | rfl
  · exact isEvent_event ⟨_, ⟨_, rfl, rfl⟩, ⟨_, rfl, rfl⟩, ⟨_, rfl, rfl⟩, hlacks⟩
  · exact isEvent_event ⟨_, ⟨_, rfl, rfl⟩, ⟨_, rfl, rfl⟩, ⟨_, rfl, rfl⟩, hlacks⟩

theorem streamsBlock_textPart : StreamsBlock textPart.block textPart.sent textPart.events := by
  have hdelta := fun piece => isDelta_event (show Key.text ∈ _ by simp) "text_delta".toList piece
  refine StreamsBlock.text (isEvent_event ?_) (.cons (hdelta _) (.cons (hdelta _) .nil)) (isEvent_event trivial)
  exact ⟨_, ⟨_, rfl, rfl⟩, ⟨_, rfl, rfl⟩, lacks_of_nil (by decide), lacks_of_nil (by decide), lacks_of_nil (by decide)⟩

theorem streamsBlock_callPart : StreamsBlock callPart.block callPart.sent callPart.events := by
  have hdelta := fun piece => isDelta_event (show Key.partialJson ∈ _ by simp) "input_json_delta".toList piece
  refine StreamsBlock.toolDeltas (isEvent_event ?_) (.cons (hdelta _) (.cons (hdelta _) .nil)) ?_
    (isEvent_event trivial)
  · exact ⟨_, ⟨_, rfl, rfl⟩, ⟨_, rfl, rfl⟩, ⟨_, rfl, rfl⟩, ⟨_, rfl, rfl⟩, Or.inr ⟨_, rfl, rfl⟩⟩
  · simp [IsJsonOf, read_write]

theorem callEvents_stream : Streams callResponse [textPart, callPart] 1 callEvents := by
  refine ⟨?_, ?_, by decide, _, _, isEvent_event ?_, isEvent_event ?_, rfl⟩
  · exact .cons ⟨rfl, rfl⟩ (.cons ⟨rfl, rfl, rfl, rfl⟩ .nil)
  · intro part hpart
    simp only [List.mem_cons, List.not_mem_nil, or_false] at hpart
    rcases hpart with rfl | rfl
    · exact streamsBlock_textPart
    · exact streamsBlock_callPart
  · exact ⟨by decide, object startUsage, rfl, by decide, by decide, by decide, by decide⟩
  · exact ⟨by decide, rfl, _, rfl, rfl, by decide⟩

theorem callParts_inBounds : ∀ part ∈ [textPart, callPart], part.InBounds := by
  intro part hpart
  simp only [List.mem_cons, List.not_mem_nil, or_false] at hpart
  rcases hpart with rfl | rfl
  · exact trivial
  · show utf8Len "t".toList ≤ maxToolIdBytes ∧ utf8Len "f".toList ≤ maxToolNameBytes ∧
      utf8Len [write callInput, []].flatten ≤ maxToolArgumentsBytes
    decide

theorem stream_agrees_call :
    Streams callResponse [textPart, callPart] 1 callEvents ∧
      ∃ out usage, streamed callEvents = some out ∧ out.content = (anthropicToOpenai callResponse).content.getD [] ∧
        out.reasoning = (anthropicToOpenai callResponse).reasoning.getD [] ∧
        CallsAgree [textPart, callPart] (out.toolCalls.map (·.2)) ((anthropicToOpenai callResponse).toolCalls.getD []) ∧
        out.usage = some usage ∧ usage.promptTokens = (anthropicToOpenai callResponse).usage.promptTokens ∧
        usage.completionTokens = (anthropicToOpenai callResponse).usage.completionTokens ∧
        usage.totalTokens = satAdd32 (anthropicToOpenai callResponse).usage.promptTokens 1 :=
  ⟨callEvents_stream, stream_agrees callEvents_stream callParts_inBounds⟩

theorem stream_total_differs :
    Streams callResponse [textPart, callPart] 1 callEvents ∧
      (streamed callEvents).map (·.usage.map (·.totalTokens)) = some (some 11) ∧
      (anthropicToOpenai callResponse).usage.totalTokens = 15 ∧
      ¬ ∃ out, streamed callEvents = some out ∧ Agrees callResponse out := by
  have htotal : (streamed callEvents).map (·.usage.map (·.totalTokens)) = some (some 11) := by decide +kernel
  have hunary : (anthropicToOpenai callResponse).usage.totalTokens = 15 := by decide +kernel
  refine ⟨callEvents_stream, htotal, hunary, ?_⟩
  rintro ⟨out, hout, hagrees⟩
  have htotal' := hagrees.totalTokens
  rw [hout, Option.map_some, Option.some.injEq, htotal', hunary] at htotal
  exact absurd htotal (by decide)

end OpenProxy.Upstream
