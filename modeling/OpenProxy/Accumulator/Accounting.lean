import OpenProxy.Accumulator.Parser

/-!
# The bytes of an accumulated response

The model of `sse_accumulator/accumulator.rs`.  `total_bytes` counts the content, the reasoning and the arguments of the
tool calls, and it is checked against the limit before anything is added.  The arguments of an Anthropic tool call are
added without being counted, so that the runs in which the count is right are those without such arguments
(`accounted_iff`).
-/

namespace OpenProxy.Accumulator

/-- `MAX_ACCUMULATED_BYTES`. -/
def maxAccumulatedBytes : Nat := 256 * 1024

/-! ### What is read of a payload -/

structure ToolCallFunctionProbe where
  name : Option Text
  arguments : Option Text

structure ToolCallProbe where
  index : Option Nat
  id : Option Text
  function : Option ToolCallFunctionProbe

structure ToolCallProbeDelta where
  toolCalls : Option (List ToolCallProbe)

structure ToolCallProbeChoice where
  delta : Option ToolCallProbeDelta

structure ToolCallProbeOuter where
  choices : Option (List ToolCallProbeChoice)

/-- What `serde_json::from_slice` reads of a payload. -/
abbrev AccumulatorSerde := Text → Option ToolCallProbeOuter

/-- `payload.contains("\"tool_calls\"")`. -/
def mentionsToolCalls (payload : Text) : Bool := (find payload "\"tool_calls\"".toList).isSome

def parseToolCallProbe (serde : AccumulatorSerde) (payload : Text) : Option (List ToolCallProbe) :=
  if !mentionsToolCalls payload then none
  else
    (serde payload).bind fun v => v.choices.bind fun choices => choices.head?.bind fun choice =>
      choice.delta.bind fun delta => delta.toolCalls

/-! ### The accumulator -/

structure AccumulatedToolCall where
  id : Text
  name : Text
  arguments : Text

namespace AccumulatedToolCall

def default : AccumulatedToolCall := ⟨[], [], []⟩

/-- The call with the id and the name, where there are any. -/
def named (tc : AccumulatedToolCall) (id name : Option Text) : AccumulatedToolCall :=
  { tc with id := id.getD tc.id, name := name.getD tc.name }

def push (tc : AccumulatedToolCall) (args : Text) : AccumulatedToolCall := { tc with arguments := tc.arguments ++ args }

end AccumulatedToolCall

/-- The calls, with empty ones up to an index. -/
def padToolCalls (index : Nat) (tcs : List AccumulatedToolCall) : List AccumulatedToolCall :=
  tcs ++ List.replicate (index + 1 - tcs.length) .default

inductive AnthropicToolEvent
  | opened (id name : Text)
  | delta (partialJson : Text)
  | close

structure ResponseAccumulator where
  content : Text
  reasoning : Option Text
  toolCalls : List AccumulatedToolCall
  totalBytes : Nat
  truncated : Bool

namespace ResponseAccumulator

def new : ResponseAccumulator := ⟨[], none, [], 0, false⟩

variable (s : ResponseAccumulator)

def appendContent (content : Text) : ResponseAccumulator :=
  if maxAccumulatedBytes < s.totalBytes + utf8Len content then { s with truncated := true }
  else
    let content' := s.content ++ decodeJsonEscape content
    { s with content := content', totalBytes := s.totalBytes + (utf8Len content' - utf8Len s.content) }

def appendDeltaContentIfPresent (payload : Text) : ResponseAccumulator :=
  match (extractDeltaFields payload).content with
  | some content => s.appendContent content
  | none => s

def appendReasoning (text : Text) : ResponseAccumulator :=
  if s.truncated || text.isEmpty then s
  else if maxAccumulatedBytes < s.totalBytes + utf8Len text then { s with truncated := true }
  else
    let r := s.reasoning.getD []
    let r' := r ++ decodeJsonEscape text
    { s with reasoning := some r', totalBytes := s.totalBytes + (utf8Len r' - utf8Len r) }

def updateOpenaiToolCallDelta (index : Nat) (id name arguments : Option Text) : ResponseAccumulator :=
  let toolCalls := (padToolCalls index s.toolCalls).modify index (·.named id name)
  match arguments with
  | none => { s with toolCalls }
  | some args =>
    if maxAccumulatedBytes < s.totalBytes + utf8Len args then { s with toolCalls, truncated := true }
    else
      { s with
        toolCalls := toolCalls.modify index (·.push args)
        totalBytes := s.totalBytes + utf8Len args }

def appendOpenaiToolCall (id : Option Text) (name arguments : Text) : ResponseAccumulator :=
  s.updateOpenaiToolCallDelta 0 id (some name) (some arguments)

def appendDeltaToolCallsIfPresent (serde : AccumulatorSerde) (s : ResponseAccumulator) (payload : Text) :
    ResponseAccumulator :=
  match parseToolCallProbe serde payload with
  | none => s
  | some toolCalls =>
    toolCalls.foldl
      (fun s tc => s.updateOpenaiToolCallDelta (tc.index.getD 0) tc.id (tc.function.bind (·.name))
        (tc.function.bind (·.arguments))) s

def appendOpenaiRaw (serde : AccumulatorSerde) (s : ResponseAccumulator) (payload : Text) : ResponseAccumulator :=
  if s.truncated then s
  else
    let s := s.appendDeltaContentIfPresent payload
    if mentionsToolCalls payload then s.appendDeltaToolCallsIfPresent serde payload else s

def processChunk (serde : AccumulatorSerde) (s : ResponseAccumulator) (payload : Text) : ResponseAccumulator :=
  if s.truncated then s
  else
    let fields := extractDeltaFields payload
    let s := match fields.content with
      | some content => s.appendContent content
      | none => s
    let s := if mentionsToolCalls payload then s.appendDeltaToolCallsIfPresent serde payload else s
    match fields.reasoningContent with
    | some rc => s.appendReasoning rc
    | none => s

def updateAnthropicToolUse (s : ResponseAccumulator) : AnthropicToolEvent → ResponseAccumulator
  | .opened id name => { s with toolCalls := s.toolCalls ++ [⟨id, name, []⟩] }
  | .delta partialJson =>
    { s with toolCalls := s.toolCalls.modify (s.toolCalls.length - 1) (·.push partialJson) }
  | .close => s

end ResponseAccumulator

/-- The operations that change what is accumulated. -/
inductive AccumulatorOp
  | appendOpenaiRaw (payload : Text)
  | processChunk (payload : Text)
  | appendReasoning (text : Text)
  | updateOpenaiToolCallDelta (index : Nat) (id name arguments : Option Text)
  | appendOpenaiToolCall (id : Option Text) (name arguments : Text)
  | updateAnthropicToolUse (event : AnthropicToolEvent)

namespace ResponseAccumulator

def step (serde : AccumulatorSerde) (s : ResponseAccumulator) (op : AccumulatorOp) : ResponseAccumulator × Unit :=
  match op with
  | .appendOpenaiRaw payload => (s.appendOpenaiRaw serde payload, ())
  | .processChunk payload => (s.processChunk serde payload, ())
  | .appendReasoning text => (s.appendReasoning text, ())
  | .updateOpenaiToolCallDelta index id name arguments => (s.updateOpenaiToolCallDelta index id name arguments, ())
  | .appendOpenaiToolCall id name arguments => (s.appendOpenaiToolCall id name arguments, ())
  | .updateAnthropicToolUse event => (s.updateAnthropicToolUse event, ())

end ResponseAccumulator

/-! ### Decoding makes nothing longer -/

theorem length_hexAfter {t rest : Text} {n : Nat} (h : hexAfter t = some (n, rest)) : t.length = rest.length + 4 := by
  unfold hexAfter at h
  split at h
  · obtain ⟨m, -, heq⟩ := Option.map_eq_some_iff.mp h
    cases heq
    rfl
  · cases h

theorem length_lowAfter {t : Text} {low : Nat} (h : lowAfter t = some low) : 6 ≤ t.length := by
  unfold lowAfter at h
  split at h
  · rename_i rest
    obtain ⟨⟨n, after⟩, hhex, -⟩ := Option.bind_eq_some_iff.mp h
    have hlen := length_hexAfter hhex
    simp only [List.length_cons]
    omega
  · cases h

theorem length_unicodeAt {t : Text} {c : Char} {n : Nat} (h : unicodeAt t = some (c, n)) : 4 ≤ n ∧ n ≤ t.length := by
  obtain ⟨⟨hex, rest⟩, hhex, h⟩ := Option.bind_eq_some_iff.mp h
  have hlen := length_hexAfter hhex
  rcases Option.or_eq_some_iff.mp h with hpair | ⟨-, hsingle⟩
  · obtain ⟨d, hd, heq⟩ := Option.map_eq_some_iff.mp hpair
    cases heq
    split at hd
    · obtain ⟨low, hlow, -⟩ := Option.bind_eq_some_iff.mp hd
      have := length_lowAfter hlow
      omega
    · cases hd
  · obtain ⟨d, -, heq⟩ := Option.map_eq_some_iff.mp hsingle
    cases heq
    omega

/-- A character takes no more bytes than what it is written as. -/
theorem utf8Size_escapeAt {t : Text} {c : Char} {n : Nat} (h : escapeAt t = some (c, n)) :
    c.utf8Size ≤ n + 1 ∧ n ≤ t.length := by
  unfold escapeAt at h
  split at h
  case h_9 rest =>
    obtain ⟨⟨d, m⟩, hunicode, heq⟩ := Option.map_eq_some_iff.mp h
    cases heq
    have hlen := length_unicodeAt hunicode
    have hsize := Char.utf8Size_le_four c
    rw [List.length_cons]
    omega
  case h_10 => cases h
  all_goals
    cases h
    exact ⟨by decide, by simp⟩

theorem utf8Len_decodeFrom_le (skip : Nat) (t : Text) : utf8Len (decodeFrom skip t) ≤ utf8Len (t.drop skip) := by
  induction t generalizing skip with
  | nil => simp [decodeFrom]
  | cons c rest ih =>
    cases skip with
    | succ skip => exact ih skip
    | zero =>
      rw [List.drop_zero, decodeFrom]
      split
      · rename_i hc
        subst hc
        cases hescape : escapeAt rest with
        | none =>
          have := ih 0
          rw [List.drop_zero] at this
          simp only [utf8Len_cons]
          omega
        | some escape =>
          obtain ⟨d, n⟩ := escape
          have hrest := ih n
          obtain ⟨hsize, hlen⟩ := utf8Size_escapeAt hescape
          have hsplit : utf8Len rest = utf8Len (rest.take n) + utf8Len (rest.drop n) := by
            rw [← utf8Len_append, List.take_append_drop]
          have htake := length_le_utf8Len (rest.take n)
          rw [List.length_take] at htake
          have hbackslash : '\\'.utf8Size = 1 := by decide
          simp only [utf8Len_cons, hbackslash]
          omega
      · have := ih 0
        rw [List.drop_zero] at this
        simp only [utf8Len_cons]
        omega

theorem utf8Len_decodeJsonEscape_le (raw : Text) : utf8Len (decodeJsonEscape raw) ≤ utf8Len raw := by
  unfold decodeJsonEscape
  split
  · exact utf8Len_decodeFrom_le 0 raw
  · exact Nat.le_refl _

/-! ### The arguments of the tool calls -/

/-- The bytes of the arguments. -/
def argumentBytes (toolCalls : List AccumulatedToolCall) : Nat := (toolCalls.map fun tc => utf8Len tc.arguments).sum

theorem argumentBytes_append (tcs tcs' : List AccumulatedToolCall) :
    argumentBytes (tcs ++ tcs') = argumentBytes tcs + argumentBytes tcs' := by
  unfold argumentBytes
  rw [List.map_append, List.sum_append]

theorem argumentBytes_padToolCalls (index : Nat) (tcs : List AccumulatedToolCall) :
    argumentBytes (padToolCalls index tcs) = argumentBytes tcs := by
  have hempty : ∀ n, argumentBytes (List.replicate n .default) = 0 := by
    intro n
    induction n with
    | zero => rfl
    | succ n ih => exact (Nat.zero_add _).trans ih
  rw [padToolCalls, argumentBytes_append, hempty, Nat.add_zero]

theorem lt_length_padToolCalls (index : Nat) (tcs : List AccumulatedToolCall) :
    index < (padToolCalls index tcs).length := by
  rw [padToolCalls, List.length_append, List.length_replicate]
  omega

theorem argumentBytes_modify {f : AccumulatedToolCall → AccumulatedToolCall} {added : Nat}
    (hf : ∀ tc, utf8Len (f tc).arguments = utf8Len tc.arguments + added) {tcs : List AccumulatedToolCall} {index : Nat}
    (hindex : index < tcs.length) : argumentBytes (tcs.modify index f) = argumentBytes tcs + added := by
  induction tcs generalizing index with
  | nil => exact absurd hindex (Nat.not_lt_zero _)
  | cons tc tcs ih =>
    have hcons : ∀ tc tcs, argumentBytes (tc :: tcs) = utf8Len tc.arguments + argumentBytes tcs := fun _ _ => rfl
    cases index with
    | zero =>
      rw [List.modify_zero_cons, hcons, hcons, hf]
      omega
    | succ index =>
      rw [List.modify_succ_cons, hcons, hcons, ih (Nat.lt_of_succ_lt_succ hindex)]
      omega

theorem argumentBytes_push (args : Text) {tcs : List AccumulatedToolCall} {index : Nat} (hindex : index < tcs.length) :
    argumentBytes (tcs.modify index (·.push args)) = argumentBytes tcs + utf8Len args :=
  argumentBytes_modify (fun tc => utf8Len_append tc.arguments args) hindex

/-! ### The count -/

namespace ResponseAccumulator

/-- The count is right, and within the limit. -/
structure Accounted (s : ResponseAccumulator) : Prop where
  total : s.totalBytes = utf8Len s.content + utf8Len (s.reasoning.getD []) + argumentBytes s.toolCalls
  bounded : utf8Len s.content + utf8Len (s.reasoning.getD []) + argumentBytes s.toolCalls ≤ maxAccumulatedBytes

/-- An operation that does not add to the arguments of an Anthropic tool call. -/
def Counted (s : ResponseAccumulator) : AccumulatorOp → Prop
  | .updateAnthropicToolUse (.delta partialJson) => partialJson = [] ∨ s.toolCalls = []
  | _ => True

variable {s : ResponseAccumulator}

theorem accounted_new : Accounted new := ⟨rfl, Nat.zero_le _⟩

theorem appendContent_accounted (h : Accounted s) (content : Text) : Accounted (s.appendContent content) := by
  have htotal := h.total
  have hdecoded := utf8Len_decodeJsonEscape_le content
  unfold appendContent
  split
  · exact ⟨h.total, h.bounded⟩
  · rename_i hfits
    refine ⟨?_, ?_⟩
    · simp only [utf8Len_append]
      omega
    · simp only [utf8Len_append]
      omega

theorem appendReasoning_accounted (h : Accounted s) (text : Text) : Accounted (s.appendReasoning text) := by
  have htotal := h.total
  have hdecoded := utf8Len_decodeJsonEscape_le text
  unfold appendReasoning
  split
  · exact h
  · split
    · exact ⟨h.total, h.bounded⟩
    · rename_i hfits
      refine ⟨?_, ?_⟩
      · simp only [utf8Len_append, Option.getD_some]
        omega
      · simp only [utf8Len_append, Option.getD_some]
        omega

theorem updateOpenaiToolCallDelta_accounted (h : Accounted s) (index : Nat) (id name arguments : Option Text) :
    Accounted (s.updateOpenaiToolCallDelta index id name arguments) := by
  have htotal := h.total
  have hbounded := h.bounded
  have hindex := lt_length_padToolCalls index s.toolCalls
  have hsame : ∀ tc : AccumulatedToolCall, utf8Len (tc.named id name).arguments = utf8Len tc.arguments + 0 := fun _ => rfl
  have hnamed : argumentBytes ((padToolCalls index s.toolCalls).modify index (·.named id name)) =
      argumentBytes s.toolCalls := by
    rw [argumentBytes_modify hsame hindex, argumentBytes_padToolCalls, Nat.add_zero]
  unfold updateOpenaiToolCallDelta
  cases arguments with
  | none => exact ⟨by simpa only [hnamed] using htotal, by simpa only [hnamed] using hbounded⟩
  | some args =>
    dsimp only
    split
    · exact ⟨by simpa only [hnamed] using htotal, by simpa only [hnamed] using hbounded⟩
    · rename_i hfits
      have hadded : argumentBytes (((padToolCalls index s.toolCalls).modify index (·.named id name)).modify index
          (·.push args)) = argumentBytes s.toolCalls + utf8Len args := by
        rw [argumentBytes_push args (by rwa [List.length_modify]), hnamed]
      refine ⟨?_, ?_⟩
      · rw [hadded]
        dsimp only
        omega
      · rw [hadded]
        dsimp only
        omega

theorem appendDeltaToolCallsIfPresent_accounted (serde : AccumulatorSerde) (h : Accounted s) (payload : Text) :
    Accounted (s.appendDeltaToolCallsIfPresent serde payload) := by
  unfold appendDeltaToolCallsIfPresent
  cases parseToolCallProbe serde payload with
  | none => exact h
  | some toolCalls =>
    dsimp only
    induction toolCalls generalizing s with
    | nil => exact h
    | cons tc toolCalls ih => exact ih (updateOpenaiToolCallDelta_accounted h _ _ _ _)

theorem appendOpenaiRaw_accounted (serde : AccumulatorSerde) (h : Accounted s) (payload : Text) :
    Accounted (s.appendOpenaiRaw serde payload) := by
  have hcontent : Accounted (s.appendDeltaContentIfPresent payload) := by
    unfold appendDeltaContentIfPresent
    cases (extractDeltaFields payload).content with
    | none => exact h
    | some content => exact appendContent_accounted h content
  unfold appendOpenaiRaw
  split
  · exact h
  · dsimp only
    split
    · exact appendDeltaToolCallsIfPresent_accounted serde hcontent payload
    · exact hcontent

theorem processChunk_accounted (serde : AccumulatorSerde) (h : Accounted s) (payload : Text) :
    Accounted (s.processChunk serde payload) := by
  have htools : ∀ {s : ResponseAccumulator}, Accounted s →
      Accounted (if mentionsToolCalls payload then s.appendDeltaToolCallsIfPresent serde payload else s) := by
    intro s h
    split
    · exact appendDeltaToolCallsIfPresent_accounted serde h payload
    · exact h
  unfold processChunk
  split
  · exact h
  · dsimp only
    generalize extractDeltaFields payload = fields
    obtain ⟨content, reasoningContent⟩ := fields
    cases content with
    | none =>
      cases reasoningContent with
      | none => exact htools h
      | some rc => exact appendReasoning_accounted (htools h) rc
    | some content =>
      cases reasoningContent with
      | none => exact htools (appendContent_accounted h content)
      | some rc => exact appendReasoning_accounted (htools (appendContent_accounted h content)) rc

/-- The step lemma: an operation keeps the count right exactly if it is counted. -/
theorem step_accounted_iff (serde : AccumulatorSerde) (h : Accounted s) (op : AccumulatorOp) :
    Counted s op ↔ Accounted (s.step serde op).1 := by
  cases op with
  | appendOpenaiRaw payload => exact iff_of_true trivial (appendOpenaiRaw_accounted serde h payload)
  | processChunk payload => exact iff_of_true trivial (processChunk_accounted serde h payload)
  | appendReasoning text => exact iff_of_true trivial (appendReasoning_accounted h text)
  | updateOpenaiToolCallDelta index id name arguments =>
    exact iff_of_true trivial (updateOpenaiToolCallDelta_accounted h index id name arguments)
  | appendOpenaiToolCall id name arguments =>
    exact iff_of_true trivial (updateOpenaiToolCallDelta_accounted h 0 id (some name) (some arguments))
  | updateAnthropicToolUse event =>
    have htotal := h.total
    have hbounded := h.bounded
    cases event with
    | opened id name =>
      have hopened : argumentBytes (s.toolCalls ++ [⟨id, name, []⟩]) = argumentBytes s.toolCalls := by
        rw [argumentBytes_append]
        rfl
      refine iff_of_true trivial ⟨?_, ?_⟩
      · simpa only [step, updateAnthropicToolUse, hopened] using htotal
      · simpa only [step, updateAnthropicToolUse, hopened] using hbounded
    | close => exact iff_of_true trivial h
    | delta partialJson =>
      show (partialJson = [] ∨ s.toolCalls = []) ↔ Accounted (s.updateAnthropicToolUse (.delta partialJson))
      by_cases hempty : s.toolCalls = []
      · refine iff_of_true (.inr hempty) ⟨?_, ?_⟩
        · simpa only [updateAnthropicToolUse, hempty, List.modify_nil] using htotal
        · simpa only [updateAnthropicToolUse, hempty, List.modify_nil] using hbounded
      · have hlast : s.toolCalls.length - 1 < s.toolCalls.length := by
          have := List.length_pos_of_ne_nil hempty
          omega
        have hadded := argumentBytes_push partialJson hlast
        constructor
        · rintro (rfl | hnil)
          · rw [utf8Len_nil, Nat.add_zero] at hadded
            refine ⟨?_, ?_⟩
            · simpa only [updateAnthropicToolUse, hadded] using htotal
            · simpa only [updateAnthropicToolUse, hadded] using hbounded
          · exact absurd hnil hempty
        · intro haccounted
          -- the arguments grow, and the count does not
          have htotal' := haccounted.total
          simp only [updateAnthropicToolUse, hadded] at htotal'
          left
          by_contra hne
          have := utf8Len_pos hne
          omega

/-- The count is right in every state of a run exactly if no operation of the run adds to the arguments of an Anthropic
tool call. -/
theorem accounted_iff (serde : AccumulatorSerde) (ops : List AccumulatorOp) :
    (∀ before, before <+: ops → Accounted (runState (step serde) new before)) ↔
      AllSteps (step serde) Counted new ops := by
  have hstep : ∀ s op, Accounted s → (Counted s op ↔ Accounted (s.step serde op).1) :=
    fun s op h => step_accounted_iff serde h op
  exact (allSteps_iff_initial hstep accounted_new).symm

/-- The two bytes of the arguments are not counted. -/
theorem accounted_anthropicDelta :
    ¬ ∀ (serde : AccumulatorSerde) (ops : List AccumulatorOp), Accounted (runState (step serde) new ops) := by
  intro h
  have htotal := (h (fun _ => none) [.updateAnthropicToolUse (.opened ['i'] ['n']),
    .updateAnthropicToolUse (.delta ['\x7b', '\x7d'])]).total
  exact absurd htotal (by decide)

end ResponseAccumulator

end OpenProxy.Accumulator
