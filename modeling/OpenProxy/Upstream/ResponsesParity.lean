import OpenProxy.Upstream.ResponsesStream

/-!
# Streaming and unary translation of a Responses object agree

A client that puts together what the lines of a stream are translated to has the content, the reasoning, the calls, the
finish reason and the usage of the translated response (`responses_stream_agrees`), as long as the calls and their
arguments are within the limits of the stream, the response has not been cut short and the counts of tokens can be added.
No stream makes more than 128 calls (`index_lt_of_folded`), while the translation of a response keeps all of them.
-/

namespace OpenProxy.Upstream.Responses

open Json

/-! ### The items of the response -/

theorem flatMap_parts {isPart : Text → Json → Prop} {f : Json → Text} (hf : ∀ text part, isPart text part → f part = text)
    {texts : List Text} {parts : List Json} (h : List.Forall₂ isPart texts parts) : parts.flatMap f = texts.flatten := by
  induction h with
  | nil => rfl
  | cons hpart _ ih => rw [List.flatMap_cons, List.flatten_cons, hf _ _ hpart, ih]

theorem reasoningPart_of_strMember {text : Text} {part : Json} (h : strMember part "text" = some text) :
    reasoningPart part = some text := by
  rw [reasoningPart, h, Option.some_or]

theorem Item.IsValue.contentOfItem {item : Item} {v : Json} (h : item.IsValue v) : contentOfItem v = item.content := by
  unfold Responses.contentOfItem
  cases item with
  | reasoning text =>
    rw [h.1, if_pos (by decide)]
    rfl
  | message text =>
    obtain ⟨htype, texts, rfl, parts, hparts, htexts⟩ := h
    rw [htype, if_neg (by decide), hparts, Option.bind_some, asArray]
    refine flatMap_parts ?_ htexts
    rintro text part ⟨hkind, htext⟩
    rw [hkind, if_pos (by decide), htext, Option.getD_some]
  | call c =>
    rw [h.1.type, if_pos (by decide)]
    rfl

theorem Item.IsValue.reasoningOfItem {item : Item} {v : Json} (h : item.IsValue v) :
    reasoningOfItem v = item.thinking := by
  have htext : ∀ (text : Text) (part : Json), strMember part "text" = some text → (reasoningPart part).getD [] = text := by
    intro text part hpart
    rw [reasoningPart_of_strMember hpart, Option.getD_some]
  unfold Responses.reasoningOfItem
  cases item with
  | reasoning text =>
    obtain ⟨htype, texts, rfl, hsource⟩ := h
    rw [htype, if_neg (by decide)]
    rcases hsource with ⟨hne, parts, hparts, htexts⟩ | ⟨hcontent, parts, hparts, htexts⟩
    · have hfound : (parts.any fun part => (reasoningPart part).isSome) = true := by
        cases htexts with
        | nil => exact absurd rfl hne
        | cons hpart _ => rw [List.any_cons, reasoningPart_of_strMember hpart, Option.isSome_some, Bool.true_or]
      simp only [hparts, Option.bind_some, asArray, hfound, if_true]
      exact flatMap_parts htext htexts
    · have hsummary : (v.get "summary".toList).bind asArray = some parts := by rw [hparts, Option.bind_some, asArray]
      simp only [List.mem_cons, List.not_mem_nil, or_false] at hcontent
      rcases hcontent with hcontent | hcontent | hcontent <;> rw [hcontent, hsummary] <;>
        exact flatMap_parts htext htexts
  | message text =>
    rw [h.1, if_pos (by decide)]
    rfl
  | call c =>
    rw [h.1.type, if_pos (by decide)]
    rfl

theorem Item.IsValue.toolCallOfItem {item : Item} {v : Json} (h : item.IsValue v) :
    toolCallOfItem v = item.functionCall.map FunctionCall.toolCall := by
  unfold Responses.toolCallOfItem
  cases item with
  | reasoning text =>
    rw [h.1, if_pos (by decide)]
    rfl
  | message text =>
    rw [h.1, if_pos (by decide)]
    rfl
  | call c =>
    obtain ⟨hann, hargs⟩ := h
    have hid : (((v.get "call_id".toList).or (v.get "id".toList)).bind asStr) = c.callId.or c.id := by
      rw [hann.id, hann.callId]
      cases c.callId <;> cases c.id <;> rfl
    have hnamed := hann.named
    unfold FunctionCall.ident at hnamed
    rw [hann.type, if_neg (by decide), hid, strMember, strMember, hann.name, hargs]
    cases hboth : c.callId.or c.id with
    | none =>
      rw [hboth] at hnamed
      exact absurd rfl hnamed
    | some id => simp only [Option.getD_some, Option.bind_some, asStr, Item.functionCall, Option.map_some,
        FunctionCall.toolCall, FunctionCall.ident, hboth]

/-- The response item by item. -/
theorem output_eq {items : List Item} {values : List Json} (h : List.Forall₂ Item.IsValue items values) :
    values.flatMap contentOfItem = items.flatMap Item.content ∧
      values.flatMap reasoningOfItem = items.flatMap Item.thinking ∧
      values.filterMap toolCallOfItem = (functionCalls items).map FunctionCall.toolCall := by
  induction h with
  | nil => exact ⟨rfl, rfl, rfl⟩
  | @cons item v items values hitem _ ih =>
    obtain ⟨hcontent, hreasoning, hcalls⟩ := ih
    refine ⟨?_, ?_, ?_⟩
    · rw [List.flatMap_cons, List.flatMap_cons, hitem.contentOfItem, hcontent]
    · rw [List.flatMap_cons, List.flatMap_cons, hitem.reasoningOfItem, hreasoning]
    · rw [List.filterMap_cons, hitem.toolCallOfItem, hcalls]
      cases hcall : item.functionCall <;> simp [functionCalls, hcall]

/-! ### Agreement -/

/-- The message of the stream is the one of the response. -/
structure Agree (m : Folded) (response : OpenAIResponse) : Prop where
  content : m.content = response.content.getD []
  reasoning : m.reasoning = response.reasoning.getD []
  toolCalls : m.toolCalls = numbered (response.toolCalls.getD [])
  finishReason : m.finishReason = some response.finishReason
  usage : m.usage = response.usage

/-- Streaming and translating the response at once give the same message, and no count overflows. -/
def StreamAgrees (r : Json) (lines : List Text) : Prop :=
  ∀ modelName fallbackModel now, ∃ m response, folded modelName lines = some m ∧
    responsesToOpenai now r fallbackModel = .ok response ∧ Agree m response ∧ NoOverflow r

theorem responsesUsage_eq {usage : Json} (h : promptTokens usage + completionTokens usage ≤ u32Max) :
    responsesUsage satAdd32 usage = responsesUsage add32 usage := by
  have hadd : satAdd32 (promptTokens usage) (completionTokens usage) =
      add32 (promptTokens usage) (completionTokens usage) := by
    unfold satAdd32 add32
    unfold u32Max at h ⊢
    omega
  unfold responsesUsage
  rw [hadd]

/-- The last event adds the finish reason and the usage. -/
theorem advance_terminal (modelName : Text) {line : Text} {r u : Json} {s : ResponsesSseState} {m : Folded}
    (h : IsTerminal r line) (hu : r.get "usage".toList = some u)
    (hreason : incompleteReason r ∉ [some "max_output_tokens".toList, some "content_filter".toList])
    (hm : m.usage = none) :
    ∃ s', advance modelName (s, m) line = some (s',
      { m with
        usage := some (responsesUsage satAdd32 u)
        finishReason := some (if !s.toolCalls.isEmpty then "tool_calls".toList else "stop".toList) }) := by
  obtain ⟨v, ⟨data, hdata, hread⟩, herror, ⟨type, htype, hkind⟩, hresponse, husage⟩ := h
  have hmember : usageMember v = some u := by
    rw [usageMember, husage, Option.none_or, hresponse, Option.bind_some, hu]
  simp only [List.mem_cons, List.not_mem_nil, or_false, not_or] at hreason
  let counts := responsesUsage satAdd32 u
  let s' : ResponsesSseState := ⟨s.toolCalls, some ((s.usage.map fun existing => mergeUsage existing counts).getD counts)⟩
  let stop := if !s.toolCalls.isEmpty then "tool_calls".toList else "stop".toList
  have hchunk : handleEvent v (some counts) s' =
      (some ⟨some ⟨{}, some stop⟩, false, some counts, some stop, none, [], false⟩, s') := by
    rw [handleEvent_completed _ _ htype hkind, handleCompleted, hresponse, Option.bind_some, if_neg hreason.1,
      if_neg hreason.2, Option.some_or]
  have hparse : parseResponsesSseStreamLine modelName line s =
      (.ok (some ⟨some ⟨{}, some stop⟩, false, some counts, some stop, none, [], false⟩), s') := by
    unfold parseResponsesSseStreamLine
    simp only [hdata, hread, herror, hmember, Option.map_some]
    rw [hchunk]
  refine ⟨s', ?_⟩
  unfold advance
  rw [hparse]
  dsimp only
  rw [Option.map_some, Option.getD_some, Folded.add, Streamed.add, hm]
  simp only [Option.map_some, Option.getD_some, Option.getD_none, List.append_nil, List.foldl_nil, Option.bind_some,
    addUsage, Option.some_or]
  rfl

/-- What the translation of a response makes of its items. -/
theorem responsesToOpenai_eq {r u : Json} {items : List Item} {values : List Json}
    (hvalues : r.get "output".toList = some (array values)) (hitems : List.Forall₂ Item.IsValue items values)
    (hu : r.get "usage".toList = some u) (herror : (r.get "error".toList).filter nonNull = none) (now : Nat)
    (fallbackModel : Text) :
    ∃ response, responsesToOpenai now r fallbackModel = .ok response ∧
      response.content.getD [] = items.flatMap Item.content ∧
      response.reasoning.getD [] = items.flatMap Item.thinking ∧
      response.toolCalls.getD [] = (functionCalls items).map FunctionCall.toolCall ∧
      response.finishReason = (if !(functionCalls items).isEmpty then "tool_calls".toList else "stop".toList) ∧
      response.usage = some (responsesUsage add32 u) := by
  obtain ⟨hcontent, hreasoning, hcalls⟩ := output_eq hitems
  have hmember : usageMember r = some u := by rw [usageMember, hu, Option.some_or]
  have horEmpty : ∀ {α : Type} (l : List α), (if l.isEmpty then none else some l).getD [] = l := by
    intro α l
    cases l <;> rfl
  unfold responsesToOpenai
  rw [herror]
  refine ⟨_, rfl, ?_, ?_, ?_, ?_, ?_⟩
  · show (if _ then none else some _ : Option Text).getD [] = _
    rw [hvalues, Option.bind_some, asArray, Option.getD_some, hcontent]
    split_ifs with hempty
    · rw [Bool.and_eq_true, List.isEmpty_iff] at hempty
      exact hempty.1.symm
    · rfl
  · rw [hvalues, Option.bind_some, asArray, Option.getD_some, hreasoning]
    exact horEmpty _
  · rw [hvalues, Option.bind_some, asArray, Option.getD_some, hcalls]
    exact horEmpty _
  · rw [hvalues, Option.bind_some, asArray, Option.getD_some, hcalls, List.isEmpty_map]
  · rw [hmember, Option.map_some]

/-- Within the limits of the stream, streaming and translating a response that has not been cut short agree. -/
theorem responses_stream_agrees {r : Json} {items : List Item} {lines : List Text} (h : Streams r items lines)
    (hcount : (functionCalls items).length ≤ maxResponsesToolCalls)
    (hcap : ∀ call ∈ functionCalls items, utf8Len call.arguments ≤ maxResponsesToolCallArgsBytes)
    (hreason : incompleteReason r ∉ [some "max_output_tokens".toList, some "content_filter".toList])
    (hsum : NoOverflow r) : StreamAgrees r lines := by
  intro modelName fallbackModel now
  obtain ⟨⟨values, hvalues, hitems⟩, husage, herror, hdistinct, parts, after, last, hparts, hafter, hlast, rfl⟩ := h
  obtain ⟨u, hu⟩ := Option.isSome_iff_exists.mp husage
  have hmember : usageMember r = some u := by rw [usageMember, hu, Option.some_or]
  have hread := (reads_items modelName hparts [] hdistinct hcount hcap).append (reads_silents hafter)
  obtain ⟨usage, hwatch⟩ := hread none
  rw [List.nil_append] at hwatch
  obtain ⟨s, hend⟩ := advance_terminal modelName
    (s := ⟨(functionCalls items).map FunctionCall.state, usage⟩) (m := foldedOf items) hlast hu hreason rfl
  have hfolded : folded modelName (parts.flatten ++ after ++ [last]) = some
      { foldedOf items with
        usage := some (responsesUsage satAdd32 u)
        finishReason := some (if !(functionCalls items).isEmpty then "tool_calls".toList else "stop".toList) } := by
    have hstart : (foldedOf [] : Folded) = ⟨⟨[], [], [], none⟩, none⟩ := rfl
    have hnew : ResponsesSseState.new = ⟨(functionCalls []).map FunctionCall.state, none⟩ := rfl
    rw [folded, ← hstart, hnew, watch_append, hwatch, Option.bind_some, watch_cons, hend, Option.bind_some, watch_nil,
      Option.map_some, List.isEmpty_map]
  obtain ⟨response, hresponse, hcontent, hreasoning, hcalls, hfinish, hcounts⟩ :=
    responsesToOpenai_eq hvalues hitems hu herror now fallbackModel
  refine ⟨_, response, hfolded, hresponse, ?_, hsum⟩
  constructor
  · exact hcontent.symm
  · exact hreasoning.symm
  · rw [hcalls]
    rfl
  · rw [hfinish]
  · rw [hcounts, ← responsesUsage_eq (hsum u hmember)]

/-! ### The limit on calls -/

/-- The chunk is about calls below the limit. -/
def BelowLimit (chunk : Option UpstreamSseChunk) : Prop :=
  ∀ c ∈ chunk, ∀ payload ∈ c.payload, ∀ d ∈ payload.delta.toolCalls, d.index.getD 0 < maxResponsesToolCalls

theorem findToolCallIndex_lt {calls : List CallState} {itemId callId : Text} {index : Nat}
    (h : findToolCallIndex calls itemId callId = some index) : index < calls.length := by
  rw [findToolCallIndex, Option.map_eq_some_iff] at h
  obtain ⟨i, hi, rfl⟩ := h
  have hlt := (List.findIdx?_eq_some_iff_findIdx_eq.mp hi).1
  rw [List.length_reverse] at hlt
  omega

theorem belowLimit_none : BelowLimit none := by
  intro c hc
  cases hc

theorem belowLimit_noCalls {chunk : UpstreamSseChunk} (h : ∀ payload ∈ chunk.payload, payload.delta.toolCalls = []) :
    BelowLimit (some chunk) := by
  intro c hc payload hpayload d hd
  cases hc
  rw [h payload hpayload] at hd
  cases hd

theorem belowLimit_start {index : Nat} (h : index < maxResponsesToolCalls) (id name : Text) :
    BelowLimit (some (makeToolCallStart index id name)) := by
  intro c hc payload hpayload d hd
  cases hc
  cases hpayload
  rw [List.mem_singleton.mp hd]
  exact h

theorem belowLimit_delta {index : Nat} (h : index < maxResponsesToolCalls) (arguments : Text) :
    BelowLimit (some (makeToolCallDelta index arguments)) := by
  intro c hc payload hpayload d hd
  cases hc
  cases hpayload
  rw [List.mem_singleton.mp hd]
  exact h

theorem belowLimit_liveness : BelowLimit (some .liveness) :=
  belowLimit_noCalls fun payload hpayload => by cases hpayload

theorem belowLimit_textDelta {make : Text → UpstreamSseChunk}
    (hmake : ∀ text, ∀ payload ∈ (make text).payload, payload.delta.toolCalls = []) (v : Json) :
    BelowLimit (some (handleTextDelta make v)) := by
  refine belowLimit_noCalls ?_
  unfold handleTextDelta
  dsimp only
  split_ifs
  · intro payload hpayload
    cases hpayload
  · exact hmake _

section

variable {s : ResponsesSseState} (hs : s.toolCalls.length ≤ maxResponsesToolCalls)

include hs

theorem handleItemAdded_below (item : Json) :
    BelowLimit (handleItemAdded item s).1 ∧ (handleItemAdded item s).2.toolCalls.length ≤ maxResponsesToolCalls := by
  unfold handleItemAdded
  by_cases hcall : itemType item = "function_call".toList
  · rw [if_pos hcall]
    dsimp only
    split
    · rename_i index hindex
      have := findToolCallIndex_lt hindex
      exact ⟨belowLimit_start (by omega) _ _, hs⟩
    · split_ifs with hfull
      · exact ⟨belowLimit_none, hs⟩
      · refine ⟨belowLimit_start (by omega) _ _, ?_⟩
        rw [List.length_append, List.length_singleton]
        omega
  · rw [if_neg hcall]
    split_ifs
    · exact ⟨belowLimit_liveness, hs⟩
    · exact ⟨belowLimit_none, hs⟩

theorem handleArgumentsDelta_below (v : Json) :
    BelowLimit (handleArgumentsDelta v s).1 ∧ (handleArgumentsDelta v s).2.toolCalls.length ≤ maxResponsesToolCalls := by
  unfold handleArgumentsDelta
  split
  · exact ⟨belowLimit_none, hs⟩
  · split_ifs with hempty
    · exact ⟨belowLimit_none, hs⟩
    · have hpos : 0 < s.toolCalls.length := List.length_pos_of_ne_nil fun heq => hempty (by rw [heq]; rfl)
      have hindex : (findToolCallIndex s.toolCalls (eventIds v).1 (eventIds v).2).getD (s.toolCalls.length - 1) <
          s.toolCalls.length := by
        cases hfind : findToolCallIndex s.toolCalls (eventIds v).1 (eventIds v).2 with
        | none =>
          rw [Option.getD_none]
          omega
        | some index => exact findToolCallIndex_lt hfind
      refine ⟨belowLimit_delta (Nat.lt_of_lt_of_le hindex hs) _, ?_⟩
      unfold setArguments
      rw [List.length_modify]
      exact hs

theorem handleArgumentsDone_below (ids : Text × Text) (authoritative : Text) :
    BelowLimit (handleArgumentsDone ids authoritative s).1 ∧
      (handleArgumentsDone ids authoritative s).2.toolCalls.length ≤ maxResponsesToolCalls := by
  unfold handleArgumentsDone
  split
  · exact ⟨belowLimit_none, hs⟩
  · rename_i index hindex
    have := findToolCallIndex_lt hindex
    dsimp only
    refine ⟨?_, ?_⟩
    · split_ifs
      · exact belowLimit_none
      · exact belowLimit_delta (by omega) _
    · rw [setArguments, List.length_modify]
      exact hs

/-- Every event is about calls below the limit, and keeps the number of calls within it. -/
theorem handleEvent_below (v : Json) (usage : Option OpenAIUsage) :
    BelowLimit (handleEvent v usage s).1 ∧ (handleEvent v usage s).2.toolCalls.length ≤ maxResponsesToolCalls := by
  unfold handleEvent
  dsimp only
  split
  · exact ⟨belowLimit_liveness, hs⟩
  split
  · split
    · exact handleItemAdded_below hs _
    · exact ⟨belowLimit_none, hs⟩
  split
  · exact handleArgumentsDelta_below hs v
  split
  · exact handleArgumentsDone_below hs _ _
  split
  · split
    · split
      · exact handleArgumentsDone_below hs _ _
      · exact ⟨belowLimit_none, hs⟩
    · exact ⟨belowLimit_none, hs⟩
  split
  · split
    · exact ⟨belowLimit_none, hs⟩
    · exact ⟨belowLimit_noCalls fun payload hpayload => by cases hpayload; rfl, hs⟩
  split
  · exact ⟨belowLimit_textDelta (fun text payload hpayload => by cases hpayload; rfl) v, hs⟩
  split
  · exact ⟨belowLimit_textDelta (fun text payload hpayload => by cases hpayload; rfl) v, hs⟩
  split
  · exact ⟨belowLimit_noCalls fun payload hpayload => by cases hpayload; rfl, hs⟩
  · exact ⟨belowLimit_none, hs⟩

end

/-- Items below the limit are added to calls below the limit. -/
theorem foldl_addToolCall_lt {n : Nat} {ds : List ToolCallDelta} (h : ∀ d ∈ ds, d.index.getD 0 < n)
    {calls : List (Nat × OpenAIToolCall)} (hcalls : ∀ call ∈ calls, call.1 < n) :
    ∀ call ∈ ds.foldl addToolCall calls, call.1 < n := by
  induction ds generalizing calls with
  | nil => exact hcalls
  | cons d ds ih =>
    rw [List.forall_mem_cons] at h
    refine ih h.2 ?_
    unfold addToolCall
    dsimp only
    split_ifs
    · intro call hcall
      obtain ⟨call', hmem, rfl⟩ := List.mem_map.mp hcall
      have := hcalls call' hmem
      split_ifs <;> exact this
    · intro call hcall
      rcases List.mem_append.mp hcall with hmem | hmem
      · exact hcalls call hmem
      · rw [List.mem_singleton] at hmem
        rw [hmem]
        exact h.1

/-- The calls of the state and of the message are below the limit. -/
def Limited (x : ResponsesSseState × Folded) : Prop :=
  x.1.toolCalls.length ≤ maxResponsesToolCalls ∧ ∀ call ∈ x.2.toolCalls, call.1 < maxResponsesToolCalls

theorem limited_advance {modelName line : Text} {x y : ResponsesSseState × Folded} (hx : Limited x)
    (h : advance modelName x line = some y) : Limited y := by
  have hadd : ∀ chunk, BelowLimit chunk →
      ∀ call ∈ ((chunk.map x.2.add).getD x.2).toolCalls, call.1 < maxResponsesToolCalls := by
    intro chunk hchunk
    cases chunk with
    | none => exact hx.2
    | some c =>
      rw [Option.map_some, Option.getD_some]
      refine foldl_addToolCall_lt ?_ hx.2
      intro d hd
      cases hpayload : c.payload with
      | none =>
        rw [hpayload] at hd
        cases hd
      | some payload =>
        rw [hpayload] at hd
        exact hchunk c rfl payload hpayload d hd
  unfold advance at h
  split at h
  · rename_i chunk s hparse
    cases h
    unfold parseResponsesSseStreamLine at hparse
    split at hparse
    · cases hparse
      exact ⟨hx.1, hadd _ (belowLimit_noCalls fun payload hpayload => by cases hpayload)⟩
    · cases hparse
      exact ⟨hx.1, hadd _ belowLimit_none⟩
    · split at hparse
      · cases hparse
      · rename_i value hread
        split at hparse
        · cases hparse
        · cases hmember : (usageMember value).map (responsesUsage satAdd32) with
          | none =>
            rw [hmember] at hparse
            cases hparse
            obtain ⟨hchunk, hlength⟩ := handleEvent_below hx.1 value none
            exact ⟨hlength, hadd _ hchunk⟩
          | some new =>
            rw [hmember] at hparse
            cases hparse
            obtain ⟨hchunk, hlength⟩ := handleEvent_below (s := ⟨x.1.toolCalls,
              some ((x.1.usage.map fun existing => mergeUsage existing new).getD new)⟩) hx.1 value (some new)
            exact ⟨hlength, hadd _ hchunk⟩
  · cases h

/-- No stream makes more calls than the limit. -/
theorem index_lt_of_folded {modelName : Text} {lines : List Text} {m : Folded} (h : folded modelName lines = some m) :
    ∀ call ∈ m.toolCalls, call.1 < maxResponsesToolCalls := by
  have hrun : ∀ (lines : List Text) (x y : ResponsesSseState × Folded), Limited x →
      watch (advance modelName) x lines = some y → Limited y := by
    intro lines
    induction lines with
    | nil =>
      intro x y hx hy
      cases hy
      exact hx
    | cons line lines ih =>
      intro x y hx hy
      rw [watch_cons, Option.bind_eq_some_iff] at hy
      obtain ⟨z, hz, hy⟩ := hy
      exact ih z y (limited_advance hx hz) hy
  rw [folded, Option.map_eq_some_iff] at h
  obtain ⟨y, hy, rfl⟩ := h
  refine (hrun lines _ y ⟨Nat.zero_le _, ?_⟩ hy).2
  intro call hcall
  cases hcall

/-! ### Concrete streams -/

/-- The line of an event. -/
def eventLine (type : String) (fields : List (Text × Json)) : Text :=
  dataLine (object (fields ++ [("type".toList, string type.toList)]))

theorem isEvent_eventLine {types : List String} {type : String} {holds : Json → Prop} {fields : List (Text × Json)}
    (hmem : type ∈ types) (hdepth : (object (fields ++ [("type".toList, string type.toList)])).depth ≤ 127)
    (hnormal : (object (fields ++ [("type".toList, string type.toList)])).normal =
      object (fields ++ [("type".toList, string type.toList)]))
    (herror : errorMember (object (fields ++ [("type".toList, string type.toList)])) = none)
    (hholds : holds (object (fields ++ [("type".toList, string type.toList)]))) :
    IsEvent types holds (eventLine type fields) := by
  refine ⟨_, ?_, herror, ⟨type, hmem, ?_⟩, hholds⟩
  · have hline := isDocumentLine_dataLine hdepth
    rwa [hnormal] at hline
  · rw [strMember, get_object, getField_append, getField_singleton, if_pos rfl]
    rfl

/-- The value of a call without an item id. -/
def callValue (ident : Text) : Json :=
  object [("arguments".toList, string []), ("call_id".toList, string ident), ("name".toList, string ['f']),
    ("type".toList, string "function_call".toList)]

def callOf (ident : Text) : FunctionCall := ⟨none, some ident, ['f'], []⟩

/-- A response that makes calls. -/
def callsResponse (idents : List Text) : Json :=
  object [("output".toList, array (idents.map callValue)), ("usage".toList, object [])]

/-- A stream of the calls. -/
def callsLines (idents : List Text) : List Text :=
  (idents.map fun ident => eventLine "response.output_item.added" [("item".toList, callValue ident)]) ++
    [eventLine "response.completed" [("response".toList, callsResponse idents)]]

theorem isValue_callValue {ident : Text} (h : ident ≠ []) : (Item.call (callOf ident)).IsValue (callValue ident) :=
  ⟨⟨rfl, rfl, rfl, rfl, h⟩, rfl⟩

theorem functionCalls_map (idents : List Text) :
    functionCalls (idents.map fun ident => .call (callOf ident)) = idents.map callOf := by
  simp [functionCalls, Item.functionCall, Function.comp_def]

theorem streams_calls {idents : List Text} (hne : ∀ ident ∈ idents, ident ≠ []) (hnodup : idents.Nodup) :
    Streams (callsResponse idents) (idents.map fun ident => .call (callOf ident)) (callsLines idents) where
  output := by
    refine ⟨idents.map callValue, rfl, ?_⟩
    rw [List.forall₂_map_left_iff, List.forall₂_map_right_iff, List.forall₂_same]
    exact fun ident hident => isValue_callValue (hne ident hident)
  usage := rfl
  noError := rfl
  distinct := by
    show (functionCalls _).Pairwise DistinctIds
    rw [functionCalls_map, List.pairwise_map]
    refine hnodup.imp fun hdiff => ⟨hdiff, ?_⟩
    intro id hid
    cases hid
  sequence := by
    refine ⟨idents.map fun ident => [eventLine "response.output_item.added" [("item".toList, callValue ident)]], [],
      eventLine "response.completed" [("response".toList, callsResponse idents)], ?_, by simp, ?_, ?_⟩
    · rw [List.forall₂_map_left_iff, List.forall₂_map_right_iff, List.forall₂_same]
      intro ident hident
      have hstart : IsEvent ["response.output_item.added"]
          (fun v => ∃ item, v.get "item".toList = some item ∧ Announces (callOf ident) item)
          (eventLine "response.output_item.added" [("item".toList, callValue ident)]) :=
        isEvent_eventLine (List.mem_singleton_self _) (Nat.le_of_ble_eq_true rfl) rfl rfl
          ⟨callValue ident, rfl, (isValue_callValue (hne ident hident)).1⟩
      exact @StreamsItem.call _ [] [] [] [] _ (by simp) hstart Pieces.nil rfl
        (by simp)
    · have hdepth : itemsDepth (idents.map callValue) ≤ 1 := by
        clear hne hnodup
        induction idents with
        | nil => exact Nat.zero_le _
        | cons ident idents ih => exact max_le (Nat.le_refl _) ih
      have hnormal : normalItems (idents.map callValue) = idents.map callValue := by
        clear hne hnodup hdepth
        induction idents with
        | nil => rfl
        | cons ident idents ih => exact congrArg₂ _ rfl ih
      have hresponse : (callsResponse idents).normal = callsResponse idents := by
        show object [("output".toList, array (normalItems (idents.map callValue))), ("usage".toList, object [])] = _
        rw [hnormal]
        rfl
      refine isEvent_eventLine (by simp) ?_ ?_ rfl ⟨rfl, rfl⟩
      · simp only [callsResponse, depth, fieldsDepth, List.cons_append, List.nil_append]
        omega
      · show object [("response".toList, (callsResponse idents).normal), _] = _
        rw [hresponse]
        rfl
    · rw [List.append_nil, callsLines, ← List.flatMap_def, ← List.map_eq_flatMap]

theorem exists_mem_numbered {calls : List OpenAIToolCall} {n : Nat} (h : n < calls.length) :
    ∃ call, (n, call) ∈ numbered calls := by
  refine ⟨calls[n], List.mem_map.mpr ⟨(calls[n], n), ?_, rfl⟩⟩
  rw [List.mk_mem_zipIdx_iff_getElem?]
  exact List.getElem?_eq_getElem h

/-- More calls than a stream can have. -/
def manyIdents : List Text := (List.range 129).map fun n => List.replicate (n + 1) 'c'

/-- The last one of the calls is not in the message of the stream. -/
theorem not_streamAgrees_manyCalls :
    Streams (callsResponse manyIdents) (manyIdents.map fun ident => .call (callOf ident)) (callsLines manyIdents) ∧
      ¬ StreamAgrees (callsResponse manyIdents) (callsLines manyIdents) := by
  have hne : ∀ ident ∈ manyIdents, ident ≠ [] := by
    intro ident hident
    obtain ⟨n, -, rfl⟩ := List.mem_map.mp hident
    simp
  have hnodup : manyIdents.Nodup := by
    refine List.Nodup.map ?_ List.nodup_range
    intro n k heq
    have hlength := congrArg List.length heq
    simp only [List.length_replicate] at hlength
    omega
  have hstreams := streams_calls hne hnodup
  refine ⟨hstreams, ?_⟩
  intro hagree
  obtain ⟨m, response, hfolded, hresponse, hsame, -⟩ := hagree [] [] 0
  obtain ⟨⟨values, hvalues, hitems⟩, -, herror, -, -⟩ := hstreams
  obtain ⟨response', hresponse', -, -, hcalls, -, -⟩ := responsesToOpenai_eq hvalues hitems rfl herror 0 []
  obtain rfl : response = response' := by
    rw [hresponse] at hresponse'
    exact Except.ok.inj hresponse'
  have hlength : (response.toolCalls.getD []).length = 129 := by
    rw [hcalls, functionCalls_map, List.length_map, List.length_map, manyIdents, List.length_map, List.length_range]
  obtain ⟨call, hcall⟩ := exists_mem_numbered (n := 128) (by omega : 128 < (response.toolCalls.getD []).length)
  rw [← hsame.toolCalls] at hcall
  have hlt := index_lt_of_folded hfolded (128, call) hcall
  exact Nat.lt_irrefl _ hlt

/-- A response with a text and a call. -/
def lookResponse : Json :=
  object [("output".toList, array
      [object [("content".toList, array [object [("text".toList, string ['h', 'i']),
          ("type".toList, string "output_text".toList)]]), ("type".toList, string "message".toList)],
        object [("arguments".toList, string ['7']), ("call_id".toList, string ['c']), ("id".toList, string ['f']),
          ("name".toList, string ['l']), ("type".toList, string "function_call".toList)]]),
    ("usage".toList, object [])]

def lookCall : FunctionCall := ⟨some ['f'], some ['c'], ['l'], ['7']⟩

/-- The announcement of the call. -/
def lookItem : Json :=
  object [("call_id".toList, string ['c']), ("id".toList, string ['f']), ("name".toList, string ['l']),
    ("type".toList, string "function_call".toList)]

/-- The text comes in two deltas, the arguments in one. -/
def lookLines : List Text :=
  [eventLine "response.output_text.delta" [("delta".toList, string ['h'])],
    eventLine "response.output_text.delta" [("delta".toList, string ['i'])],
    eventLine "response.output_item.added" [("item".toList, lookItem)],
    eventLine "response.function_call_arguments.delta" [("delta".toList, string ['7']), ("item_id".toList, string ['f'])],
    eventLine "response.completed" [("response".toList, lookResponse)]]

theorem streams_look : Streams lookResponse [.message ['h', 'i'], .call lookCall] lookLines where
  output := by
    refine ⟨_, rfl, List.Forall₂.cons ⟨rfl, [['h', 'i']], rfl, _, rfl, ?_⟩
      (List.Forall₂.cons ⟨⟨rfl, rfl, rfl, rfl, by decide⟩, rfl⟩ List.Forall₂.nil)⟩
    exact List.Forall₂.cons ⟨rfl, rfl⟩ List.Forall₂.nil
  usage := rfl
  noError := rfl
  distinct := List.pairwise_singleton _ _
  sequence := by
    have htext : ∀ piece : Text, IsTextDelta piece
        (eventLine "response.output_text.delta" [("delta".toList, string piece)]) := fun piece =>
      isEvent_eventLine (by simp) (Nat.le_of_ble_eq_true rfl) rfl rfl rfl
    have hargs : IsArgumentsDelta lookCall ['7'] (eventLine "response.function_call_arguments.delta"
        [("delta".toList, string ['7']), ("item_id".toList, string ['f'])]) :=
      isEvent_eventLine (by simp) (Nat.le_of_ble_eq_true rfl) rfl rfl
        ⟨rfl, List.mem_cons_of_mem _ (List.mem_singleton.mpr rfl), List.mem_cons_self⟩
    have hstart : IsEvent ["response.output_item.added"]
        (fun v => ∃ item, v.get "item".toList = some item ∧ Announces lookCall item)
        (eventLine "response.output_item.added" [("item".toList, lookItem)]) :=
      isEvent_eventLine (by simp) (Nat.le_of_ble_eq_true rfl) rfl rfl ⟨lookItem, rfl, rfl, rfl, rfl, rfl, by decide⟩
    have hcall : StreamsItem (.call lookCall)
        [eventLine "response.output_item.added" [("item".toList, lookItem)],
          eventLine "response.function_call_arguments.delta"
            [("delta".toList, string ['7']), ("item_id".toList, string ['f'])]] :=
      @StreamsItem.call _ [] _ [] [['7']] _ (by simp) hstart
        (Pieces.piece hargs Pieces.nil) rfl (by simp)
    refine ⟨[lookLines.take 2, (lookLines.drop 2).take 2], [], _, ?_, by simp, ?_, rfl⟩
    · exact List.Forall₂.cons
        (@StreamsItem.message [['h'], ['i']] _ (Pieces.piece (htext _) (Pieces.piece (htext _) Pieces.nil)))
        (List.Forall₂.cons hcall List.Forall₂.nil)
    · exact isEvent_eventLine (by simp) (Nat.le_of_ble_eq_true rfl) rfl rfl ⟨rfl, rfl⟩

theorem responses_stream_agrees_look : StreamAgrees lookResponse lookLines := by
  refine responses_stream_agrees streams_look (by decide) ?_ (by decide) ?_
  · intro call hcall
    obtain rfl : lookCall = call := by simpa [functionCalls, Item.functionCall] using hcall
    decide
  · intro usage husage
    cases husage
    decide

end OpenProxy.Upstream.Responses
