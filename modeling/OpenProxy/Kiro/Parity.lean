import OpenProxy.Kiro.ToolCalls

/-!
# Streaming and folding a Kiro body

The message that a client puts together from the chunks of a body, and the response that the body is folded into.  The
content and the finish reason are the same; the tool calls are the same if and only if they arrive in the order of their
ids, each beginning with a use that has a name and no input (`kiro_agree_iff`).
-/

namespace OpenProxy.Kiro

open Upstream hiding OpenAIResponse
open Upstream.Responses hiding CoreError

/-! ### The calls -/

/-- The calls of a message in the order of their indices. -/
def inOrder (calls : List (Nat × OpenAIToolCall)) : List OpenAIToolCall :=
  (calls.insertionSort fun a b => a.1 ≤ b.1).map Prod.snd

theorem mem_inOrder {calls : List (Nat × OpenAIToolCall)} {call : OpenAIToolCall} :
    call ∈ inOrder calls ↔ ∃ idx, (idx, call) ∈ calls := by
  unfold inOrder
  simp only [List.mem_map, (List.perm_insertionSort _ calls).mem_iff, Prod.exists, exists_eq_right]

theorem length_inOrder (calls : List (Nat × OpenAIToolCall)) : (inOrder calls).length = calls.length := by
  rw [inOrder, List.length_map, List.length_insertionSort]

theorem inOrder_numbered (calls : List OpenAIToolCall) : inOrder (numbered calls) = calls := by
  have hsorted : (numbered calls).Pairwise fun a b => a.1 ≤ b.1 := by
    induction calls using List.reverseRecOn with
    | nil => exact List.Pairwise.nil
    | append_singleton calls call ih =>
      rw [numbered_append, List.pairwise_append]
      refine ⟨ih, List.pairwise_singleton _ _, ?_⟩
      intro a ha b hb
      rw [List.mem_singleton] at hb
      have := lt_of_mem_numbered ha
      rw [hb]
      dsimp only
      omega
  have hsnd : (numbered calls).map Prod.snd = calls := by
    rw [numbered, List.map_map]
    exact List.zipIdx_map_fst 0 calls
  rw [inOrder, hsorted.insertionSort_eq, hsnd]

/-- The calls of the response. -/
def toolCallOf (entry : Text × Text × Text) : OpenAIToolCall := ⟨entry.1, entry.2.1, entry.2.2⟩

/-- The calls arrive in the order of their ids, each begins with a use that has a name and no input, and there is an index
for each of them. -/
structure Announced (uses : List ToolUse) : Prop where
  ordered : ((firstUses uses).map ToolUse.toolUseId).Pairwise (· < ·)
  named : ∀ use ∈ firstUses uses, use.name ≠ []
  bare : ∀ use ∈ firstUses uses, use.input = []
  few : (firstUses uses).length ≤ 2 ^ 32

section

variable {uses : List ToolUse}

theorem keys_perm (uses : List ToolUse) :
    ((unaryCalls uses).entries.map Prod.fst).Perm ((firstUses uses).map ToolUse.toolUseId) := by
  have hperm := (unaryCalls_perm uses).map Prod.fst
  rw [List.map_map] at hperm
  exact hperm

/-- If the calls agree, every one of them begins with its name. -/
theorem named_of_agree (hids : ∀ use ∈ uses, use.toolUseId ≠ [])
    (h : inOrder (streamCalls uses).2 = (unaryCalls uses).entries.map toolCallOf) :
    ∀ use ∈ firstUses uses, use.name ≠ [] := by
  intro use huse hname
  have hkey : use.toolUseId ∈ (unaryCalls uses).entries.map Prod.fst :=
    (keys_perm uses).mem_iff.mpr (List.mem_map_of_mem huse)
  obtain ⟨entry, hentry, hid⟩ := List.mem_map.mp hkey
  have hcall : toolCallOf entry ∈ inOrder (streamCalls uses).2 := by
    rw [h]
    exact List.mem_map_of_mem hentry
  obtain ⟨idx, hidx⟩ := mem_inOrder.mp hcall
  rcases (tracks uses).ids _ hidx with hnil | ⟨use', huse', hname', hid'⟩
  · exact hids use (mem_of_mem_firsts _ huse) (hid.symm.trans hnil)
  · have heq := eq_of_mem_firsts _ huse' huse (hid'.symm.trans hid)
    rw [heq] at hname'
    exact hname' hname

/-- If the calls agree, no index is used twice. -/
theorem few_of_agree (h : inOrder (streamCalls uses).2 = (unaryCalls uses).entries.map toolCallOf) :
    (firstUses uses).length ≤ 2 ^ 32 := by
  have hlen := congrArg List.length h
  have hperm := (unaryCalls_perm uses).length_eq
  rw [length_inOrder, List.length_map] at hlen
  rw [List.length_map] at hperm
  have := length_streamCalls_le uses
  omega

/-- The two calls of one use. -/
theorem call_eq_iff {use : ToolUse} (huse : use ∈ firstUses uses) (hname : use.name ≠ []) :
    streamedCall uses use = toolCallOf (use.toolUseId, unaryCall uses use.toolUseId) ↔ use.input = [] := by
  have hof := ofKey_firsts _ huse
  have hnameOf : nameOf (usesOf uses use.toolUseId) = use.name := by
    rw [usesOf, hof, nameOf, List.map_cons, List.find?_cons_of_pos (by simpa using hname), Option.getD_some]
  have hinputOf : inputOf (usesOf uses use.toolUseId) = use.input ++ laterInput uses use.toolUseId := by
    rw [laterInput, usesOf, hof]
    rfl
  unfold streamedCall toolCallOf unaryCall
  rw [hnameOf, hinputOf, OpenAIToolCall.mk.injEq]
  constructor
  · rintro ⟨-, -, h⟩
    exact List.self_eq_append_left.mp h
  · intro h
    rw [h, List.nil_append]
    exact ⟨rfl, rfl, rfl⟩

theorem calls_agree_iff (hids : ∀ use ∈ uses, use.toolUseId ≠ []) :
    inOrder (streamCalls uses).2 = (unaryCalls uses).entries.map toolCallOf ↔ Announced uses := by
  -- Calls in the order of their ids are entries in the order of their keys.
  have hentries : ((firstUses uses).map ToolUse.toolUseId).Pairwise (· < ·) →
      (unaryCalls uses).entries = (firstUses uses).map fun use => (use.toolUseId, unaryCall uses use.toolUseId) := by
    intro hordered
    refine SortedMap.entries_eq_of_perm (unaryCalls_perm uses) ?_
    rw [List.pairwise_map] at hordered ⊢
    exact hordered
  constructor
  · intro h
    have hnamed := named_of_agree hids h
    have hfew := few_of_agree h
    rw [(streamCalls_eq hnamed hfew).calls, inOrder_numbered] at h
    have hordered : ((firstUses uses).map ToolUse.toolUseId).Pairwise (· < ·) := by
      have hsorted := (unaryCalls uses).sorted
      rw [← ids_streamedCalls, h, List.map_map, List.pairwise_map]
      exact hsorted
    rw [hentries hordered, List.map_map] at h
    have hcalls := List.map_inj_left.mp h
    exact ⟨hordered, hnamed, fun use huse => (call_eq_iff huse (hnamed use huse)).mp (hcalls use huse), hfew⟩
  · intro h
    rw [(streamCalls_eq h.named h.few).calls, inOrder_numbered, hentries h.ordered, List.map_map]
    exact List.map_congr_left fun use huse => (call_eq_iff huse (h.named use huse)).mpr (h.bare use huse)

end

/-! ### The frames -/

/-- The text of an event. -/
def textOf (frame : KiroFrameEvent) : Text :=
  if frame.eventType = .assistantResponse then
    ((fromSlice frame.payload).bind fun json => strMember json "content").getD []
  else []

/-- The tool use of an event. -/
def toolUseOf (frame : KiroFrameEvent) : Option ToolUse :=
  if frame.eventType = .toolUse then (fromSlice frame.payload).map ToolUse.ofJson else none

theorem textOf_of_toolUse {frame : KiroFrameEvent} {use : ToolUse} (h : toolUseOf frame = some use) :
    textOf frame = [] := by
  unfold toolUseOf at h
  split at h
  · rename_i htype
    rw [textOf, htype]
    rfl
  · cases h

/-- The chunk of a tool use changes the calls only. -/
theorem add_toolUseToChunk (state : KiroStreamState) (use : ToolUse) (m : Folded) :
    ((toolUseToChunk state use).1.map m.add).getD m =
      { m with toolCalls := (advanceUse (state, m.toolCalls) use).2 } := by
  have hstart : ∀ idx, m.add (makeToolCallStart idx use.toolUseId use.name) =
      { m with toolCalls := addToolCall m.toolCalls ⟨some idx, some use.toolUseId, some use.name, []⟩ } := by
    intro idx
    simp [Folded.add, Streamed.add, makeToolCallStart, UpstreamSseChunk.ofDelta]
  have hdelta : ∀ idx, m.add (makeToolCallDelta idx use.input) =
      { m with toolCalls := addToolCall m.toolCalls ⟨some idx, none, none, use.input⟩ } := by
    intro idx
    simp [Folded.add, Streamed.add, makeToolCallDelta, UpstreamSseChunk.ofDelta]
  unfold advanceUse toolUseToChunk
  dsimp only
  split
  · exact hstart _
  · split
    · exact hdelta _
    · rfl

/-- An event other than the last one. -/
theorem advance_eq {frame : KiroFrameEvent} (h : frame.eventType ≠ .messageStop) (x : KiroStreamState × Folded) :
    advance x frame =
      match toolUseOf frame with
      | some use =>
        let y := advanceUse (x.1, x.2.toolCalls) use
        (y.1, { x.2 with toolCalls := y.2 })
      | none => (x.1, { x.2 with content := x.2.content ++ textOf frame }) := by
  obtain ⟨eventType, payload⟩ := frame
  have hsilent : (x.1, { x.2 with content := x.2.content ++ [] }) = x := by
    rw [List.append_nil]
  cases eventType with
  | assistantResponse =>
    simp only [advance, kiroFrameToChunk, textOf, toolUseOf, if_pos, reduceCtorEq, if_false]
    cases (fromSlice payload).bind fun json => strMember json "content" with
    | none => exact hsilent.symm
    | some text =>
      cases text with
      | nil => exact hsilent.symm
      | cons c text => simp [Folded.add, Streamed.add, makeTextDelta, UpstreamSseChunk.ofDelta]
  | toolUse =>
    simp only [advance, kiroFrameToChunk, textOf, toolUseOf, if_pos, reduceCtorEq, if_false]
    cases fromSlice payload with
    | none => exact hsilent.symm
    | some json => exact congrArg (Prod.mk _) (add_toolUseToChunk x.1 (ToolUse.ofJson json) x.2)
  | messageStop => exact absurd rfl h
  | contextUsage => exact hsilent.symm
  | metering => exact hsilent.symm
  | other name => exact hsilent.symm

theorem foldl_advance {frames : List KiroFrameEvent} (h : ∀ frame ∈ frames, frame.eventType ≠ .messageStop)
    (x : KiroStreamState × Folded) :
    frames.foldl advance x =
      let y := (frames.filterMap toolUseOf).foldl advanceUse (x.1, x.2.toolCalls)
      (y.1, { x.2 with content := x.2.content ++ frames.flatMap textOf, toolCalls := y.2 }) := by
  induction frames generalizing x with
  | nil =>
    rw [List.foldl_nil, List.flatMap_nil, List.append_nil]
    rfl
  | cons frame frames ih =>
    rw [List.foldl_cons, ih fun frame' h' => h frame' (List.mem_cons_of_mem _ h'), advance_eq (h frame List.mem_cons_self),
      List.flatMap_cons]
    cases huse : toolUseOf frame with
    | some use =>
      rw [List.filterMap_cons_some huse, textOf_of_toolUse huse]
      rfl
    | none =>
      rw [List.filterMap_cons_none huse, ← List.append_assoc]

/-- An event of a body that is read at once. -/
theorem add_eq {frame : KiroFrameEvent} (hids : ∀ use, toolUseOf frame = some use → use.toolUseId ≠ []) (fold : KiroFold) :
    fold.add frame =
      match toolUseOf frame with
      | some use => { fold with toolCallsMap := fold.toolCallsMap.upsert use.toolUseId use.entry }
      | none => { fold with content := fold.content ++ textOf frame } := by
  obtain ⟨eventType, payload⟩ := frame
  have hsilent : { fold with content := fold.content ++ [] } = fold := by
    rw [List.append_nil]
  cases eventType with
  | assistantResponse =>
    simp only [KiroFold.add, textOf, toolUseOf, if_pos, reduceCtorEq, if_false]
    cases (fromSlice payload).bind fun json => strMember json "content" with
    | none => exact hsilent.symm
    | some text => rfl
  | toolUse =>
    simp only [KiroFold.add, textOf, toolUseOf, if_pos, reduceCtorEq, if_false] at hids ⊢
    cases hjson : fromSlice payload with
    | none => exact hsilent.symm
    | some json =>
      have hid := hids (ToolUse.ofJson json) (by rw [hjson, Option.map_some])
      simp only [Option.map_some]
      rw [if_neg (by rw [List.isEmpty_iff]; exact hid)]
  | messageStop => exact hsilent.symm
  | contextUsage => exact hsilent.symm
  | metering => exact hsilent.symm
  | other name => exact hsilent.symm

theorem foldl_add {frames : List KiroFrameEvent}
    (hids : ∀ frame ∈ frames, ∀ use, toolUseOf frame = some use → use.toolUseId ≠ []) (fold : KiroFold) :
    frames.foldl KiroFold.add fold =
      { content := fold.content ++ frames.flatMap textOf
        toolCallsMap := (frames.filterMap toolUseOf).foldl
          (fun calls use => calls.upsert use.toolUseId use.entry) fold.toolCallsMap } := by
  induction frames generalizing fold with
  | nil =>
    rw [List.foldl_nil, List.flatMap_nil, List.append_nil]
    rfl
  | cons frame frames ih =>
    rw [List.foldl_cons, ih fun frame' h' => hids frame' (List.mem_cons_of_mem _ h'),
      add_eq (hids frame List.mem_cons_self), List.flatMap_cons]
    cases huse : toolUseOf frame with
    | some use =>
      rw [List.filterMap_cons_some huse, textOf_of_toolUse huse]
      rfl
    | none =>
      rw [List.filterMap_cons_none huse, ← List.append_assoc]

/-- The messages of a body are read one after the other. -/
theorem foldFrames_encode (crc : Bytes → UInt32) (messages : List Message) (fold : KiroFold) :
    foldFrames crc fold (messages.flatMap fun m => m.encode crc) =
      .ok ((messages.map Message.event).foldl KiroFold.add fold) := by
  induction messages generalizing fold with
  | nil =>
    rw [List.flatMap_nil, foldFrames]
    split
    · rename_i heq
      cases heq
    · rfl
    · rename_i heq
      cases heq
  | cons m messages ih =>
    have hnext := nextFrame_encode crc m (messages.flatMap fun m => m.encode crc)
    rw [List.flatMap_cons, foldFrames]
    split
    · rename_i heq
      rw [hnext] at heq
      cases heq
    · rename_i heq
      rw [hnext] at heq
      cases heq
    · rename_i heq
      rw [hnext] at heq
      cases heq
      rw [ih, List.map_cons, List.foldl_cons]

/-! ### Agreement -/

/-- A body: messages none of which stops it, and the one that does.  A tool use that can be read has an id. -/
structure KiroBody where
  messages : List Message
  stop : Message
  goesOn : ∀ m ∈ messages, m.event.eventType ≠ .messageStop
  stops : stop.event.eventType = .messageStop
  ids : ∀ m ∈ messages, ∀ use, toolUseOf m.event = some use → use.toolUseId ≠ []

namespace KiroBody

variable (b : KiroBody)

/-- The bytes of the body. -/
def encode (crc : Bytes → UInt32) : Bytes := (b.messages ++ [b.stop]).flatMap fun m => m.encode crc

/-- The events of the body. -/
def events : List KiroFrameEvent := (b.messages ++ [b.stop]).map Message.event

/-- The tool uses of the body. -/
def uses : List ToolUse := (b.messages.map Message.event).filterMap toolUseOf

/-- The content of the body. -/
def content : Text := (b.messages.map Message.event).flatMap textOf

theorem ids_uses : ∀ use ∈ b.uses, use.toolUseId ≠ [] := by
  intro use huse
  obtain ⟨frame, hframe, huse⟩ := List.mem_filterMap.mp huse
  obtain ⟨m, hm, rfl⟩ := List.mem_map.mp hframe
  exact b.ids m hm use huse

/-- The reason why the body ends. -/
def finishReason : Text := if b.uses.isEmpty then "stop".toList else "tool_calls".toList

/-- The message of the stream. -/
theorem streamed_events :
    streamed b.events = ⟨⟨b.content, [], (streamCalls b.uses).2, none⟩, some b.finishReason⟩ := by
  have hgoesOn : ∀ frame ∈ b.messages.map Message.event, frame.eventType ≠ .messageStop := by
    intro frame hframe
    obtain ⟨m, hm, rfl⟩ := List.mem_map.mp hframe
    exact b.goesOn m hm
  have hsaw := (tracks b.uses).saw
  have hfinish : (if (streamCalls b.uses).1.sawToolCalls then "tool_calls".toList else "stop".toList) = b.finishReason := by
    rw [hsaw, finishReason]
    cases b.uses <;> rfl
  unfold streamed events
  rw [List.map_append, List.foldl_append, foldl_advance hgoesOn, List.map_singleton, List.foldl_cons, List.foldl_nil]
  have hrun : ((b.messages.map Message.event).filterMap toolUseOf).foldl advanceUse (KiroStreamState.new, []) =
      streamCalls b.uses := rfl
  dsimp only
  rw [hrun, List.nil_append]
  simp only [advance, kiroFrameToChunk, b.stops, kiroDoneChunk, hfinish]
  simp [Folded.add, Streamed.add, content]

/-- The response of the body. -/
theorem fold_encode (crc : Bytes → UInt32) (now : Nat) (uuid modelName : Text) :
    foldKiroBodyToOpenaiResponse crc now uuid (b.encode crc) modelName =
      let toolCalls := (unaryCalls b.uses).entries.map toolCallOf
      .ok
        { id := "chatcmpl_".toList ++ uuid
          created := now
          model := modelName
          role := "assistant".toList
          content := some b.content
          reasoning := none
          toolCalls := if toolCalls.isEmpty then none else some toolCalls
          finishReason := b.finishReason
          usage := none } := by
  have hids : ∀ frame ∈ b.messages.map Message.event, ∀ use, toolUseOf frame = some use → use.toolUseId ≠ [] := by
    intro frame hframe
    obtain ⟨m, hm, rfl⟩ := List.mem_map.mp hframe
    exact b.ids m hm
  have hstop : ∀ fold : KiroFold, fold.add b.stop.event = fold := by
    intro fold
    simp only [KiroFold.add, b.stops]
  have hfold : foldFrames crc ⟨[], .empty⟩ (b.encode crc) = .ok ⟨b.content, unaryCalls b.uses⟩ := by
    unfold encode
    rw [foldFrames_encode, List.map_append, List.foldl_append, foldl_add hids, List.map_singleton, List.foldl_cons,
      List.foldl_nil, hstop]
    rfl
  have hempty : ((unaryCalls b.uses).entries.map toolCallOf).isEmpty = b.uses.isEmpty := by
    have hlen := (unaryCalls_perm b.uses).length_eq
    rw [List.length_map] at hlen
    cases huses : b.uses with
    | nil => rfl
    | cons use uses =>
      have hkey : use.toolUseId ∈ (firstUses (use :: uses)).map ToolUse.toolUseId :=
        (mem_keys_firsts _).mpr ⟨use, List.mem_cons_self, rfl⟩
      obtain ⟨first, hfirst, -⟩ := List.mem_map.mp hkey
      have hpos := List.length_pos_of_mem hfirst
      rw [huses] at hlen
      rw [List.isEmpty_cons, List.isEmpty_eq_false_iff_exists_mem]
      obtain ⟨entry, hentry⟩ := List.exists_mem_of_length_pos (hlen ▸ hpos)
      exact ⟨_, List.mem_map_of_mem hentry⟩
  unfold foldKiroBodyToOpenaiResponse
  rw [hfold]
  have hfinish : (if ((unaryCalls b.uses).entries.map toolCallOf).isEmpty then "stop".toList else "tool_calls".toList) =
      b.finishReason := by
    rw [hempty]
    rfl
  dsimp only
  rw [← hfinish]
  rfl

end KiroBody

/-- The message of the stream is the one of the response. -/
structure Agree (m : Folded) (response : OpenAIResponse) : Prop where
  content : m.content = response.content.getD []
  toolCalls : inOrder m.toolCalls = response.toolCalls.getD []
  finishReason : m.finishReason = some response.finishReason

/-- Streaming a body and folding it give the same message. -/
def Agrees (crc : Bytes → UInt32) (b : KiroBody) : Prop :=
  ∀ now uuid modelName, ∃ response,
    foldKiroBodyToOpenaiResponse crc now uuid (b.encode crc) modelName = .ok response ∧ Agree (streamed b.events) response

theorem agrees_iff_calls (crc : Bytes → UInt32) (b : KiroBody) :
    Agrees crc b ↔ inOrder (streamCalls b.uses).2 = (unaryCalls b.uses).entries.map toolCallOf := by
  constructor
  · intro h
    obtain ⟨response, hresponse, hagree⟩ := h 0 [] []
    rw [b.fold_encode] at hresponse
    have hcalls := hagree.toolCalls
    rw [← Except.ok.inj hresponse, b.streamed_events] at hcalls
    exact hcalls.trans (getD_unless_empty _)
  · intro h now uuid modelName
    refine ⟨_, b.fold_encode crc now uuid modelName, ?_⟩
    rw [b.streamed_events]
    exact ⟨rfl, h.trans (getD_unless_empty _).symm, rfl⟩

/-- Streaming and folding agree if and only if the calls are announced. -/
theorem kiro_agree_iff (crc : Bytes → UInt32) (b : KiroBody) : Agrees crc b ↔ Announced b.uses :=
  (agrees_iff_calls crc b).trans (calls_agree_iff b.ids_uses)

/-! ### A call that begins with its input -/

/-- The event of a tool use. -/
def toolUseJson (use : ToolUse) : Json :=
  .object [("toolUseId".toList, .string use.toolUseId), ("name".toList, .string use.name),
    ("input".toList, .string use.input)]

theorem ofJson_toolUseJson (use : ToolUse) : ToolUse.ofJson (toolUseJson use).normal = use := by
  have hmember : ∀ (key : String) (value : Text),
      Json.getField [("toolUseId".toList, .string use.toolUseId), ("name".toList, .string use.name),
        ("input".toList, .string use.input)] key.toList = some (.string value) →
      strMember (toolUseJson use).normal key = some value := by
    intro key value h
    have hget : (toolUseJson use).normal.get key.toList = some (.string value) :=
      (Json.getField_normalFields _ _).trans (by rw [h]; rfl)
    rw [strMember, hget]
    rfl
  unfold ToolUse.ofJson
  rw [hmember "toolUseId" use.toolUseId rfl, hmember "name" use.name rfl, hmember "input" use.input rfl]
  rfl

theorem toolUseOf_json (headers : List (Text × Text)) (use : ToolUse)
    (h : eventTypeOf (headers.foldl (fun map header => map.insert header.1 header.2) ∅) = .toolUse) :
    toolUseOf ⟨eventTypeOf (headers.foldl (fun map header => map.insert header.1 header.2) ∅),
      asBytes (write (toolUseJson use))⟩ = some use := by
  have hdepth : (toolUseJson use).depth ≤ 127 := by
    simp [toolUseJson, Json.depth, Json.fieldsDepth]
  rw [toolUseOf, if_pos h, fromSlice, fromUtf8_asBytes, Option.bind_some, Json.fromStr_write hdepth, Option.map_some,
    ofJson_toolUseJson]

/-- The name and all of the input are in one event. -/
def lookUse : ToolUse := ⟨"tooluse_1".toList, "look".toList, "\x7b\x7d".toList⟩

def lookMessage : Message where
  headers := [(":event-type".toList, "toolUseEvent".toList)]
  payload := asBytes (write (toolUseJson lookUse))
  headersFit := by decide
  fits := by decide

def stopMessage : Message where
  headers := [(":event-type".toList, "messageStopEvent".toList)]
  payload := asBytes "\x7b\x7d".toList
  headersFit := by decide
  fits := by decide

theorem toolUseOf_lookMessage : toolUseOf lookMessage.event = some lookUse :=
  toolUseOf_json [(":event-type".toList, "toolUseEvent".toList)] lookUse (by decide)

def lookBody : KiroBody where
  messages := [lookMessage]
  stop := stopMessage
  goesOn := by
    intro m hm
    rw [List.mem_singleton.mp hm]
    decide
  stops := by decide
  ids := by
    intro m hm use huse
    rw [List.mem_singleton.mp hm, toolUseOf_lookMessage] at huse
    rw [← Option.some.inj huse]
    decide

theorem not_agrees_lookBody : ¬ ∃ crc, Agrees crc lookBody := by
  rintro ⟨crc, h⟩
  rw [agrees_iff_calls] at h
  have huses : lookBody.uses = [lookUse] := by
    rw [KiroBody.uses, lookBody, List.map_singleton, List.filterMap_cons_some toolUseOf_lookMessage, List.filterMap_nil]
  rw [huses] at h
  revert h
  decide

end OpenProxy.Kiro
