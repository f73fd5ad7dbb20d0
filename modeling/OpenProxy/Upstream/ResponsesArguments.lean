import OpenProxy.Upstream.ResponsesParity
import Mathlib.Data.List.Pairwise

/-!
# Arguments of interleaved calls

The events of several calls of a Responses stream in any order, each call announced once, its arguments streamed in
pieces or not, and then repeated as a whole.  `emitted` has what the parser writes for the lines.  The parser holds a copy
of the arguments of each call, which leaves out the pieces that do not fit into a mebibyte, while it writes these
pieces too.  So a client gets the arguments once unless the copy that is left is the beginning of arguments that are
longer (`delivered_iff`).
-/

namespace OpenProxy.Upstream.Responses

open Json

/-! ### Events of calls -/

/-- A `function_call` item with both of its ids. -/
structure AddedCall where
  itemId : Text
  callId : Text
  name : Text
  arguments : Text
  itemId_ne : itemId ≠ []
  callId_ne : callId ≠ []
  deriving DecidableEq

/-- What a line says about calls. -/
inductive Label
  | added (c : AddedCall)
  | delta (c : AddedCall) (piece : Text)
  | done (c : AddedCall)
  | other
  deriving DecidableEq

/-- The call that a line is about. -/
def Label.call : Label → Option AddedCall
  | added c | delta c _ | done c => some c
  | other => none

/-- The ids name the call, by one of its ids or by both. -/
def Identifies (c : AddedCall) (ids : Text × Text) : Prop :=
  ids.1 ∈ [[], c.itemId] ∧ ids.2 ∈ [[], c.callId] ∧ ids ≠ ([], [])

/-- The value is the item of the call. -/
structure IsItem (c : AddedCall) (item : Json) : Prop where
  type : itemType item = "function_call".toList
  id : strMember item "id" = some c.itemId
  callId : strMember item "call_id" = some c.callId

/-- The event is about a call. -/
def IsCallEvent (v : Json) : Prop :=
  (strMember v "type").getD [] ∈
      ["response.function_call_arguments.delta".toList, "response.function_call_arguments.done".toList] ∨
    ((strMember v "type").getD [] ∈ ["response.output_item.added".toList, "response.output_item.done".toList] ∧
      ∃ item, v.get "item".toList = some item ∧ itemType item = "function_call".toList)

/-- The line says what the label has. -/
def Label.Carries : Label → Text → Prop
  | added c, line => IsEvent ["response.output_item.added"]
    (fun v => ∃ item, v.get "item".toList = some item ∧ IsItem c item ∧ (strMember item "name").getD [] = c.name) line
  | delta c piece, line => IsEvent ["response.function_call_arguments.delta"]
    (fun v => strMember v "delta" = some piece ∧ Identifies c (eventIds v)) line
  | done c, line =>
    IsEvent ["response.function_call_arguments.done"]
      (fun v => strMember v "arguments" = some c.arguments ∧ Identifies c (eventIds v)) line ∨
    IsEvent ["response.output_item.done"]
      (fun v => ∃ item, v.get "item".toList = some item ∧ IsItem c item ∧ strMember item "arguments" = some c.arguments)
      line
  | other, line => ∀ v, IsDocumentLine v line → errorMember v = none → ¬ IsCallEvent v

/-- The labels about a call. -/
def AddedCall.events (c : AddedCall) (ls : List Label) : List Label := ls.filter fun l => l.call = some c

/-- The pieces in which the arguments of the call are streamed. -/
def AddedCall.pieces (c : AddedCall) (ls : List Label) : List Text :=
  ls.filterMap fun
    | .delta c' piece => if c' = c then some piece else none
    | _ => none

/-- The calls and the lines of a stream, each line with what it says.  The events of a call are its announcement, the
pieces of its arguments, if any, and the whole arguments, once or several times. -/
structure CallStream (calls : List AddedCall) (script : List (Label × Text)) : Prop where
  distinct : (calls.flatMap fun c => [c.itemId, c.callId]).Nodup
  count : calls.length ≤ maxResponsesToolCalls
  carried : ∀ p ∈ script, p.1.Carries p.2
  known : ∀ p ∈ script, ∀ c, p.1.call = some c → c ∈ calls
  shape : ∀ c ∈ calls, ∃ pieces n, c.events (script.map Prod.fst) =
      .added c :: (pieces.map (Label.delta c) ++ List.replicate (n + 1) (.done c)) ∧
    (pieces = [] ∨ pieces.flatten = c.arguments)

/-! ### What the parser writes -/

/-- The items of `tool_calls` in the result for a line. -/
def Parsed.toolDeltas : Parsed → List ToolCallDelta
  | .ok (some chunk) => chunk.toolDeltas
  | _ => []

/-- One line. -/
def advanceDeltas (modelName : Text) (x : List ToolCallDelta × ResponsesSseState) (line : Text) :
    List ToolCallDelta × ResponsesSseState :=
  let (result, state) := parseResponsesSseStreamLine modelName line x.2
  (x.1 ++ result.toolDeltas, state)

/-- The items of `tool_calls` that the lines lead to, and the state after them. -/
def emitted (modelName : Text) (lines : List Text) : List ToolCallDelta × ResponsesSseState :=
  lines.foldl (advanceDeltas modelName) ([], .new)

/-- The arguments come once under the index under which the call is announced. -/
def AddedCall.Delivered (c : AddedCall) (ds : List ToolCallDelta) : Prop :=
  ∃ d ∈ ds, ∃ i, d.index = some i ∧ d.id = some c.callId ∧ argumentsAt i ds = c.arguments

/-- The pieces that fit below the cap, after what is held already. -/
def fitting (held : Text) (pieces : List Text) : Text :=
  pieces.foldl (fun held piece =>
    if maxResponsesToolCallArgsBytes < utf8Len held + utf8Len piece then held else held ++ piece) held

/-- The arguments are not streamed, or fit below the cap, or do not begin with what fits of them. -/
def AddedCall.Fits (c : AddedCall) (pieces : List Text) : Prop :=
  pieces = [] ∨ utf8Len c.arguments ≤ maxResponsesToolCallArgsBytes ∨ ¬ fitting [] pieces <+: c.arguments

theorem emitted_concat (modelName : Text) (lines : List Text) (line : Text) :
    emitted modelName (lines ++ [line]) = advanceDeltas modelName (emitted modelName lines) line := by
  rw [emitted, List.foldl_append]
  rfl

/-! ### Calls and their ids -/

/-- What the parser holds of a call, with the copy of its arguments. -/
def AddedCall.entry (c : AddedCall) (held : Text) : CallState := ⟨c.callId, c.itemId, c.name, held⟩

/-- The index of the only call with one of the ids. -/
theorem findToolCallIndex_eq {calls : List CallState} {itemId callId : Text} {i : Nat} {tc : CallState}
    (h : calls[i]? = some tc) (hid : tc.hasId itemId callId = true)
    (hother : ∀ j tc', calls[j]? = some tc' → tc'.hasId itemId callId = true → j = i) :
    findToolCallIndex calls itemId callId = some i := by
  obtain ⟨hlt, rfl⟩ := List.getElem?_eq_some_iff.mp h
  have hfind : calls.reverse.findIdx? (CallState.hasId itemId callId) = some (calls.length - 1 - i) := by
    rw [List.findIdx?_eq_some_iff_getElem]
    refine ⟨by rw [List.length_reverse]; omega, ?_, fun j hj => ?_⟩
    · rw [List.getElem_reverse]
      have hindex : calls.length - 1 - (calls.length - 1 - i) = i := by omega
      simp only [hindex]
      exact hid
    · rw [List.getElem_reverse]
      intro hbad
      have hsame := hother (calls.length - 1 - j) _ (List.getElem?_eq_getElem _) hbad
      omega
  rw [findToolCallIndex, hfind, Option.map_some]
  congr 1
  omega

/-- Both ids of a call identify it. -/
theorem identifies_own (c : AddedCall) : Identifies c (c.itemId, c.callId) :=
  ⟨by simp, by simp, fun heq => c.itemId_ne (congrArg Prod.fst heq)⟩

theorem itemIds_eq {c : AddedCall} {item : Json} (h : IsItem c item) : itemIds item = (c.itemId, c.callId) := by
  unfold itemIds
  rw [h.id, h.callId]
  rfl

theorem hasId_own {c : AddedCall} {ids : Text × Text} (h : Identifies c ids) (held : Text) :
    (c.entry held).hasId ids.1 ids.2 = true := by
  obtain ⟨itemId, callId⟩ := ids
  obtain ⟨hitem, hcall, hne⟩ := h
  simp only [List.mem_cons, List.not_mem_nil, or_false] at hitem hcall
  have := c.itemId_ne
  have := c.callId_ne
  rcases hitem with rfl | rfl <;> rcases hcall with rfl | rfl <;>
    simp_all [CallState.hasId, AddedCall.entry]

section

variable {calls : List AddedCall} (hdistinct : (calls.flatMap fun c => [c.itemId, c.callId]).Nodup)
include hdistinct

/-- Calls that share an id are the same. -/
theorem eq_of_hasId {c c' : AddedCall} (hc : c ∈ calls) (hc' : c' ∈ calls) {ids : Text × Text} (h : Identifies c ids)
    {held : Text} (hid : (c'.entry held).hasId ids.1 ids.2 = true) : c' = c := by
  by_contra hne
  rw [List.nodup_flatMap] at hdistinct
  have hdisjoint : Function.onFun List.Disjoint (fun c : AddedCall => [c.itemId, c.callId]) c' c := by
    have hsymm : Std.Symm (Function.onFun List.Disjoint fun c : AddedCall => [c.itemId, c.callId]) :=
      ⟨fun _ _ => List.Disjoint.symm⟩
    exact hdistinct.2.forall hc' hc hne
  obtain ⟨hitem, hcall, -⟩ := h
  simp only [List.mem_cons, List.not_mem_nil, or_false] at hitem hcall
  simp only [CallState.hasId, AddedCall.entry, Bool.or_eq_true, Bool.and_eq_true, beq_iff_eq, Bool.not_eq_true',
    List.isEmpty_eq_false_iff] at hid
  rcases hid with ⟨hsome, heq⟩ | ⟨hsome, heq⟩
  · have hown : c'.itemId = c.itemId := heq.trans (hitem.resolve_left hsome)
    exact hdisjoint (a := c'.itemId) (by simp) (by simp [hown])
  · have hown : c'.callId = c.callId := heq.trans (hcall.resolve_left hsome)
    exact hdisjoint (a := c'.callId) (by simp) (by simp [hown])

theorem callId_inj {c c' : AddedCall} (hc : c ∈ calls) (hc' : c' ∈ calls) (h : c'.callId = c.callId) : c' = c := by
  have hself : Identifies c ([], c.callId) := ⟨by simp, by simp, fun heq => c.callId_ne (congrArg Prod.snd heq)⟩
  have hid : (c'.entry []).hasId [] c.callId = true := by simp [CallState.hasId, AddedCall.entry, h, c.callId_ne]
  exact eq_of_hasId hdistinct hc hc' hself hid

end

/-! ### One line -/

section

variable {modelName line : Text} {ds : List ToolCallDelta} {calls calls' : List CallState} {usage : Option OpenAIUsage}

/-- An event leads to the items of its chunk. -/
theorem advanceDeltas_event (modelName : Text) (ds : List ToolCallDelta) (usage : Option OpenAIUsage) {v : Json}
    (hline : IsDocumentLine v line) (herror : errorMember v = none) {chunk : Option UpstreamSseChunk}
    (h : ∀ usage usage', handleEvent v usage ⟨calls, usage'⟩ = (chunk, ⟨calls', usage'⟩)) :
    ∃ usage', advanceDeltas modelName (ds, ⟨calls, usage⟩) line =
      (ds ++ Parsed.toolDeltas (.ok chunk), ⟨calls', usage'⟩) := by
  obtain ⟨data, hdata, hread⟩ := hline
  cases hmember : (usageMember v).map (responsesUsage satAdd32) with
  | none => exact ⟨usage, by simp [advanceDeltas, parseResponsesSseStreamLine, hdata, hread, herror, hmember, h]⟩
  | some new =>
    exact ⟨some ((usage.map fun existing => mergeUsage existing new).getD new),
      by simp [advanceDeltas, parseResponsesSseStreamLine, hdata, hread, herror, hmember, h]⟩

theorem toolDeltas_textDelta {make : Text → UpstreamSseChunk} (hmake : ∀ text, (make text).toolDeltas = []) (v : Json) :
    Parsed.toolDeltas (.ok (some (handleTextDelta make v))) = [] := by
  unfold handleTextDelta Parsed.toolDeltas
  dsimp only
  split
  · rfl
  · exact hmake _

/-- An event that is not about a call leaves the calls as they are. -/
theorem handleEvent_noCall {v : Json} (h : ¬ IsCallEvent v) (usage : Option OpenAIUsage) (s : ResponsesSseState) :
    Parsed.toolDeltas (.ok (handleEvent v usage s).1) = [] ∧ (handleEvent v usage s).2 = s := by
  unfold IsCallEvent at h
  simp only [List.mem_cons, List.not_mem_nil, or_false, not_or, not_and, not_exists] at h
  obtain ⟨⟨hdelta, hargs⟩, hitem⟩ := h
  unfold handleEvent
  dsimp only
  split
  · exact ⟨rfl, rfl⟩
  split
  · rename_i htype
    split
    · rename_i item hmember
      unfold handleItemAdded
      rw [if_neg (hitem (Or.inl htype) item hmember)]
      split <;> exact ⟨rfl, rfl⟩
    · exact ⟨rfl, rfl⟩
  split
  · rename_i htype
    split
    · rename_i item hmember
      rw [if_neg (hitem (Or.inr htype) item hmember)]
      exact ⟨rfl, rfl⟩
    · exact ⟨rfl, rfl⟩
  split
  · split <;> exact ⟨rfl, rfl⟩
  split
  · exact ⟨toolDeltas_textDelta (fun _ => rfl) v, rfl⟩
  split
  · exact ⟨toolDeltas_textDelta (fun _ => rfl) v, rfl⟩
  split
  · exact ⟨rfl, rfl⟩
  · exact ⟨rfl, rfl⟩

theorem advanceDeltas_other (modelName : Text) (ds : List ToolCallDelta) (calls : List CallState)
    (usage : Option OpenAIUsage) (h : Label.other.Carries line) :
    ∃ usage', advanceDeltas modelName (ds, ⟨calls, usage⟩) line = (ds, ⟨calls, usage'⟩) := by
  cases hline : parseSseDataOrDone line with
  | skip => exact ⟨usage, by simp [advanceDeltas, parseResponsesSseStreamLine, hline, Parsed.toolDeltas]⟩
  | done =>
    exact ⟨usage, by simp [advanceDeltas, parseResponsesSseStreamLine, hline, Parsed.toolDeltas,
      UpstreamSseChunk.toolDeltas, doneChunk]⟩
  | payload data =>
    cases hread : fromStr data with
    | none => exact ⟨usage, by simp [advanceDeltas, parseResponsesSseStreamLine, hline, hread, Parsed.toolDeltas]⟩
    | some v =>
      cases herror : errorMember v with
      | some error =>
        exact ⟨usage, by simp [advanceDeltas, parseResponsesSseStreamLine, hline, hread, herror, Parsed.toolDeltas]⟩
      | none =>
        have hno : ¬ IsCallEvent v := h v ⟨data, hline, hread⟩ herror
        simp only [advanceDeltas, parseResponsesSseStreamLine, hline, hread, herror]
        rw [(handleEvent_noCall hno _ _).1, (handleEvent_noCall hno _ _).2, List.append_nil]
        split
        · exact ⟨_, rfl⟩
        · exact ⟨_, rfl⟩

end

/-! ### What the labels lead to -/

/-- The calls that have been announced. -/
def addedCalls (ls : List Label) : List AddedCall :=
  ls.filterMap fun
    | .added c => some c
    | _ => none

/-- What a label does to the copy of the arguments of a call and to the arguments that a client has of it. -/
def AddedCall.step (c : AddedCall) (x : Text × Text) : Label → Text × Text
  | .delta c' piece => if c' = c then (fitting x.1 [piece], x.2 ++ piece) else x
  | .done c' => if c' = c then (c.arguments, x.2 ++ missingDelta c.arguments x.1) else x
  | _ => x

/-- The copy of the arguments, and what a client has of them. -/
def AddedCall.progress (c : AddedCall) (ls : List Label) : Text × Text := ls.foldl c.step ([], [])

/-- The calls of the parser after the labels. -/
def entries (ls : List Label) : List CallState := (addedCalls ls).map fun c => c.entry (c.progress ls).1

/-- The items that a label leads to after others. -/
def newDeltas (ls : List Label) : Label → List ToolCallDelta
  | .added c => [⟨some (addedCalls ls).length, some c.callId, some c.name, []⟩]
  | .delta c piece => [⟨some ((addedCalls ls).idxOf c), none, none, piece⟩]
  | .done c =>
    let missing := missingDelta c.arguments (c.progress ls).1
    if missing.isEmpty then [] else [⟨some ((addedCalls ls).idxOf c), none, none, missing⟩]
  | .other => []

/-- Of the calls, each is announced before its other events, and once. -/
def WellOrdered (calls : List AddedCall) (ls : List Label) : Prop :=
  ∀ pre l post, ls = pre ++ l :: post → ∀ c, l.call = some c →
    c ∈ calls ∧ if l = .added c then ∀ l' ∈ pre, l'.call ≠ some c else .added c ∈ pre

theorem mem_addedCalls {c : AddedCall} {ls : List Label} : c ∈ addedCalls ls ↔ .added c ∈ ls := by
  unfold addedCalls
  rw [List.mem_filterMap]
  constructor
  · rintro ⟨l, hl, heq⟩
    cases l <;> simp_all
  · exact fun h => ⟨_, h, rfl⟩

theorem addedCalls_added (ls : List Label) (c : AddedCall) : addedCalls (ls ++ [.added c]) = addedCalls ls ++ [c] := by
  rw [addedCalls, List.filterMap_append]
  rfl

theorem addedCalls_other (ls : List Label) {l : Label} (h : ∀ c, l ≠ .added c) : addedCalls (ls ++ [l]) = addedCalls ls := by
  rw [addedCalls, List.filterMap_append]
  cases l with
  | added c => exact absurd rfl (h c)
  | delta c piece => exact List.append_nil _
  | done c => exact List.append_nil _
  | other => exact List.append_nil _

theorem progress_concat (c : AddedCall) (ls : List Label) (l : Label) :
    c.progress (ls ++ [l]) = c.step (c.progress ls) l := by
  rw [AddedCall.progress, List.foldl_append]
  rfl

theorem step_of_ne {c : AddedCall} {l : Label} (h : l.call ≠ some c) (x : Text × Text) : c.step x l = x := by
  cases l with
  | added c' => rfl
  | delta c' piece => exact if_neg fun heq => h (congrArg some heq)
  | done c' => exact if_neg fun heq => h (congrArg some heq)
  | other => rfl

/-- A call without events has nothing. -/
theorem progress_of_forall_ne {c : AddedCall} {ls : List Label} (h : ∀ l ∈ ls, l.call ≠ some c) :
    c.progress ls = ([], []) := by
  induction ls using List.reverseRecOn with
  | nil => rfl
  | append_singleton ls l ih =>
    rw [progress_concat, step_of_ne (h l (by simp)), ih fun l hl => h l (by simp [hl])]

section

variable {calls : List AddedCall} {ls : List Label} {l : Label}

theorem WellOrdered.init (h : WellOrdered calls (ls ++ [l])) : WellOrdered calls ls := by
  intro pre l' post hsplit c hc
  refine h pre l' (post ++ [l]) ?_ c hc
  rw [hsplit]
  simp

theorem WellOrdered.last (h : WellOrdered calls (ls ++ [l])) {c : AddedCall} (hc : l.call = some c) :
    c ∈ calls ∧ if l = .added c then ∀ l' ∈ ls, l'.call ≠ some c else .added c ∈ ls :=
  h ls l [] rfl c hc

/-- A call is announced once. -/
theorem WellOrdered.fresh {c : AddedCall} (h : WellOrdered calls (ls ++ [.added c])) :
    c ∈ calls ∧ (∀ l ∈ ls, l.call ≠ some c) ∧ c ∉ addedCalls ls := by
  obtain ⟨hc, hfirst⟩ := h.last (c := c) rfl
  rw [if_pos rfl] at hfirst
  exact ⟨hc, hfirst, fun hbad => hfirst _ (mem_addedCalls.mp hbad) rfl⟩

/-- The other events of a call come behind its announcement. -/
theorem WellOrdered.mem_addedCalls {c : AddedCall} (h : WellOrdered calls (ls ++ [l])) (hl : l.call = some c)
    (hne : l ≠ .added c) : c ∈ addedCalls ls := by
  obtain ⟨-, hadded⟩ := h.last hl
  rw [if_neg hne] at hadded
  exact Responses.mem_addedCalls.mpr hadded

/-- The calls that are announced are different ones. -/
theorem WellOrdered.addedCalls_spec (h : WellOrdered calls ls) :
    (addedCalls ls).Nodup ∧ ∀ c ∈ addedCalls ls, c ∈ calls := by
  induction ls using List.reverseRecOn with
  | nil => exact ⟨List.nodup_nil, by simp [addedCalls]⟩
  | append_singleton ls l ih =>
    obtain ⟨hnodup, hmem⟩ := ih h.init
    by_cases hadded : ∃ c, l = .added c
    · obtain ⟨c, rfl⟩ := hadded
      obtain ⟨hc, -, hnew⟩ := h.fresh
      rw [addedCalls_added]
      refine ⟨List.nodup_append.mpr ⟨hnodup, List.nodup_singleton c, ?_⟩, ?_⟩
      · intro a ha b hb heq
        rw [List.mem_singleton.mp hb] at heq
        exact hnew (heq ▸ ha)
      · intro a ha
        rcases List.mem_append.mp ha with ha | ha
        · exact hmem a ha
        · exact List.mem_singleton.mp ha ▸ hc
    · rw [addedCalls_other ls fun c hc => hadded ⟨c, hc⟩]
      exact ⟨hnodup, hmem⟩

/-- Among different calls a place is the place of the call that stands there, and of no other one. -/
theorem idxOf_eq_iff {cs : List AddedCall} (hnodup : cs.Nodup) {i : Nat} {c c' : AddedCall} (hi : cs[i]? = some c') :
    cs.idxOf c = i ↔ c' = c := by
  obtain ⟨hlt, rfl⟩ := List.getElem?_eq_some_iff.mp hi
  constructor
  · rintro rfl
    exact List.getElem_idxOf hlt
  · rintro rfl
    exact hnodup.idxOf_getElem i hlt

/-- Other arguments for a call. -/
theorem setArguments_entries {c : AddedCall} {held : Text} (hnodup : (addedCalls ls).Nodup)
    (hcalls : addedCalls (ls ++ [l]) = addedCalls ls) (hl : l.call = some c)
    (hheld : (c.progress (ls ++ [l])).1 = held) :
    setArguments (entries ls) ((addedCalls ls).idxOf c) held = entries (ls ++ [l]) := by
  refine List.ext_getElem? fun i => ?_
  rw [setArguments, List.getElem?_modify, entries, entries, hcalls, List.getElem?_map, List.getElem?_map]
  cases hi : (addedCalls ls)[i]? with
  | none => simp
  | some c' =>
    by_cases heq : c' = c
    · have hidx : (addedCalls ls).idxOf c = i := (idxOf_eq_iff hnodup hi).mpr heq
      simp [hidx, heq, hheld, AddedCall.entry]
    · have hidx : (addedCalls ls).idxOf c ≠ i := fun hbad => heq ((idxOf_eq_iff hnodup hi).mp hbad)
      have hother : l.call ≠ some c' := by
        rw [hl]
        exact fun hbad => heq (Option.some.inj hbad).symm
      simp [hidx, progress_concat, step_of_ne hother]

end

section

variable {calls : List AddedCall} {ls : List Label} {l : Label} {c : AddedCall} {modelName line : Text}
  (hdistinct : (calls.flatMap fun c => [c.itemId, c.callId]).Nodup)

theorem entries_idxOf (hc : c ∈ addedCalls ls) :
    (entries ls)[(addedCalls ls).idxOf c]? = some (c.entry (c.progress ls).1) := by
  rw [entries, List.getElem?_map, List.getElem?_idxOf hc]
  rfl

include hdistinct

/-- The ids of a call that has been announced find it. -/
theorem findToolCallIndex_entries (h : WellOrdered calls ls) (hc : c ∈ addedCalls ls) {ids : Text × Text}
    (hids : Identifies c ids) : findToolCallIndex (entries ls) ids.1 ids.2 = some ((addedCalls ls).idxOf c) := by
  obtain ⟨hnodup, hmem⟩ := h.addedCalls_spec
  refine findToolCallIndex_eq (entries_idxOf hc) (hasId_own hids _) fun j tc htc hid => ?_
  rw [entries, List.getElem?_map, Option.map_eq_some_iff] at htc
  obtain ⟨c', hj, rfl⟩ := htc
  obtain ⟨hlt, rfl⟩ := List.getElem?_eq_some_iff.mp hj
  have hsame := eq_of_hasId hdistinct (hmem c hc) (hmem _ (List.getElem_mem hlt)) hids hid
  rw [← hsame, hnodup.idxOf_getElem]

theorem advanceDeltas_added (h : WellOrdered calls (ls ++ [.added c])) (hcount : calls.length ≤ maxResponsesToolCalls)
    (hline : (Label.added c).Carries line) (modelName : Text) (ds : List ToolCallDelta) (usage : Option OpenAIUsage) :
    ∃ usage', advanceDeltas modelName (ds, ⟨entries ls, usage⟩) line =
      (ds ++ newDeltas ls (.added c), ⟨entries (ls ++ [.added c]), usage'⟩) := by
  obtain ⟨v, hdoc, herror, ⟨type, htype, hkind⟩, item, hmember, hitem, hname⟩ := hline
  obtain rfl := List.mem_singleton.mp htype
  obtain ⟨hc, hfirst, hnew⟩ := h.fresh
  have hids : itemIds item = (c.itemId, c.callId) := itemIds_eq hitem
  have hnone : findToolCallIndex (entries ls) c.itemId c.callId = none := by
    refine findToolCallIndex_none fun tc htc => ?_
    obtain ⟨c', hc', rfl⟩ := List.mem_map.mp htc
    rw [Bool.eq_false_iff]
    intro hid
    have hsame := eq_of_hasId hdistinct hc (h.init.addedCalls_spec.2 c' hc') (identifies_own c) hid
    exact hnew (hsame ▸ hc')
  -- the calls announced so far and this one are different calls of the stream, so there is room for it
  have hlength : (entries ls).length < maxResponsesToolCalls := by
    obtain ⟨hnodup, hmem⟩ := h.addedCalls_spec
    have hle := (List.subperm_of_subset hnodup hmem).length_le
    rw [addedCalls_added, List.length_append, List.length_singleton] at hle
    rw [entries, List.length_map]
    omega
  have hentries : entries (ls ++ [.added c]) = entries ls ++ [⟨c.callId, c.itemId, c.name, []⟩] := by
    have hprogress : ∀ c' : AddedCall, c'.progress (ls ++ [.added c]) = c'.progress ls := fun c' => progress_concat c' ls _
    rw [entries, entries, addedCalls_added, List.map_append, List.map_singleton]
    simp only [hprogress]
    rw [progress_of_forall_ne hfirst]
    rfl
  have hhandle : ∀ usage usage', handleEvent v usage ⟨entries ls, usage'⟩ =
      (some (makeToolCallStart (addedCalls ls).length c.callId c.name), ⟨entries (ls ++ [.added c]), usage'⟩) := by
    intro usage usage'
    rw [handleEvent_added _ _ hkind, hmember]
    dsimp only
    rw [handleItemAdded, if_pos hitem.type, hids]
    simp only [hname, hnone]
    rw [if_neg (by omega), hentries, entries, List.length_map]
  exact advanceDeltas_event modelName ds usage hdoc herror hhandle

theorem advanceDeltas_delta {piece : Text} (h : WellOrdered calls (ls ++ [.delta c piece]))
    (hline : (Label.delta c piece).Carries line) (modelName : Text) (ds : List ToolCallDelta)
    (usage : Option OpenAIUsage) :
    ∃ usage', advanceDeltas modelName (ds, ⟨entries ls, usage⟩) line =
      (ds ++ newDeltas ls (.delta c piece), ⟨entries (ls ++ [.delta c piece]), usage'⟩) := by
  obtain ⟨v, hdoc, herror, ⟨type, htype, hkind⟩, hdelta, hids⟩ := hline
  obtain rfl := List.mem_singleton.mp htype
  have hc : c ∈ addedCalls ls := h.mem_addedCalls rfl (by simp)
  have hne : ¬ (entries ls).isEmpty = true := by
    rw [List.isEmpty_iff, entries, List.map_eq_nil_iff]
    exact List.ne_nil_of_mem hc
  have hheld : (c.progress (ls ++ [.delta c piece])).1 = fitting (c.progress ls).1 [piece] := by
    rw [progress_concat, AddedCall.step, if_pos rfl]
  have hhandle : ∀ usage usage', handleEvent v usage ⟨entries ls, usage'⟩ =
      (some (makeToolCallDelta ((addedCalls ls).idxOf c) piece), ⟨entries (ls ++ [.delta c piece]), usage'⟩) := by
    intro usage usage'
    rw [handleEvent_argumentsDelta _ _ hkind, handleArgumentsDelta, hdelta]
    dsimp only
    rw [if_neg hne, findToolCallIndex_entries hdistinct h.init hc hids, Option.getD_some, entries_idxOf hc, Option.map_some,
      Option.getD_some, ← setArguments_entries (l := .delta c piece) h.init.addedCalls_spec.1
        (addedCalls_other ls fun _ => by simp) rfl hheld]
    rfl
  exact advanceDeltas_event modelName ds usage hdoc herror hhandle

/-- The whole arguments bring what the copy of them misses. -/
theorem handleArgumentsDone_entries (h : WellOrdered calls (ls ++ [.done c])) {ids : Text × Text} (hids : Identifies c ids)
    (usage : Option OpenAIUsage) :
    handleArgumentsDone ids c.arguments ⟨entries ls, usage⟩ =
      (if (missingDelta c.arguments (c.progress ls).1).isEmpty then none
        else some (makeToolCallDelta ((addedCalls ls).idxOf c) (missingDelta c.arguments (c.progress ls).1)),
        ⟨entries (ls ++ [.done c]), usage⟩) := by
  have hc : c ∈ addedCalls ls := h.mem_addedCalls rfl (by simp)
  have hheld : (c.progress (ls ++ [.done c])).1 = c.arguments := by
    rw [progress_concat, AddedCall.step, if_pos rfl]
  unfold handleArgumentsDone
  dsimp only
  rw [findToolCallIndex_entries hdistinct h.init hc hids]
  dsimp only
  rw [entries_idxOf hc, Option.map_some, Option.getD_some, setArguments_entries (l := .done c) h.init.addedCalls_spec.1
    (addedCalls_other ls fun _ => by simp) rfl hheld]
  rfl

theorem advanceDeltas_done (h : WellOrdered calls (ls ++ [.done c])) (hline : (Label.done c).Carries line)
    (modelName : Text) (ds : List ToolCallDelta) (usage : Option OpenAIUsage) :
    ∃ usage', advanceDeltas modelName (ds, ⟨entries ls, usage⟩) line =
      (ds ++ newDeltas ls (.done c), ⟨entries (ls ++ [.done c]), usage'⟩) := by
  have hnew : newDeltas ls (.done c) = Parsed.toolDeltas (.ok
      (if (missingDelta c.arguments (c.progress ls).1).isEmpty then none
        else some (makeToolCallDelta ((addedCalls ls).idxOf c) (missingDelta c.arguments (c.progress ls).1)))) := by
    rw [newDeltas]
    split
    · rfl
    · rfl
  rw [hnew]
  rcases hline with ⟨v, hdoc, herror, ⟨type, htype, hkind⟩, hargs, hids⟩ |
    ⟨v, hdoc, herror, ⟨type, htype, hkind⟩, item, hmember, hitem, hargs⟩
  · obtain rfl := List.mem_singleton.mp htype
    refine advanceDeltas_event modelName ds usage hdoc herror fun usage usage' => ?_
    rw [handleEvent_argumentsDone _ _ hkind, hargs, Option.getD_some, handleArgumentsDone_entries hdistinct h hids]
  · obtain rfl := List.mem_singleton.mp htype
    have hids : itemIds item = (c.itemId, c.callId) := itemIds_eq hitem
    refine advanceDeltas_event modelName ds usage hdoc herror fun usage usage' => ?_
    rw [handleEvent_itemDone _ _ hkind, hmember]
    dsimp only
    rw [if_pos hitem.type, hargs, Option.getD_some, hids, handleArgumentsDone_entries hdistinct h (identifies_own c)]

end

/-! ### The whole stream -/

/-- What a client has after the labels: the arguments of each call under its index, which its id comes with. -/
structure Tracks (ls : List Label) (ds : List ToolCallDelta) : Prop where
  arguments : ∀ i, argumentsAt i ds = ((addedCalls ls)[i]?.map fun c => (c.progress ls).2).getD []
  ids : ∀ d ∈ ds, ∀ i id, d.index = some i → d.id = some id → (addedCalls ls)[i]?.map (·.callId) = some id
  announced : ∀ i c, (addedCalls ls)[i]? = some c → ⟨some i, some c.callId, some c.name, []⟩ ∈ ds

section

variable {calls : List AddedCall} {ls : List Label} {l : Label} {ds : List ToolCallDelta}

theorem Tracks.added {c : AddedCall} (h : Tracks ls ds) (hfirst : ∀ l ∈ ls, l.call ≠ some c) :
    Tracks (ls ++ [.added c]) (ds ++ newDeltas ls (.added c)) := by
  have hprogress : ∀ c' : AddedCall, c'.progress (ls ++ [.added c]) = c'.progress ls := fun c' => progress_concat c' ls _
  have hold : ∀ i c', (addedCalls ls)[i]? = some c' → (addedCalls ls ++ [c])[i]? = some c' := fun i c' hi => by
    rw [List.getElem?_append_left (List.getElem?_eq_some_iff.mp hi).1, hi]
  refine ⟨fun i => ?_, fun d hd i id hindex hid => ?_, fun i c' hi => ?_⟩
  · have hnone : argumentsAt i (newDeltas ls (.added c)) = [] := by
      rw [newDeltas, argumentsAt_singleton]
      exact ite_self _
    rw [argumentsAt_append, hnone, List.append_nil, h.arguments, addedCalls_added]
    simp only [hprogress]
    rcases Nat.lt_trichotomy i (addedCalls ls).length with hlt | rfl | hgt
    · rw [List.getElem?_append_left hlt]
    · simp [progress_of_forall_ne hfirst]
    · rw [List.getElem?_eq_none hgt.le, List.getElem?_eq_none (by simp; omega)]
  · rw [addedCalls_added]
    rcases List.mem_append.mp hd with hd | hd
    · obtain ⟨c', hc', heq⟩ := Option.map_eq_some_iff.mp (h.ids d hd i id hindex hid)
      rw [hold i c' hc', Option.map_some, heq]
    · rw [newDeltas, List.mem_singleton] at hd
      subst hd
      obtain rfl := Option.some.inj hindex
      obtain rfl := Option.some.inj hid
      simp
  · rw [addedCalls_added] at hi
    rcases Nat.lt_or_ge i (addedCalls ls).length with hlt | hge
    · rw [List.getElem?_append_left hlt] at hi
      exact List.mem_append_left _ (h.announced i c' hi)
    · have hlt := (List.getElem?_eq_some_iff.mp hi).1
      rw [List.length_append, List.length_singleton] at hlt
      obtain rfl : i = (addedCalls ls).length := by omega
      simp only [List.getElem?_concat_length, Option.some.injEq] at hi
      subst hi
      exact List.mem_append_right _ (List.mem_singleton.mpr rfl)

/-- Arguments that are appended to those of a call. -/
theorem Tracks.sent {c : AddedCall} {piece : Text} (h : Tracks ls ds) (hnodup : (addedCalls ls).Nodup)
    (hadded : addedCalls (ls ++ [l]) = addedCalls ls) (hc : c ∈ addedCalls ls) (hl : l.call = some c)
    (hsent : (c.progress (ls ++ [l])).2 = (c.progress ls).2 ++ piece) {ds' : List ToolCallDelta}
    (hnew : ∀ i, argumentsAt i ds' = if (addedCalls ls).idxOf c = i then piece else [])
    (hids : ∀ d ∈ ds', d.id = none) : Tracks (ls ++ [l]) (ds ++ ds') := by
  refine ⟨fun i => ?_, fun d hd i id hindex hid => ?_, fun i c' hi => ?_⟩
  · rw [argumentsAt_append, h.arguments, hnew, hadded]
    cases hi : (addedCalls ls)[i]? with
    | none =>
      have hne : (addedCalls ls).idxOf c ≠ i := by
        have hlt := List.idxOf_lt_length_of_mem hc
        have hge := List.getElem?_eq_none_iff.mp hi
        omega
      simp [hne]
    | some c' =>
      by_cases heq : c' = c
      · have hidx : (addedCalls ls).idxOf c = i := (idxOf_eq_iff hnodup hi).mpr heq
        simp [hidx, heq, hsent]
      · have hidx : (addedCalls ls).idxOf c ≠ i := fun hbad => heq ((idxOf_eq_iff hnodup hi).mp hbad)
        have hother : l.call ≠ some c' := by
          rw [hl]
          exact fun hbad => heq (Option.some.inj hbad).symm
        simp [hidx, progress_concat, step_of_ne hother]
  · rw [hadded]
    rcases List.mem_append.mp hd with hd | hd
    · exact h.ids d hd i id hindex hid
    · rw [hids d hd] at hid
      cases hid
  · rw [hadded] at hi
    exact List.mem_append_left _ (h.announced i c' hi)

theorem Tracks.concat (h : Tracks ls ds) (hordered : WellOrdered calls (ls ++ [l])) :
    Tracks (ls ++ [l]) (ds ++ newDeltas ls l) := by
  cases l with
  | added c =>
    exact h.added hordered.fresh.2.1
  | delta c piece =>
    have hc : c ∈ addedCalls ls := hordered.mem_addedCalls rfl (by simp)
    refine h.sent hordered.init.addedCalls_spec.1 (addedCalls_other ls fun _ => by simp) hc rfl
      (by rw [progress_concat, AddedCall.step, if_pos rfl]) (fun i => argumentsAt_singleton i _ _ _ _) ?_
    simp [newDeltas]
  | done c =>
    have hc : c ∈ addedCalls ls := hordered.mem_addedCalls rfl (by simp)
    refine h.sent hordered.init.addedCalls_spec.1 (addedCalls_other ls fun _ => by simp) hc rfl
      (by rw [progress_concat, AddedCall.step, if_pos rfl]) (fun i => ?_) ?_
    · rw [newDeltas]
      split
      · rename_i hempty
        rw [List.isEmpty_iff.mp hempty]
        simp
      · exact argumentsAt_singleton i _ _ _ _
    · rw [newDeltas]
      split <;> simp
  | other =>
    have hadded : addedCalls (ls ++ [.other]) = addedCalls ls := addedCalls_other ls fun _ => by simp
    have hprogress : ∀ c : AddedCall, c.progress (ls ++ [.other]) = c.progress ls := fun c => progress_concat c ls _
    rw [newDeltas, List.append_nil]
    refine ⟨?_, ?_, ?_⟩
    · simpa only [hadded, hprogress] using h.arguments
    · simpa only [hadded] using h.ids
    · simpa only [hadded] using h.announced

end

/-- The lines lead to the state and to the items of their labels. -/
theorem emitted_tracks {calls : List AddedCall} (hdistinct : (calls.flatMap fun c => [c.itemId, c.callId]).Nodup)
    (hcount : calls.length ≤ maxResponsesToolCalls) (modelName : Text) {script : List (Label × Text)}
    (hcarried : ∀ p ∈ script, p.1.Carries p.2) (hordered : WellOrdered calls (script.map Prod.fst)) :
    ∃ ds usage, emitted modelName (script.map Prod.snd) = (ds, ⟨entries (script.map Prod.fst), usage⟩) ∧
      Tracks (script.map Prod.fst) ds := by
  induction script using List.reverseRecOn with
  | nil => exact ⟨[], none, rfl, ⟨fun i => by simp [addedCalls], by simp, by simp [addedCalls]⟩⟩
  | append_singleton script p ih =>
    obtain ⟨l, line⟩ := p
    rw [List.map_append, List.map_singleton] at hordered
    have hline : l.Carries line := hcarried (l, line) (by simp)
    obtain ⟨ds, usage, hemitted, htracks⟩ := ih (fun p hp => hcarried p (by simp [hp])) hordered.init
    have hstep : ∃ usage', advanceDeltas modelName (ds, ⟨entries (script.map Prod.fst), usage⟩) line =
        (ds ++ newDeltas (script.map Prod.fst) l, ⟨entries (script.map Prod.fst ++ [l]), usage'⟩) := by
      cases l with
      | added c => exact advanceDeltas_added hdistinct hordered hcount hline modelName ds usage
      | delta c piece => exact advanceDeltas_delta hdistinct hordered hline modelName ds usage
      | done c => exact advanceDeltas_done hdistinct hordered hline modelName ds usage
      | other =>
        have hsame : entries (script.map Prod.fst ++ [.other]) = entries (script.map Prod.fst) := by
          have hprogress : ∀ c : AddedCall, c.progress (script.map Prod.fst ++ [.other]) = c.progress (script.map Prod.fst) :=
            fun c => progress_concat c _ _
          rw [entries, addedCalls_other _ fun _ => by simp]
          simp only [hprogress]
          rfl
        rw [hsame, newDeltas, List.append_nil]
        exact advanceDeltas_other modelName ds _ usage hline
    obtain ⟨usage', hstep⟩ := hstep
    rw [List.map_append, List.map_singleton, List.map_append, List.map_singleton, emitted_concat, hemitted]
    exact ⟨_, usage', hstep, htracks.concat hordered⟩

theorem CallStream.wellOrdered {calls : List AddedCall} {script : List (Label × Text)} (h : CallStream calls script) :
    WellOrdered calls (script.map Prod.fst) := by
  intro pre l post hsplit c hl
  have hmem : l ∈ script.map Prod.fst := by simp [hsplit]
  obtain ⟨p, hp, rfl⟩ := List.mem_map.mp hmem
  have hc := h.known p hp c hl
  refine ⟨hc, ?_⟩
  obtain ⟨pieces, n, hevents, -⟩ := h.shape c hc
  rw [hsplit, AddedCall.events, List.filter_append, List.filter_cons_of_pos (by simpa using hl)] at hevents
  -- the announcement is the first event of the call, so nothing of the call stands before it, and it before the others
  cases hpre : pre.filter fun l => l.call = some c with
  | nil =>
    rw [hpre, List.nil_append, List.cons.injEq] at hevents
    rw [if_pos hevents.1]
    intro l' hl'
    simpa using List.filter_eq_nil_iff.mp hpre l' hl'
  | cons first rest =>
    rw [hpre, List.cons_append, List.cons.injEq] at hevents
    have hlater : p.1 ∈ pieces.map (Label.delta c) ++ List.replicate (n + 1) (.done c) := by
      rw [← hevents.2]
      simp
    have hne : p.1 ≠ .added c := by
      intro hbad
      rw [hbad] at hlater
      simp at hlater
    rw [if_neg hne]
    have hfirst : first ∈ pre.filter fun l => l.call = some c := by simp [hpre]
    rw [hevents.1] at hfirst
    exact (List.mem_filter.mp hfirst).1

/-! ### The arguments of one call -/

theorem fitting_cons (held piece : Text) (pieces : List Text) :
    fitting held (piece :: pieces) = fitting (fitting held [piece]) pieces := rfl

theorem utf8Len_fitting_le {held : Text} (pieces : List Text) (h : utf8Len held ≤ maxResponsesToolCallArgsBytes) :
    utf8Len (fitting held pieces) ≤ maxResponsesToolCallArgsBytes := by
  induction pieces generalizing held with
  | nil => exact h
  | cons piece pieces ih =>
    rw [fitting_cons]
    refine ih ?_
    simp only [fitting, List.foldl_cons, List.foldl_nil]
    split
    · exact h
    · rename_i hle
      rw [utf8Len_append]
      omega

/-- Pieces that fit together are all taken. -/
theorem fitting_eq {held : Text} {pieces : List Text}
    (h : utf8Len held + utf8Len pieces.flatten ≤ maxResponsesToolCallArgsBytes) :
    fitting held pieces = held ++ pieces.flatten := by
  induction pieces generalizing held with
  | nil => simp [fitting]
  | cons piece pieces ih =>
    rw [List.flatten_cons, utf8Len_append] at h
    have hfits : fitting held [piece] = held ++ piece := by
      simp only [fitting, List.foldl_cons, List.foldl_nil]
      rw [if_neg (by omega)]
    rw [fitting_cons, hfits, ih (by rw [utf8Len_append]; omega), List.flatten_cons, List.append_assoc]

/-- Nothing is missing unless the copy is the beginning of longer arguments. -/
theorem missingDelta_eq_nil_iff (arguments held : Text) :
    missingDelta arguments held = [] ↔ ¬ (utf8Len held < utf8Len arguments ∧ held <+: arguments) := by
  unfold missingDelta
  simp only [List.isPrefixOf_iff_prefix]
  by_cases h : utf8Len held < utf8Len arguments ∧ held <+: arguments
  · obtain ⟨hlt, rest, rfl⟩ := h
    have hrest : rest ≠ [] := by
      rintro rfl
      rw [List.append_nil] at hlt
      exact Nat.lt_irrefl _ hlt
    rw [if_pos ⟨hlt, List.prefix_append _ _⟩, List.drop_left]
    simp [hrest, hlt]
  · rw [if_neg h]
    have hnot : ¬ (List.isEmpty held = true ∧ (!List.isEmpty arguments) = true) := by
      rintro ⟨hheld, harguments⟩
      rw [List.isEmpty_iff] at hheld
      rw [Bool.not_eq_true', List.isEmpty_eq_false_iff] at harguments
      subst hheld
      exact h ⟨utf8Len_pos harguments, List.nil_prefix⟩
    rw [if_neg hnot]
    exact ⟨fun _ => h, fun _ => rfl⟩

theorem progress_events (c : AddedCall) (ls : List Label) : c.progress (c.events ls) = c.progress ls := by
  induction ls using List.reverseRecOn with
  | nil => rfl
  | append_singleton ls l ih =>
    rw [AddedCall.events, List.filter_append, progress_concat]
    by_cases hl : l.call = some c
    · rw [List.filter_cons_of_pos (by simpa using hl), List.filter_nil, progress_concat]
      exact congrArg (c.step · l) ih
    · rw [List.filter_cons_of_neg (by simpa using hl), List.filter_nil, List.append_nil, step_of_ne hl]
      exact ih

theorem pieces_events (c : AddedCall) (ls : List Label) : c.pieces (c.events ls) = c.pieces ls := by
  unfold AddedCall.pieces AddedCall.events
  rw [List.filterMap_filter]
  refine List.filterMap_congr fun l _ => ?_
  cases l with
  | added c' => simp
  | delta c' piece =>
    by_cases hc : c' = c
    · simp [hc, Label.call]
    · simp [hc, Label.call]
  | done c' => simp
  | other => simp

theorem progress_deltas (c : AddedCall) (pieces : List Text) (held sent : Text) :
    (pieces.map (Label.delta c)).foldl c.step (held, sent) = (fitting held pieces, sent ++ pieces.flatten) := by
  induction pieces generalizing held sent with
  | nil => simp [fitting]
  | cons piece pieces ih =>
    rw [List.map_cons, List.foldl_cons, AddedCall.step, if_pos rfl, ih, List.flatten_cons, List.append_assoc,
      ← fitting_cons]

/-- Arguments that the copy has already are not sent again. -/
theorem progress_dones (c : AddedCall) (n : Nat) (sent : Text) :
    (List.replicate n (Label.done c)).foldl c.step (c.arguments, sent) = (c.arguments, sent) := by
  induction n with
  | zero => rfl
  | succ n ih => rw [List.replicate_succ, List.foldl_cons, AddedCall.step, if_pos rfl, missingDelta_self, List.append_nil, ih]

/-- The announcement, the pieces of the arguments, and then the whole arguments, perhaps again. -/
theorem progress_shape (c : AddedCall) (pieces : List Text) (n : Nat) :
    (c.progress (.added c :: (pieces.map (Label.delta c) ++ List.replicate (n + 1) (.done c)))).2 =
      pieces.flatten ++ missingDelta c.arguments (fitting [] pieces) := by
  have hadded : c.step ([], []) (.added c) = ([], []) := rfl
  rw [AddedCall.progress, List.foldl_cons, hadded, List.foldl_append, progress_deltas, List.replicate_succ,
    List.foldl_cons, AddedCall.step, if_pos rfl, progress_dones, List.nil_append]

theorem pieces_shape (c : AddedCall) (pieces : List Text) (n : Nat) :
    c.pieces (.added c :: (pieces.map (Label.delta c) ++ List.replicate (n + 1) (.done c))) = pieces := by
  have hdones : c.pieces (List.replicate (n + 1) (.done c)) = [] := by
    rw [AddedCall.pieces, List.filterMap_eq_nil_iff]
    intro l hl
    rw [List.eq_of_mem_replicate hl]
  have hdeltas : c.pieces (pieces.map (Label.delta c)) = pieces := by
    rw [AddedCall.pieces, List.filterMap_map]
    simp
  rw [AddedCall.pieces, List.filterMap_cons_none rfl, List.filterMap_append]
  show c.pieces (pieces.map (Label.delta c)) ++ c.pieces (List.replicate (n + 1) (.done c)) = pieces
  rw [hdones, hdeltas, List.append_nil]

/-- Arguments that are streamed or not are sent once if they fit. -/
theorem sent_eq_iff {c : AddedCall} {pieces : List Text} (h : pieces = [] ∨ pieces.flatten = c.arguments) :
    pieces.flatten ++ missingDelta c.arguments (fitting [] pieces) = c.arguments ↔ c.Fits pieces := by
  unfold AddedCall.Fits
  rcases h with rfl | h
  · have hmissing : missingDelta c.arguments [] = c.arguments := by
      unfold missingDelta
      cases c.arguments <;> simp
    simp [fitting, hmissing]
  · -- the pieces are the arguments, so nothing may be missing from the copy that holds those that fit
    rw [h, List.append_right_eq_self, missingDelta_eq_nil_iff]
    have hcap : utf8Len (fitting [] pieces) ≤ maxResponsesToolCallArgsBytes := utf8Len_fitting_le pieces (Nat.zero_le _)
    by_cases hshort : utf8Len c.arguments ≤ maxResponsesToolCallArgsBytes
    · have hall : fitting [] pieces = c.arguments := by
        rw [fitting_eq (by rw [h, utf8Len_nil]; omega), List.nil_append, h]
      rw [hall]
      exact ⟨fun _ => Or.inr (Or.inl hshort), fun _ hbad => Nat.lt_irrefl _ hbad.1⟩
    · have hne : pieces ≠ [] := by
        rintro rfl
        rw [List.flatten_nil] at h
        rw [← h] at hshort
        exact hshort (Nat.zero_le _)
      have hlt : utf8Len (fitting [] pieces) < utf8Len c.arguments := by omega
      simp only [hne, hshort, hlt, true_and, false_or]

/-- A call is delivered if what a client has of it in the end are its arguments. -/
theorem delivered_iff_sent {calls : List AddedCall} {script : List (Label × Text)} (h : CallStream calls script)
    (modelName : Text) {c : AddedCall} (hc : c ∈ calls) :
    c.Delivered (emitted modelName (script.map Prod.snd)).1 ↔ (c.progress (script.map Prod.fst)).2 = c.arguments := by
  -- an item with the id of the call stands under the index of the call, so that both sides read the same arguments
  obtain ⟨ds, usage, hemitted, htracks⟩ := emitted_tracks h.distinct h.count modelName h.carried h.wellOrdered
  obtain ⟨hnodup, hmem⟩ := h.wellOrdered.addedCalls_spec
  obtain ⟨pieces, n, hevents, -⟩ := h.shape c hc
  rw [hemitted]
  constructor
  · rintro ⟨d, hd, i, hindex, hid, harguments⟩
    obtain ⟨c', hi, heq⟩ := Option.map_eq_some_iff.mp (htracks.ids d hd i _ hindex hid)
    obtain rfl : c' = c := callId_inj h.distinct hc (hmem c' (List.mem_of_getElem? hi)) heq
    rwa [htracks.arguments, hi, Option.map_some, Option.getD_some] at harguments
  · intro harguments
    have hadded : c ∈ addedCalls (script.map Prod.fst) := by
      have hfirst : Label.added c ∈ c.events (script.map Prod.fst) := by rw [hevents]; exact List.mem_cons_self
      exact mem_addedCalls.mpr (List.mem_filter.mp hfirst).1
    have hi := List.getElem?_idxOf hadded
    refine ⟨_, htracks.announced _ c hi, _, rfl, rfl, ?_⟩
    rw [htracks.arguments, hi, Option.map_some, Option.getD_some, harguments]

theorem delivered_iff {calls : List AddedCall} {script : List (Label × Text)} (h : CallStream calls script)
    (modelName : Text) {c : AddedCall} (hc : c ∈ calls) :
    c.Delivered (emitted modelName (script.map Prod.snd)).1 ↔ c.Fits (c.pieces (script.map Prod.fst)) := by
  obtain ⟨pieces, n, hevents, hpieces⟩ := h.shape c hc
  have hown : c.pieces (script.map Prod.fst) = pieces := by rw [← pieces_events, hevents, pieces_shape]
  rw [delivered_iff_sent h modelName hc, ← progress_events, hevents, progress_shape, hown]
  exact sent_eq_iff hpieces

/-! ### Two calls -/

/-- A call with the given arguments. -/
def firstCall (arguments : Text) : AddedCall := ⟨['f'], ['c'], ['l'], arguments, by decide, by decide⟩

def secondCall : AddedCall := ⟨['g'], ['d'], ['l'], ['8'], by decide, by decide⟩

/-- The announcement of a call. -/
def addedLine (c : AddedCall) : Text :=
  eventLine "response.output_item.added"
    [("item".toList, object [("call_id".toList, string c.callId), ("id".toList, string c.itemId),
      ("name".toList, string c.name), ("type".toList, string "function_call".toList)])]

def deltaLine (c : AddedCall) (piece : Text) : Text :=
  eventLine "response.function_call_arguments.delta" [("delta".toList, string piece), ("item_id".toList, string c.itemId)]

def doneLine (c : AddedCall) : Text :=
  eventLine "response.function_call_arguments.done"
    [("arguments".toList, string c.arguments), ("item_id".toList, string c.itemId)]

/-- The arguments of the first call come as one piece, among the events of the second call. -/
def twoCalls (arguments : Text) : List (Label × Text) :=
  [(.added (firstCall arguments), addedLine (firstCall arguments)), (.added secondCall, addedLine secondCall),
    (.delta secondCall ['8'], deltaLine secondCall ['8']),
    (.delta (firstCall arguments) arguments, deltaLine (firstCall arguments) arguments),
    (.done secondCall, doneLine secondCall), (.done (firstCall arguments), doneLine (firstCall arguments))]

theorem carries_addedLine (c : AddedCall) : (Label.added c).Carries (addedLine c) :=
  isEvent_eventLine (List.mem_singleton_self _) (Nat.le_of_ble_eq_true rfl) rfl rfl
    ⟨_, rfl, ⟨rfl, rfl, rfl⟩, rfl⟩

/-- The item id alone identifies a call. -/
theorem identifies_itemId (c : AddedCall) : Identifies c (c.itemId, []) :=
  ⟨by simp, by simp, fun h => c.itemId_ne (congrArg Prod.fst h)⟩

theorem carries_deltaLine (c : AddedCall) (piece : Text) : (Label.delta c piece).Carries (deltaLine c piece) :=
  isEvent_eventLine (List.mem_singleton_self _) (Nat.le_of_ble_eq_true rfl) rfl rfl ⟨rfl, identifies_itemId c⟩

theorem carries_doneLine (c : AddedCall) : (Label.done c).Carries (doneLine c) :=
  Or.inl (isEvent_eventLine (List.mem_singleton_self _) (Nat.le_of_ble_eq_true rfl) rfl rfl ⟨rfl, identifies_itemId c⟩)

theorem events_firstCall (arguments : Text) :
    (firstCall arguments).events ((twoCalls arguments).map Prod.fst) =
      .added (firstCall arguments) ::
        ([arguments].map (Label.delta (firstCall arguments)) ++ List.replicate 1 (.done (firstCall arguments))) := by
  have hne : secondCall ≠ firstCall arguments := fun h => by
    have hid := congrArg AddedCall.itemId h
    cases hid
  simp [AddedCall.events, twoCalls, Label.call, hne]

theorem events_secondCall (arguments : Text) :
    secondCall.events ((twoCalls arguments).map Prod.fst) =
      .added secondCall :: ([['8']].map (Label.delta secondCall) ++ List.replicate 1 (.done secondCall)) := by
  have hne : firstCall arguments ≠ secondCall := fun h => by
    have hid := congrArg AddedCall.itemId h
    cases hid
  simp [AddedCall.events, twoCalls, Label.call, hne]

theorem callStream_twoCalls (arguments : Text) : CallStream [firstCall arguments, secondCall] (twoCalls arguments) where
  distinct := by
    show [['f'], ['c'], ['g'], ['d']].Nodup
    decide
  count := by
    show 2 ≤ maxResponsesToolCalls
    decide
  carried := by
    simp only [twoCalls, List.forall_mem_cons]
    exact ⟨carries_addedLine _, carries_addedLine _, carries_deltaLine _ _, carries_deltaLine _ _, carries_doneLine _,
      carries_doneLine _, by simp⟩
  known := by simp [twoCalls, Label.call]
  shape := by
    simp only [List.forall_mem_cons]
    exact ⟨⟨[arguments], 0, events_firstCall arguments, Or.inr (List.append_nil _)⟩,
      ⟨[['8']], 0, events_secondCall arguments, Or.inr rfl⟩, by simp⟩

theorem delivered_twoCalls : (firstCall ['7']).Delivered (emitted [] ((twoCalls ['7']).map Prod.snd)).1 :=
  (delivered_iff (callStream_twoCalls ['7']) [] List.mem_cons_self).mpr (Or.inr (Or.inl (by decide)))

/-- Arguments of more than a mebibyte in one piece are written twice. -/
theorem not_delivered_long :
    CallStream [firstCall (List.replicate 1048577 '7'), secondCall] (twoCalls (List.replicate 1048577 '7')) ∧
      ¬ (firstCall (List.replicate 1048577 '7')).Delivered
        (emitted [] ((twoCalls (List.replicate 1048577 '7')).map Prod.snd)).1 := by
  have hlong : maxResponsesToolCallArgsBytes < utf8Len (List.replicate 1048577 '7') := by
    rw [utf8Len, List.map_replicate, List.sum_replicate_nat]
    decide
  generalize List.replicate 1048577 '7' = arguments at hlong
  have hstream := callStream_twoCalls arguments
  refine ⟨hstream, fun h => ?_⟩
  have hnone : fitting [] [arguments] = [] := by
    rw [fitting, List.foldl_cons, List.foldl_nil, if_pos (by rw [utf8Len_nil]; omega)]
  rw [delivered_iff_sent hstream [] List.mem_cons_self, ← progress_events, events_firstCall, progress_shape] at h
  have hwhole : [arguments].flatten = (firstCall arguments).arguments := List.append_nil arguments
  rcases (sent_eq_iff (Or.inr hwhole)).mp h with hnil | hshort | hnot
  · cases hnil
  · exact absurd hlong (by rw [not_lt]; exact hshort)
  · exact hnot (by rw [hnone]; exact List.nil_prefix)

end OpenProxy.Upstream.Responses
