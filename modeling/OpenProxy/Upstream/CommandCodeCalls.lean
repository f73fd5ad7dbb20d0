import OpenProxy.Upstream.CommandCode

/-!
# Tool calls of a Command Code stream

Lines as tool events with one id each, what one event does to the state and what is written for it, which ids get a
place (`knownIds`), and what the events say of the name and the arguments of an id (`Named`, `progress`).
-/

namespace OpenProxy.Upstream.CommandCode

open Json
open Responses (Parsed makeToolCallStart makeToolCallDelta)

/-! ### Tool events -/

/-- What a tool event is about. -/
inductive ToolKind
  | start
  | delta (text : Text)
  | call (input : Text)
  deriving DecidableEq

/-- A tool event with its only id. -/
structure ToolEvent where
  id : Text
  name : Text
  kind : ToolKind
  deriving DecidableEq

namespace ToolEvent

def IsDelta (e : ToolEvent) : Prop := ∃ text, e.kind = .delta text

def IsCall (e : ToolEvent) : Prop := ∃ input, e.kind = .call input

/-- The event may have arguments. -/
def hasContent (e : ToolEvent) : Bool := e.kind ≠ .start

/-- The piece of the arguments that the event has. -/
def piece (e : ToolEvent) : Text :=
  match e.kind with
  | .delta text => text
  | _ => []

/-- The whole arguments that the event has. -/
def input? (e : ToolEvent) : Option Text :=
  match e.kind with
  | .call input => some input
  | _ => none

/-- How the event is handled. -/
def handle (e : ToolEvent) (state : CommandCodeSseState) : Option UpstreamSseChunk × CommandCodeSseState :=
  match e.kind with
  | .start => handleStart e.id e.name state
  | .delta text => handleDelta e.id text state
  | .call input => handleCall e.id e.name input state

/-- The value has the id, under one name or both. -/
def CarriesId (v : Json) (id : Text) : Prop :=
  (∀ key ∈ ["toolCallId", "id"], v.get key.toList = none ∨ v.get key.toList = some (string id)) ∧
    ∃ key ∈ ["toolCallId", "id"], v.get key.toList = some (string id)

/-- The value is the event. -/
def Carries (e : ToolEvent) (v : Json) : Prop :=
  CarriesId v e.id ∧ (firstText v ["toolName", "name"]).getD [] = e.name ∧
    match e.kind with
    | .start => eventType v ∈ ["tool-input-start".toList, "tool-call-start".toList]
    | .delta text =>
      eventType v = "tool-input-delta".toList ∧ (firstText v ["delta", "argsTextDelta", "textDelta"]).getD [] = text
    | .call input => eventType v = "tool-call".toList ∧ callArguments v = input

end ToolEvent

/-- The types of the tool events. -/
def toolTypes : List Text :=
  ["tool-input-start".toList, "tool-call-start".toList, "tool-input-delta".toList, "tool-call".toList]

/-- The line carries the tool event, or none. -/
def LineCarries : Option ToolEvent → Text → Prop
  | some e, line => ∃ data v, commandcodeData line = .payload data ∧ fromStr data = some v ∧ ¬ IsError v ∧ e.Carries v
  | none, line => ∀ data v, commandcodeData line = .payload data → fromStr data = some v → ¬ IsError v →
    eventType v ∉ toolTypes

/-! ### The run -/

/-- For each line its tool event and the items of `tool_calls` that it leads to. -/
abbrev Log := List (Option ToolEvent × List ToolCallDelta)

def toolDeltas (chunk : Option UpstreamSseChunk) : List ToolCallDelta := (chunk.map (·.toolDeltas)).getD []

/-- One line. -/
def advance (modelName : Text) (x : Log × CommandCodeSseState) (p : Option ToolEvent × Text) : Log × CommandCodeSseState :=
  match parseCommandcodeSseLine modelName p.2 x.2 with
  | (.ok chunk, state) => (x.1 ++ [(p.1, toolDeltas chunk)], state)
  | (.error _, state) => (x.1 ++ [(p.1, [])], state)

/-- The lines one after the other. -/
def logged (modelName : Text) (script : List (Option ToolEvent × Text)) : Log × CommandCodeSseState :=
  script.foldl (advance modelName) ([], .new)

/-- The tool events of a stream. -/
def toolEvents (script : List (Option ToolEvent × Text)) : List ToolEvent := script.filterMap Prod.fst

/-- The items that are written. -/
def Log.items (log : Log) : List ToolCallDelta := log.flatMap Prod.snd

/-- The arguments that are written for the events of an id. -/
def Log.sentFor (log : Log) (id : Text) : Text :=
  (log.filter fun p => p.1.map ToolEvent.id = some id).flatMap fun p => p.2.flatMap (·.arguments)

/-! ### What the events say -/

/-- The ids that have a place, in the order of their places. -/
def knownIds (es : List ToolEvent) : List Text :=
  es.foldl (fun ids e => if e.id ∈ ids ∨ maxCommandcodeToolCalls ≤ ids.length then ids else ids ++ [e.id]) []

/-- The pieces of the arguments of an id. -/
def piecesOf (es : List ToolEvent) (id : Text) : Text := (es.filter fun e => e.id = id).flatMap ToolEvent.piece

/-- The arguments of the first whole call of an id. -/
def inputOf (es : List ToolEvent) (id : Text) : Text :=
  ((es.filter fun e => e.id = id).findSome? ToolEvent.input?).getD []

/-- The pieces if they have any text, and the input otherwise. -/
def argumentsOf (es : List ToolEvent) (id : Text) : Text :=
  if piecesOf es id ≠ [] then piecesOf es id else inputOf es id

/-- The first event of an id that may have arguments is the whole call. -/
def CallFirst (es : List ToolEvent) (id : Text) : Prop :=
  ∃ e, (es.filter fun e => e.id = id).find? ToolEvent.hasContent = some e ∧ e.IsCall

/-- A start event has a name for the id, or its first event is the whole call and has a name. -/
def Named (es : List ToolEvent) (id : Text) : Prop :=
  ∃ e ∈ es, e.id = id ∧ e.name ≠ [] ∧ (e.kind = .start ∨ (e.IsCall ∧ es.find? (fun e => e.id = id) = some e))

/-- What has been written of the arguments of an id is left alone: the first place is where the pieces of ids without a
place go. -/
def Undisturbed (es : List ToolEvent) (i : Nat) : Prop := i = 0 → ∀ e ∈ es, e.IsDelta → e.id ∈ knownIds es

/-! ### One line -/

theorem firstText_pair {v : Json} {id : Text} {key key' : String}
    (h : v.get key.toList = none ∨ v.get key.toList = some (string id))
    (hsome : v.get key.toList = some (string id) ∨ v.get key'.toList = some (string id)) :
    firstText v [key, key'] = some id := by
  unfold firstText firstMember
  rw [List.findSome?_cons]
  rcases h with h | h
  · rw [h]
    have hother : v.get key'.toList = some (string id) := by
      rcases hsome with hsome | hsome
      · rw [h] at hsome
        cases hsome
      · exact hsome
    simp [hother, asStr]
  · rw [h]
    rfl

theorem ToolEvent.CarriesId.firstText_eq {v : Json} {id : Text} (h : ToolEvent.CarriesId v id) :
    firstText v ["toolCallId", "id"] = some id ∧ firstText v ["id", "toolCallId"] = some id := by
  obtain ⟨hall, key, hkey, hsome⟩ := h
  have hcallId := hall "toolCallId" (by simp)
  have hid := hall "id" (by simp)
  simp only [List.mem_cons, List.not_mem_nil, or_false] at hkey
  rcases hkey with rfl | rfl
  · exact ⟨firstText_pair hcallId (Or.inl hsome), firstText_pair hid (Or.inr hsome)⟩
  · exact ⟨firstText_pair hcallId (Or.inr hsome), firstText_pair hid (Or.inl hsome)⟩

theorem handleEvent_eq_handle {e : ToolEvent} {v : Json} (h : e.Carries v) (state : CommandCodeSseState) :
    handleEvent v state = e.handle state := by
  obtain ⟨id, name, kind⟩ := e
  obtain ⟨hid, hname, hkind⟩ := h
  obtain ⟨hfirst, hsecond⟩ := hid.firstText_eq
  dsimp only at hfirst hsecond hname hkind
  unfold handleEvent ToolEvent.handle
  cases kind with
  | start =>
    simp only [List.mem_cons, List.not_mem_nil, or_false] at hkind
    rcases hkind with hkind | hkind <;>
      rw [hkind, if_neg (by decide), if_neg (by decide), if_pos (by decide), hfirst, hname] <;> rfl
  | delta text =>
    obtain ⟨htype, htext⟩ := hkind
    rw [htype, if_neg (by decide), if_neg (by decide), if_neg (by decide), if_pos rfl, hsecond, htext]
    rfl
  | call input =>
    obtain ⟨htype, hinput⟩ := hkind
    rw [htype, if_neg (by decide), if_neg (by decide), if_neg (by decide), if_neg (by decide), if_pos rfl, hfirst, hname,
      hinput]
    rfl

/-- Another event leaves the calls as they are. -/
theorem handleEvent_other {v : Json} (h : eventType v ∉ toolTypes) (state : CommandCodeSseState) :
    toolDeltas (handleEvent v state).1 = [] ∧ (handleEvent v state).2.toolCallIds = state.toolCallIds ∧
      (handleEvent v state).2.toolCallsStreamed = state.toolCallsStreamed := by
  unfold toolTypes at h
  simp only [List.mem_cons, List.not_mem_nil, or_false, not_or] at h
  obtain ⟨hstart, hstart', hdelta, hcall⟩ := h
  have hnot : eventType v ∉ ["tool-input-start".toList, "tool-call-start".toList] := by
    simp only [List.mem_cons, List.not_mem_nil, or_false, not_or]
    exact ⟨hstart, hstart'⟩
  unfold handleEvent
  rw [if_neg hnot, if_neg hdelta, if_neg hcall]
  split
  · exact ⟨rfl, rfl, rfl⟩
  split
  · exact ⟨rfl, rfl, rfl⟩
  split
  · exact ⟨rfl, rfl, rfl⟩
  split
  · exact ⟨rfl, rfl, rfl⟩
  · exact ⟨rfl, rfl, rfl⟩

theorem advance_some {e : ToolEvent} {line : Text} (h : LineCarries (some e) line) (modelName : Text) (log : Log)
    (state : CommandCodeSseState) :
    advance modelName (log, state) (some e, line) =
      (log ++ [(some e, toolDeltas (e.handle state).1)], (e.handle state).2) := by
  obtain ⟨data, v, hdata, hread, herror, hcarries⟩ := h
  unfold advance parseCommandcodeSseLine
  simp only [hdata, hread, if_neg herror, handleEvent_eq_handle hcarries]

theorem advance_none {line : Text} (h : LineCarries none line) (modelName : Text) (log : Log)
    (state : CommandCodeSseState) :
    ∃ state', advance modelName (log, state) (none, line) = (log ++ [(none, [])], state') ∧
      state'.toolCallIds = state.toolCallIds ∧ state'.toolCallsStreamed = state.toolCallsStreamed := by
  unfold advance parseCommandcodeSseLine
  cases hdata : commandcodeData line with
  | skip => exact ⟨state, rfl, rfl, rfl⟩
  | done => exact ⟨state, rfl, rfl, rfl⟩
  | payload data =>
    cases hread : fromStr data with
    | none => exact ⟨state, by simp only [hread], rfl, rfl⟩
    | some v =>
      by_cases herror : IsError v
      · exact ⟨state, by simp only [hread, if_pos herror], rfl, rfl⟩
      · obtain ⟨hitems, hids, hstreamed⟩ := handleEvent_other (h data v hdata hread herror) state
        exact ⟨_, by simp only [hread, if_neg herror, hitems], hids, hstreamed⟩

/-! ### What one event leads to -/

namespace ToolEvent

/-- What the event adds to the arguments, where it matters whether some have been written. -/
def contribution (e : ToolEvent) (streamed : Bool) : Text :=
  match e.kind with
  | .start => []
  | .delta text => text
  | .call input => if streamed then [] else input

/-- The items of an event of an id that has a place. -/
def knownItems (e : ToolEvent) (i : Nat) (streamed : Bool) : List ToolCallDelta :=
  match e.kind with
  | .start => [⟨some i, some e.id, some e.name, []⟩]
  | .delta text => [⟨some i, none, none, text⟩]
  | .call input => if streamed then [] else [⟨some i, none, none, input⟩]

/-- The items of an event that gives its id a place. -/
def freshItems (e : ToolEvent) (i : Nat) : List ToolCallDelta :=
  match e.kind with
  | .start => [⟨some i, some e.id, some e.name, []⟩]
  | .delta text => [⟨some i, none, none, text⟩]
  | .call input => [⟨some i, some e.id, some e.name, input⟩]

/-- The items of an event of an id without a place. -/
def strayItems (e : ToolEvent) : List ToolCallDelta :=
  match e.kind with
  | .delta text => [⟨some 0, none, none, text⟩]
  | _ => []

variable {e : ToolEvent} {s : CommandCodeSseState}

theorem findIdx_id (hnodup : s.toolCallIds.Nodup) {i : Nat} (h : s.toolCallIds[i]? = some e.id) :
    s.toolCallIds.findIdx? (· == e.id) = some i := by
  obtain ⟨hlt, heq⟩ := List.getElem?_eq_some_iff.mp h
  rw [List.findIdx?_eq_some_iff_getElem]
  refine ⟨hlt, by simpa using heq, fun j hj => ?_⟩
  have hne : s.toolCallIds[j] ≠ e.id := fun hbad =>
    absurd ((hnodup.getElem_inj_iff).mp (hbad.trans heq.symm)) (by omega)
  simpa using hne

theorem findIdx_none (h : e.id ∉ s.toolCallIds) : s.toolCallIds.findIdx? (· == e.id) = none := by
  rw [List.findIdx?_eq_none_iff]
  intro id hid
  rw [beq_eq_false_iff_ne]
  rintro rfl
  exact h hid

theorem handle_known (hnodup : s.toolCallIds.Nodup) {i : Nat} (h : s.toolCallIds[i]? = some e.id) {streamed : Bool}
    (hstreamed : s.toolCallsStreamed[i]? = some streamed) :
    toolDeltas (e.handle s).1 = e.knownItems i streamed ∧ (e.handle s).2.toolCallIds = s.toolCallIds ∧
      (e.handle s).2.toolCallsStreamed = s.toolCallsStreamed.set i (streamed || e.hasContent) := by
  obtain ⟨hlt, rfl⟩ := List.getElem?_eq_some_iff.mp hstreamed
  have hfind := findIdx_id hnodup h
  obtain ⟨id, name, kind⟩ := e
  unfold handle knownItems hasContent
  cases kind with
  | start =>
    dsimp only
    rw [handleStart, hfind]
    exact ⟨rfl, rfl, by simp⟩
  | delta text =>
    dsimp only
    rw [handleDelta, hfind]
    exact ⟨rfl, rfl, by simp⟩
  | call input =>
    dsimp only
    rw [handleCall, hfind]
    dsimp only
    rw [List.getD_eq_getElem?_getD, hstreamed, Option.getD_some]
    cases hflag : s.toolCallsStreamed[i] with
    | true => exact ⟨rfl, rfl, by simp [← hflag]⟩
    | false => exact ⟨rfl, rfl, rfl⟩

theorem handle_fresh (h : e.id ∉ s.toolCallIds) (hroom : s.toolCallIds.length < maxCommandcodeToolCalls)
    (hlength : s.toolCallsStreamed.length = s.toolCallIds.length) :
    toolDeltas (e.handle s).1 = e.freshItems s.toolCallIds.length ∧
      (e.handle s).2.toolCallIds = s.toolCallIds ++ [e.id] ∧
      (e.handle s).2.toolCallsStreamed = s.toolCallsStreamed ++ [e.hasContent] := by
  have hfind := findIdx_none h
  have hnot : ¬ maxCommandcodeToolCalls ≤ s.toolCallIds.length := by omega
  obtain ⟨id, name, kind⟩ := e
  unfold handle freshItems hasContent
  cases kind with
  | start =>
    dsimp only
    rw [handleStart, hfind]
    dsimp only
    rw [if_neg hnot]
    exact ⟨rfl, rfl, rfl⟩
  | delta text =>
    dsimp only
    rw [handleDelta, hfind]
    dsimp only
    rw [if_pos hroom]
    exact ⟨rfl, rfl, by simp [← hlength]⟩
  | call input =>
    dsimp only
    rw [handleCall, hfind]
    dsimp only
    rw [if_neg hnot]
    exact ⟨rfl, rfl, rfl⟩

theorem handle_stray (h : e.id ∉ s.toolCallIds) (hfull : maxCommandcodeToolCalls ≤ s.toolCallIds.length) :
    toolDeltas (e.handle s).1 = e.strayItems ∧ (e.handle s).2.toolCallIds = s.toolCallIds ∧
      (e.handle s).2.toolCallsStreamed.length = s.toolCallsStreamed.length ∧
      ∀ i, (i = 0 → ¬ e.IsDelta) → (e.handle s).2.toolCallsStreamed[i]? = s.toolCallsStreamed[i]? := by
  have hfind := findIdx_none h
  have hnot : ¬ s.toolCallIds.length < maxCommandcodeToolCalls := by omega
  obtain ⟨id, name, kind⟩ := e
  unfold handle strayItems
  cases kind with
  | start =>
    dsimp only
    rw [handleStart, hfind]
    dsimp only
    rw [if_pos hfull]
    exact ⟨rfl, rfl, rfl, fun _ _ => rfl⟩
  | delta text =>
    dsimp only
    rw [handleDelta, hfind]
    dsimp only
    rw [if_neg hnot]
    refine ⟨rfl, rfl, List.length_set, fun i hi => ?_⟩
    have hne : 0 ≠ i := fun hzero => hi hzero.symm ⟨text, rfl⟩
    exact List.getElem?_set_ne hne
  | call input =>
    dsimp only
    rw [handleCall, hfind]
    dsimp only
    rw [if_pos hfull]
    exact ⟨rfl, rfl, rfl, fun _ _ => rfl⟩

theorem index_of_mem_knownItems {i : Nat} {streamed : Bool} {d : ToolCallDelta} (h : d ∈ e.knownItems i streamed) :
    d.index = some i := by
  unfold knownItems at h
  split at h
  · rw [List.mem_singleton.mp h]
  · rw [List.mem_singleton.mp h]
  · split at h
    · cases h
    · rw [List.mem_singleton.mp h]

theorem index_of_mem_freshItems {i : Nat} {d : ToolCallDelta} (h : d ∈ e.freshItems i) : d.index = some i := by
  unfold freshItems at h
  split at h <;> rw [List.mem_singleton.mp h]

theorem arguments_knownItems (e : ToolEvent) (i : Nat) (streamed : Bool) :
    (e.knownItems i streamed).flatMap (·.arguments) = e.contribution streamed := by
  unfold knownItems contribution
  split
  · rfl
  · exact List.append_nil _
  · split
    · rfl
    · exact List.append_nil _

theorem arguments_freshItems (e : ToolEvent) (i : Nat) :
    (e.freshItems i).flatMap (·.arguments) = e.contribution false := by
  unfold freshItems contribution
  split
  · rfl
  · exact List.append_nil _
  · exact List.append_nil _

end ToolEvent

/-! ### The places -/

section

variable {es : List ToolEvent} {e : ToolEvent} {id : Text}

theorem knownIds_concat (es : List ToolEvent) (e : ToolEvent) :
    knownIds (es ++ [e]) =
      if e.id ∈ knownIds es ∨ maxCommandcodeToolCalls ≤ (knownIds es).length then knownIds es
      else knownIds es ++ [e.id] := by
  rw [knownIds, List.foldl_append]
  rfl

theorem knownIds_known (h : e.id ∈ knownIds es) : knownIds (es ++ [e]) = knownIds es := by
  rw [knownIds_concat, if_pos (Or.inl h)]

theorem knownIds_stray (h : maxCommandcodeToolCalls ≤ (knownIds es).length) : knownIds (es ++ [e]) = knownIds es := by
  rw [knownIds_concat, if_pos (Or.inr h)]

theorem knownIds_fresh (h : e.id ∉ knownIds es) (hroom : (knownIds es).length < maxCommandcodeToolCalls) :
    knownIds (es ++ [e]) = knownIds es ++ [e.id] := by
  rw [knownIds_concat, if_neg (by rw [not_or, not_le]; exact ⟨h, hroom⟩)]

theorem knownIds_spec (es : List ToolEvent) :
    (knownIds es).Nodup ∧ (knownIds es).length ≤ maxCommandcodeToolCalls ∧ ∀ id ∈ knownIds es, ∃ e ∈ es, e.id = id := by
  induction es using List.reverseRecOn with
  | nil => exact ⟨List.nodup_nil, Nat.zero_le _, by simp [knownIds]⟩
  | append_singleton es e ih =>
    obtain ⟨hnodup, hlength, hmem⟩ := ih
    have hold : ∀ id ∈ knownIds es, ∃ e' ∈ es ++ [e], e'.id = id := by
      intro id hid
      obtain ⟨e', he', heq⟩ := hmem id hid
      exact ⟨e', List.mem_append_left _ he', heq⟩
    by_cases hknown : e.id ∈ knownIds es ∨ maxCommandcodeToolCalls ≤ (knownIds es).length
    · rw [knownIds_concat, if_pos hknown]
      exact ⟨hnodup, hlength, hold⟩
    · rw [knownIds_concat, if_neg hknown]
      rw [not_or, not_le] at hknown
      refine ⟨List.nodup_append.mpr ⟨hnodup, List.nodup_singleton _, ?_⟩, ?_, ?_⟩
      · intro a ha b hb heq
        rw [List.mem_singleton.mp hb] at heq
        exact hknown.1 (heq ▸ ha)
      · rw [List.length_append, List.length_singleton]
        omega
      · intro id hid
        rcases List.mem_append.mp hid with hid | hid
        · exact hold id hid
        · exact ⟨e, by simp, (List.mem_singleton.mp hid).symm⟩

/-- An id of an event has a place unless all places are taken. -/
theorem mem_knownIds_or (h : e ∈ es) : e.id ∈ knownIds es ∨ maxCommandcodeToolCalls ≤ (knownIds es).length := by
  induction es using List.reverseRecOn with
  | nil => cases h
  | append_singleton es e' ih =>
    by_cases hknown : e'.id ∈ knownIds es ∨ maxCommandcodeToolCalls ≤ (knownIds es).length
    · rw [knownIds_concat, if_pos hknown]
      rcases List.mem_append.mp h with h | h
      · exact ih h
      · rwa [List.mem_singleton.mp h]
    · rw [knownIds_concat, if_neg hknown]
      rcases List.mem_append.mp h with h | h
      · rcases ih h with hmem | hfull
        · exact Or.inl (List.mem_append_left _ hmem)
        · exact absurd (Or.inr hfull) hknown
      · rw [List.mem_singleton.mp h]
        exact Or.inl (by simp)

/-- An id that gets a place with an event has none before. -/
theorem forall_ne_of_fresh (h : id ∉ knownIds es) (hroom : (knownIds es).length < maxCommandcodeToolCalls) :
    ∀ e ∈ es, e.id ≠ id := by
  rintro e he rfl
  rcases mem_knownIds_or he with hmem | hfull
  · exact h hmem
  · omega

theorem mem_knownIds_of_concat {e' : ToolEvent} (he' : e' ∈ es) (h : e'.id ∈ knownIds (es ++ [e])) : e'.id ∈ knownIds es := by
  by_cases hknown : e.id ∈ knownIds es ∨ maxCommandcodeToolCalls ≤ (knownIds es).length
  · rwa [knownIds_concat, if_pos hknown] at h
  · rw [knownIds_concat, if_neg hknown] at h
    rw [not_or, not_le] at hknown
    rcases mem_knownIds_or he' with hmem | hfull
    · exact hmem
    · omega

theorem Undisturbed.init {i : Nat} (h : Undisturbed (es ++ [e]) i) : Undisturbed es i := fun hi e' he' hdelta =>
  mem_knownIds_of_concat he' (h hi e' (List.mem_append_left _ he') hdelta)

/-! ### The arguments and the names of an id -/

/-- Whether arguments of the id have been written, and the arguments that have been written. -/
def progress (id : Text) (es : List ToolEvent) : Bool × Text :=
  es.foldl (fun x e => if e.id = id then (x.1 || e.hasContent, x.2 ++ e.contribution x.1) else x) (false, [])

theorem progress_own (es : List ToolEvent) (e : ToolEvent) :
    progress e.id (es ++ [e]) =
      ((progress e.id es).1 || e.hasContent, (progress e.id es).2 ++ e.contribution (progress e.id es).1) := by
  rw [progress, List.foldl_append, List.foldl_cons, List.foldl_nil, if_pos rfl]
  rfl

theorem progress_other (es : List ToolEvent) (h : e.id ≠ id) : progress id (es ++ [e]) = progress id es := by
  rw [progress, List.foldl_append, List.foldl_cons, List.foldl_nil, if_neg h]
  rfl

theorem progress_of_forall_ne (h : ∀ e ∈ es, e.id ≠ id) : progress id es = (false, []) := by
  induction es using List.reverseRecOn with
  | nil => rfl
  | append_singleton es e ih =>
    rw [progress_other es (h e (by simp)), ih fun e he => h e (List.mem_append_left _ he)]

/-- A name that is announced by the last event, or has been announced before. -/
theorem Named.concat (h : Named (es ++ [e]) id) :
    Named es id ∨ (e.id = id ∧ e.name ≠ [] ∧ (e.kind = .start ∨ (e.IsCall ∧ ∀ e' ∈ es, e'.id ≠ id))) := by
  obtain ⟨e', he', hid, hname, hkind⟩ := h
  have hin : e' ∈ es ∨ e' = e := by simpa using he'
  rcases hkind with hstart | ⟨hcall, hfirst⟩
  · rcases hin with hin | rfl
    · exact Or.inl ⟨e', hin, hid, hname, Or.inl hstart⟩
    · exact Or.inr ⟨hid, hname, Or.inl hstart⟩
  · rw [List.find?_append] at hfirst
    cases hfind : es.find? (fun e => e.id = id) with
    | some e₀ =>
      rw [hfind, Option.some_or, Option.some.injEq] at hfirst
      subst hfirst
      exact Or.inl ⟨e₀, List.mem_of_find?_eq_some hfind, hid, hname, Or.inr ⟨hcall, hfind⟩⟩
    | none =>
      have hnone : ∀ e' ∈ es, e'.id ≠ id := by simpa using List.find?_eq_none.mp hfind
      rcases hin with hin | rfl
      · exact absurd hid (hnone e' hin)
      · exact Or.inr ⟨hid, hname, Or.inr ⟨hcall, hnone⟩⟩

end

end OpenProxy.Upstream.CommandCode
