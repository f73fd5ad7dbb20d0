import OpenProxy.Upstream.AnthropicStream
import OpenProxy.Upstream.Responses

/-!
# Streams of a Responses object

Which sequences of lines stream a response (`Streams`), and what a client puts together from the chunks (`folded`).  One
lemma for each kind of event says what it adds, and `reads_item` what the lines of an item add.
-/

namespace OpenProxy.Upstream.Responses

open Json

/-! ### Responses -/

/-- The call of a `function_call` item. -/
structure FunctionCall where
  id : Option Text
  callId : Option Text
  name : Text
  arguments : Text

/-- The id that a client sees. -/
def FunctionCall.ident (call : FunctionCall) : Text := (call.callId.or call.id).getD []

/-- The calls of a response are told apart by their ids. -/
def DistinctIds (call call' : FunctionCall) : Prop :=
  call.ident ≠ call'.ident ∧ ∀ id, call.id = some id → call'.id ≠ some id

/-- An item of a response. -/
inductive Item
  | reasoning (text : Text)
  | message (text : Text)
  | call (call : FunctionCall)

/-- The parts under a key have the texts. -/
def HasParts (isPart : Text → Json → Prop) (key : String) (texts : List Text) (v : Json) : Prop :=
  ∃ parts, v.get key.toList = some (array parts) ∧ List.Forall₂ isPart texts parts

/-- The value announces the call. -/
structure Announces (call : FunctionCall) (v : Json) : Prop where
  type : itemType v = "function_call".toList
  id : v.get "id".toList = call.id.map string
  callId : v.get "call_id".toList = call.callId.map string
  name : v.get "name".toList = some (string call.name)
  named : call.ident ≠ []

/-- The item is the value in the output of the response. -/
def Item.IsValue : Item → Json → Prop
  | reasoning text, v => itemType v = "reasoning".toList ∧ ∃ texts, texts.flatten = text ∧
    ((texts ≠ [] ∧ HasParts (fun text part => strMember part "text" = some text) "content" texts v) ∨
      (v.get "content".toList ∈ [none, some null, some (array [])] ∧
        HasParts (fun text part => strMember part "text" = some text) "summary" texts v))
  | message text, v => itemType v = "message".toList ∧ ∃ texts, texts.flatten = text ∧
    HasParts (fun text part => itemType part = "output_text".toList ∧ strMember part "text" = some text) "content" texts v
  | call c, v => Announces c v ∧ v.get "arguments".toList = some (string c.arguments)

/-! ### Lines -/

/-- The line is an event of one of the types. -/
def IsEvent (types : List String) (holds : Json → Prop) (line : Text) : Prop :=
  ∃ v, IsDocumentLine v line ∧ errorMember v = none ∧
    (∃ type ∈ types, strMember v "type" = some type.toList) ∧ holds v

/-- The types of the events that may say something. -/
def speakingTypes : List Text :=
  ["response.output_item.added".toList, "response.output_item.done".toList,
    "response.function_call_arguments.delta".toList, "response.function_call_arguments.done".toList,
    "response.content_part.added".toList, "response.reasoning_text.delta".toList,
    "response.reasoning_summary.delta".toList, "response.reasoning_summary_text.delta".toList,
    "response.output_text.delta".toList, "response.text.delta".toList, "response.audio.delta".toList,
    "response.done".toList, "response.completed".toList, "response.incomplete".toList]

/-- The event says nothing: it is of another type, or about an item that is no call, or begins an empty part. -/
def SaysNothing (v : Json) : Prop :=
  (strMember v "type").getD [] ∉ speakingTypes ∨
    ((strMember v "type" = some "response.output_item.added".toList ∨
        strMember v "type" = some "response.output_item.done".toList) ∧
      ∀ item, v.get "item".toList = some item → itemType item ≠ "function_call".toList) ∨
    (strMember v "type" = some "response.content_part.added".toList ∧
      ((v.get "part".toList).bind fun part => strMember part "text").getD [] = [])

/-- A line that says nothing. -/
def IsSilent (line : Text) : Prop :=
  parseSseDataOrDone line = .skip ∨ ∃ v, IsDocumentLine v line ∧ errorMember v = none ∧ SaysNothing v

/-- Pieces in their order, with silent lines between them. -/
inductive Pieces (isPiece : Text → Text → Prop) : List Text → List Text → Prop
  | nil : Pieces isPiece [] []
  | silent {line : Text} {pieces lines : List Text} (hline : IsSilent line) (hrest : Pieces isPiece pieces lines) :
      Pieces isPiece pieces (line :: lines)
  | piece {piece line : Text} {pieces lines : List Text} (hline : isPiece piece line)
      (hrest : Pieces isPiece pieces lines) : Pieces isPiece (piece :: pieces) (line :: lines)

def IsReasoningDelta (piece line : Text) : Prop :=
  IsEvent ["response.reasoning_text.delta", "response.reasoning_summary.delta", "response.reasoning_summary_text.delta"]
    (fun v => strMember v "delta" = some piece) line

def IsTextDelta (piece line : Text) : Prop :=
  IsEvent ["response.output_text.delta", "response.text.delta"] (fun v => strMember v "delta" = some piece) line

/-- The event has no other ids than those of the call. -/
def Addresses (call : FunctionCall) (v : Json) : Prop :=
  (eventIds v).1 ∈ [[], call.id.getD []] ∧ (eventIds v).2 ∈ [[], call.ident]

def IsArgumentsDelta (call : FunctionCall) (piece line : Text) : Prop :=
  IsEvent ["response.function_call_arguments.delta"]
    (fun v => strMember v "delta" = some piece ∧ Addresses call v) line

/-- The line has the whole call. -/
def IsCallDone (call : FunctionCall) (line : Text) : Prop :=
  IsEvent ["response.function_call_arguments.done"]
    (fun v => strMember v "arguments" = some call.arguments ∧ Addresses call v) line ∨
  IsEvent ["response.output_item.done"]
    (fun v => ∃ item, v.get "item".toList = some item ∧ (Item.call call).IsValue item) line

/-- The lines stream the item. -/
inductive StreamsItem : Item → List Text → Prop
  | reasoning {pieces lines : List Text} (h : Pieces IsReasoningDelta pieces lines) :
      StreamsItem (.reasoning pieces.flatten) lines
  | message {pieces lines : List Text} (h : Pieces IsTextDelta pieces lines) : StreamsItem (.message pieces.flatten) lines
  | call {call : FunctionCall} {before deltas after pieces : List Text} {start : Text}
      (hbefore : ∀ line ∈ before, IsSilent line)
      (hstart : IsEvent ["response.output_item.added"]
        (fun v => ∃ item, v.get "item".toList = some item ∧ Announces call item) start)
      (hdeltas : Pieces (IsArgumentsDelta call) pieces deltas) (hpieces : pieces.flatten = call.arguments)
      (hafter : ∀ line ∈ after, IsSilent line ∨ IsCallDone call line) :
      StreamsItem (.call call) (before ++ start :: (deltas ++ after))

/-- The last event, with the response. -/
def IsTerminal (r : Json) (line : Text) : Prop :=
  IsEvent ["response.completed", "response.incomplete"]
    (fun v => v.get "response".toList = some r ∧ v.get "usage".toList = none) line

def Item.functionCall : Item → Option FunctionCall
  | call c => some c
  | _ => none

/-- The lines stream the response with the items. -/
structure Streams (r : Json) (items : List Item) (lines : List Text) : Prop where
  output : ∃ values, r.get "output".toList = some (array values) ∧ List.Forall₂ Item.IsValue items values
  usage : (r.get "usage".toList).isSome = true
  noError : (r.get "error".toList).filter nonNull = none
  distinct : (items.filterMap Item.functionCall).Pairwise DistinctIds
  sequence : ∃ parts after last, List.Forall₂ StreamsItem items parts ∧ (∀ line ∈ after, IsSilent line) ∧
    IsTerminal r last ∧ lines = parts.flatten ++ after ++ [last]

/-! ### What a client puts together -/

/-- The message that the chunks make. -/
structure Folded extends Streamed where
  finishReason : Option Text

def Folded.add (m : Folded) (chunk : UpstreamSseChunk) : Folded where
  toStreamed := m.toStreamed.add chunk
  finishReason := (chunk.payload.bind (·.finishReason)).or m.finishReason

/-- One line; `none` after an error. -/
def advance (modelName : Text) (x : ResponsesSseState × Folded) (line : Text) : Option (ResponsesSseState × Folded) :=
  match parseResponsesSseStreamLine modelName line x.1 with
  | (.ok chunk, s) => some (s, (chunk.map x.2.add).getD x.2)
  | (.error _, _) => none

/-- The message that the lines make. -/
def folded (modelName : Text) (lines : List Text) : Option Folded :=
  (watch (advance modelName) (.new, ⟨⟨[], [], [], none⟩, none⟩) lines).map (·.2)

/-! ### The kinds of events -/

section

variable {v : Json} (usage : Option OpenAIUsage) (s : ResponsesSseState)

theorem handleEvent_added (h : strMember v "type" = some "response.output_item.added".toList) :
    handleEvent v usage s =
      match v.get "item".toList with
      | some item => handleItemAdded item s
      | none => (none, s) := by
  unfold handleEvent
  rw [h, Option.getD_some, if_neg (by decide)]
  exact if_pos rfl

theorem handleEvent_argumentsDelta (h : strMember v "type" = some "response.function_call_arguments.delta".toList) :
    handleEvent v usage s = handleArgumentsDelta v s := by
  unfold handleEvent
  rw [h, Option.getD_some, if_neg (by decide), if_neg (by decide), if_pos rfl]

theorem handleEvent_argumentsDone (h : strMember v "type" = some "response.function_call_arguments.done".toList) :
    handleEvent v usage s = handleArgumentsDone (eventIds v) ((strMember v "arguments").getD []) s := by
  unfold handleEvent
  rw [h, Option.getD_some, if_neg (by decide), if_neg (by decide), if_neg (by decide), if_pos rfl]

theorem handleEvent_itemDone (h : strMember v "type" = some "response.output_item.done".toList) :
    handleEvent v usage s =
      match v.get "item".toList with
      | some item =>
        if itemType item = "function_call".toList then
          handleArgumentsDone (itemIds item) ((strMember item "arguments").getD []) s
        else (none, s)
      | none => (none, s) := by
  unfold handleEvent
  rw [h, Option.getD_some, if_neg (by decide), if_neg (by decide), if_neg (by decide), if_neg (by decide)]
  exact if_pos rfl

theorem handleEvent_partAdded (h : strMember v "type" = some "response.content_part.added".toList)
    (hpart : ((v.get "part".toList).bind fun part => strMember part "text").getD [] = []) :
    handleEvent v usage s = (none, s) := by
  unfold handleEvent
  rw [h, Option.getD_some, if_neg (by decide), if_neg (by decide), if_neg (by decide), if_neg (by decide),
    if_neg (by decide), if_pos rfl, hpart]
  rfl

theorem handleEvent_reasoning {type : String}
    (htype : type ∈ ["response.reasoning_text.delta", "response.reasoning_summary.delta",
      "response.reasoning_summary_text.delta"]) (h : strMember v "type" = some type.toList) :
    handleEvent v usage s = (some (handleTextDelta makeReasoningDelta v), s) := by
  unfold handleEvent
  rw [h, Option.getD_some]
  simp only [List.mem_cons, List.not_mem_nil, or_false] at htype
  rcases htype with rfl | rfl | rfl <;>
    rw [if_neg (by decide), if_neg (by decide), if_neg (by decide), if_neg (by decide), if_neg (by decide),
      if_neg (by decide), if_pos (by decide)]

theorem handleEvent_text {type : String} (htype : type ∈ ["response.output_text.delta", "response.text.delta"])
    (h : strMember v "type" = some type.toList) :
    handleEvent v usage s = (some (handleTextDelta makeTextDelta v), s) := by
  unfold handleEvent
  rw [h, Option.getD_some]
  simp only [List.mem_cons, List.not_mem_nil, or_false] at htype
  rcases htype with rfl | rfl <;>
    rw [if_neg (by decide), if_neg (by decide), if_neg (by decide), if_neg (by decide), if_neg (by decide),
      if_neg (by decide), if_neg (by decide), if_pos (by decide)]

theorem handleEvent_completed {type : String} (htype : type ∈ ["response.completed", "response.incomplete"])
    (h : strMember v "type" = some type.toList) :
    handleEvent v usage s = (some (handleCompleted v usage s), s) := by
  unfold handleEvent
  rw [h, Option.getD_some]
  simp only [List.mem_cons, List.not_mem_nil, or_false] at htype
  rcases htype with rfl | rfl <;>
    rw [if_neg (by decide), if_neg (by decide), if_neg (by decide), if_neg (by decide), if_neg (by decide),
      if_neg (by decide), if_neg (by decide), if_neg (by decide), if_pos (by decide)]

/-- An event that does not speak is at most a sign of life. -/
theorem handleEvent_other (h : (strMember v "type").getD [] ∉ speakingTypes) :
    handleEvent v usage s =
      (if (strMember v "type").getD [] ∈ ["response.created".toList, "response.in_progress".toList] then some .liveness
        else none, s) := by
  unfold handleEvent
  generalize (strMember v "type").getD [] = type at h
  unfold speakingTypes at h
  simp only [List.mem_cons, not_or] at h
  obtain ⟨hadded, hdone, hdelta, hargs, hpart, hr1, hr2, hr3, ht1, ht2, ht3, he1, he2, he3, hnil⟩ := h
  have hreasoning : type ∉ ["response.reasoning_text.delta".toList, "response.reasoning_summary.delta".toList,
      "response.reasoning_summary_text.delta".toList] := by
    simp only [List.mem_cons, List.not_mem_nil, or_false, not_or]
    exact ⟨hr1, hr2, hr3⟩
  have htext : type ∉ ["response.output_text.delta".toList, "response.text.delta".toList,
      "response.audio.delta".toList] := by
    simp only [List.mem_cons, List.not_mem_nil, or_false, not_or]
    exact ⟨ht1, ht2, ht3⟩
  have hend : type ∉ ["response.done".toList, "response.completed".toList, "response.incomplete".toList] := by
    simp only [List.mem_cons, List.not_mem_nil, or_false, not_or]
    exact ⟨he1, he2, he3⟩
  dsimp only
  rw [if_neg hadded, if_neg hdelta, if_neg hargs, if_neg hdone, if_neg hpart, if_neg hreasoning, if_neg htext,
    if_neg hend]
  split_ifs <;> rfl

/-- An event that says nothing adds nothing. -/
theorem handleEvent_nothing (h : SaysNothing v) :
    ∃ chunk, (chunk = none ∨ chunk = some .liveness) ∧ ∀ usage s, handleEvent v usage s = (chunk, s) := by
  rcases h with htype | ⟨htype | htype, hitem⟩ | ⟨htype, hpart⟩
  · refine ⟨_, ?_, fun usage s => handleEvent_other usage s htype⟩
    split_ifs
    · exact Or.inr rfl
    · exact Or.inl rfl
  · cases hmember : v.get "item".toList with
    | none => exact ⟨none, Or.inl rfl, fun usage s => by rw [handleEvent_added usage s htype, hmember]⟩
    | some item =>
      refine ⟨if itemType item ∈ ["reasoning".toList, "message".toList] then some .liveness else none, ?_, ?_⟩
      · split_ifs
        · exact Or.inr rfl
        · exact Or.inl rfl
      · intro usage s
        rw [handleEvent_added usage s htype, hmember]
        simp only [handleItemAdded, if_neg (hitem item hmember)]
        split_ifs <;> rfl
  · refine ⟨none, Or.inl rfl, fun usage s => ?_⟩
    rw [handleEvent_itemDone usage s htype]
    cases hmember : v.get "item".toList with
    | none => rfl
    | some item => exact if_neg (hitem item hmember)
  · exact ⟨none, Or.inl rfl, fun usage s => handleEvent_partAdded usage s htype hpart⟩

end

/-! ### Reading the lines -/

/-- The lines lead from the calls and the message to others, whatever usage has been seen. -/
def Reads (modelName : Text) (calls : List CallState) (m : Folded) (lines : List Text) (calls' : List CallState)
    (m' : Folded) : Prop :=
  ∀ usage, ∃ usage', watch (advance modelName) (⟨calls, usage⟩, m) lines = some (⟨calls', usage'⟩, m')

section

variable {modelName : Text} {calls calls' calls'' : List CallState} {m m' m'' : Folded} {line : Text}
  {lines lines' : List Text}

theorem reads_nil : Reads modelName calls m [] calls m := fun usage => ⟨usage, rfl⟩

theorem Reads.append (h : Reads modelName calls m lines calls' m') (h' : Reads modelName calls' m' lines' calls'' m'') :
    Reads modelName calls m (lines ++ lines') calls'' m'' := by
  intro usage
  obtain ⟨usage', hlines⟩ := h usage
  obtain ⟨usage'', hlines'⟩ := h' usage'
  refine ⟨usage'', ?_⟩
  rw [watch_append, hlines, Option.bind_some, hlines']

theorem Reads.cons (h : Reads modelName calls m [line] calls' m') (h' : Reads modelName calls' m' lines calls'' m'') :
    Reads modelName calls m (line :: lines) calls'' m'' := h.append h'

theorem reads_skip (h : parseSseDataOrDone line = .skip) : Reads modelName calls m [line] calls m := by
  intro usage
  refine ⟨usage, ?_⟩
  simp [advance, parseResponsesSseStreamLine, h]

/-- An event is handled with its usage. -/
theorem reads_event (modelName : Text) (calls : List CallState) (m : Folded) {v : Json}
    (hline : IsDocumentLine v line) (herror : errorMember v = none) {chunk : Option UpstreamSseChunk}
    (h : ∀ usage usage', handleEvent v usage ⟨calls, usage'⟩ = (chunk, ⟨calls', usage'⟩)) :
    Reads modelName calls m [line] calls' ((chunk.map m.add).getD m) := by
  obtain ⟨data, hdata, hread⟩ := hline
  intro usage
  cases hmember : (usageMember v).map (responsesUsage satAdd32) with
  | none => exact ⟨usage, by simp [advance, parseResponsesSseStreamLine, hdata, hread, herror, hmember, h]⟩
  | some new =>
    exact ⟨some ((usage.map fun existing => mergeUsage existing new).getD new),
      by simp [advance, parseResponsesSseStreamLine, hdata, hread, herror, hmember, h]⟩

@[simp] theorem add_liveness (m : Folded) : m.add .liveness = m := by
  simp [Folded.add, Streamed.add, UpstreamSseChunk.liveness]

theorem reads_silent (h : IsSilent line) : Reads modelName calls m [line] calls m := by
  rcases h with hskip | ⟨v, hline, herror, hnothing⟩
  · exact reads_skip hskip
  · obtain ⟨chunk, hchunk, hevent⟩ := handleEvent_nothing hnothing
    have hreads := reads_event modelName calls m hline herror
      fun usage usage' => hevent usage ⟨calls, usage'⟩
    rcases hchunk with rfl | rfl
    · exact hreads
    · rwa [Option.map_some, add_liveness] at hreads

theorem reads_silents (h : ∀ line ∈ lines, IsSilent line) : Reads modelName calls m lines calls m := by
  induction lines with
  | nil => exact reads_nil
  | cons line lines ih =>
    rw [List.forall_mem_cons] at h
    exact (reads_silent h.1).cons (ih h.2)

/-- Pieces that are added to a text one after the other. -/
theorem reads_pieces (modelName : Text) (calls : List CallState) {isPiece : Text → Text → Prop}
    (put : Folded → Text → Folded) (hnil : ∀ m, put m [] = m) (happend : ∀ m s t, put (put m s) t = put m (s ++ t))
    (hpiece : ∀ piece line m, isPiece piece line → Reads modelName calls m [line] calls (put m piece)) {pieces : List Text}
    (h : Pieces isPiece pieces lines) (m : Folded) : Reads modelName calls m lines calls (put m pieces.flatten) := by
  induction h generalizing m with
  | nil =>
    rw [List.flatten_nil, hnil]
    exact reads_nil
  | silent hline _ ih => exact (reads_silent hline).cons (ih m)
  | piece hline _ ih =>
    rw [List.flatten_cons, ← happend]
    exact (hpiece _ _ m hline).cons (ih _)

theorem reads_reasoning {piece : Text} (h : IsReasoningDelta piece line) :
    Reads modelName calls m [line] calls { m with reasoning := m.reasoning ++ piece } := by
  obtain ⟨v, hline, herror, ⟨type, htype, hkind⟩, hdelta⟩ := h
  have hreads := reads_event modelName calls m hline herror
    fun usage usage' => handleEvent_reasoning usage ⟨calls, usage'⟩ htype hkind
  rw [handleTextDelta, hdelta, Option.getD_some, Option.map_some, Option.getD_some] at hreads
  cases piece with
  | nil => simpa using hreads
  | cons c s =>
    simpa [Folded.add, Streamed.add, makeReasoningDelta, UpstreamSseChunk.ofDelta] using hreads

theorem reads_text {piece : Text} (h : IsTextDelta piece line) :
    Reads modelName calls m [line] calls { m with content := m.content ++ piece } := by
  obtain ⟨v, hline, herror, ⟨type, htype, hkind⟩, hdelta⟩ := h
  have hreads := reads_event modelName calls m hline herror
    fun usage usage' => handleEvent_text usage ⟨calls, usage'⟩ htype hkind
  rw [handleTextDelta, hdelta, Option.getD_some, Option.map_some, Option.getD_some] at hreads
  cases piece with
  | nil => simpa using hreads
  | cons c s => simpa [Folded.add, Streamed.add, makeTextDelta, UpstreamSseChunk.ofDelta] using hreads

end

/-! ### Calls -/

section

variable {modelName : Text} {earlier : List CallState} {tc : CallState} {m : Folded} {c : FunctionCall} {line : Text}
  {itemId callId : Text}

theorem findToolCallIndex_none (h : ∀ tc ∈ earlier, tc.hasId itemId callId = false) :
    findToolCallIndex earlier itemId callId = none := by
  rw [findToolCallIndex, Option.map_eq_none_iff, List.findIdx?_eq_none_iff]
  intro tc htc
  exact h tc (List.mem_reverse.mp htc)

/-- The ids of the last call, or none, find the last call if they find one. -/
theorem findToolCallIndex_last (earlier : List CallState) (hitem : itemId ∈ [[], tc.itemId])
    (hcall : callId ∈ [[], tc.id]) :
    findToolCallIndex (earlier ++ [tc]) itemId callId = some earlier.length ∨
      findToolCallIndex (earlier ++ [tc]) itemId callId = none := by
  by_cases hid : tc.hasId itemId callId = true
  · left
    rw [findToolCallIndex, List.reverse_append, List.reverse_singleton, List.singleton_append, List.findIdx?_cons,
      if_pos hid]
    simp
  · right
    apply findToolCallIndex_none
    simp only [List.mem_cons, List.not_mem_nil, or_false] at hitem hcall
    have hempty : itemId = [] ∧ callId = [] := by
      unfold CallState.hasId at hid
      rcases hitem with rfl | rfl <;> rcases hcall with rfl | rfl <;> simp_all
    intro tc _
    simp [CallState.hasId, hempty.1, hempty.2]

theorem modify_last (f : CallState → CallState) : (earlier ++ [tc]).modify earlier.length f = earlier ++ [f tc] := by
  induction earlier with
  | nil => rfl
  | cons first earlier ih => rw [List.cons_append, List.length_cons, List.modify_succ_cons, ih, List.cons_append]

/-- The last call with its ids. -/
structure CallState.IsOf (tc : CallState) (c : FunctionCall) : Prop where
  id : tc.id = c.ident
  itemId : tc.itemId = c.id.getD []

theorem reads_delta (modelName : Text) {piece : Text} (h : IsArgumentsDelta c piece line) (htc : tc.IsOf c)
    (hcap : utf8Len tc.arguments + utf8Len piece ≤ maxResponsesToolCallArgsBytes) {first : List (Nat × OpenAIToolCall)}
    {call : OpenAIToolCall} (hfirst : ∀ call ∈ first, call.1 < earlier.length)
    (hm : m.toolCalls = first ++ [(earlier.length, call)]) :
    Reads modelName (earlier ++ [tc]) m [line] (earlier ++ [{ tc with arguments := tc.arguments ++ piece }])
      { m with toolCalls := first ++ [(earlier.length, { call with arguments := call.arguments ++ piece })] } := by
  obtain ⟨v, hline, herror, ⟨type, htype, hkind⟩, hdelta, hitem, hcall⟩ := h
  obtain rfl := List.mem_singleton.mp htype
  rw [← htc.id] at hcall
  rw [← htc.itemId] at hitem
  have hindex : (findToolCallIndex (earlier ++ [tc]) (eventIds v).1 (eventIds v).2).getD
      ((earlier ++ [tc]).length - 1) = earlier.length := by
    rcases findToolCallIndex_last earlier hitem hcall with hfind | hfind <;> simp [hfind]
  have hhandle : ∀ usage usage', handleEvent v usage ⟨earlier ++ [tc], usage'⟩ =
      (some (makeToolCallDelta earlier.length piece),
        ⟨earlier ++ [{ tc with arguments := tc.arguments ++ piece }], usage'⟩) := by
    intro usage usage'
    rw [handleEvent_argumentsDelta _ _ hkind, handleArgumentsDelta, hdelta]
    dsimp only
    rw [if_neg (by simp), hindex]
    have hheld : (earlier ++ [tc])[earlier.length]? = some tc := by simp
    rw [hheld, Option.map_some, Option.getD_some, if_neg (by omega), setArguments, modify_last]
  have hreads := reads_event modelName _ m hline herror hhandle
  rw [Option.map_some, Option.getD_some] at hreads
  have hadd : m.add (makeToolCallDelta earlier.length piece) =
      { m with toolCalls := first ++ [(earlier.length, { call with arguments := call.arguments ++ piece })] } := by
    have hlast := addToolCall_last hfirst call none none piece
    simp [Folded.add, Streamed.add, makeToolCallDelta, UpstreamSseChunk.ofDelta, hm, hlast]
  rwa [hadd] at hreads

/-- The fragments of the arguments, as long as their total is below the cap. -/
theorem reads_deltas (modelName : Text) {pieces lines : List Text} (h : Pieces (IsArgumentsDelta c) pieces lines)
    (htc : tc.IsOf c) (hcap : utf8Len tc.arguments + utf8Len pieces.flatten ≤ maxResponsesToolCallArgsBytes)
    {first : List (Nat × OpenAIToolCall)} {call : OpenAIToolCall} (hfirst : ∀ call ∈ first, call.1 < earlier.length)
    (hm : m.toolCalls = first ++ [(earlier.length, call)]) :
    Reads modelName (earlier ++ [tc]) m lines
      (earlier ++ [{ tc with arguments := tc.arguments ++ pieces.flatten }])
      { m with toolCalls := first ++ [(earlier.length, { call with arguments := call.arguments ++ pieces.flatten })] } := by
  induction h generalizing tc m call with
  | nil =>
    have hsame : ({ m with toolCalls := first ++ [(earlier.length, call)] } : Folded) = m := by rw [← hm]
    simpa [hsame] using reads_nil
  | silent hline _ ih => exact (reads_silent hline).cons (ih htc hcap hm)
  | @piece piece line pieces lines hline _ ih =>
    rw [List.flatten_cons, utf8Len_append] at hcap
    have hnext := reads_delta modelName hline htc (by omega) hfirst hm
    have hcap' : utf8Len (tc.arguments ++ piece) + utf8Len pieces.flatten ≤ maxResponsesToolCallArgsBytes := by
      rw [utf8Len_append]
      omega
    have htc' : CallState.IsOf { tc with arguments := tc.arguments ++ piece } c := ⟨htc.id, htc.itemId⟩
    have hm' : ({ m with toolCalls :=
        first ++ [(earlier.length, { call with arguments := call.arguments ++ piece })] } : Folded).toolCalls =
          first ++ [(earlier.length, { call with arguments := call.arguments ++ piece })] := rfl
    have hrest := ih htc' hcap' hm'
    simpa using hnext.cons hrest

theorem itemIds_of_announces {item : Json} (h : Announces c item) : itemIds item = (c.id.getD [], c.ident) := by
  have hnamed := h.named
  have hstr : ∀ id : Option Text, (id.map string).bind asStr = id := by
    intro id
    cases id <;> rfl
  unfold FunctionCall.ident at hnamed ⊢
  unfold itemIds strMember
  rw [h.id, h.callId, hstr, hstr]
  cases hcall : c.callId with
  | some callId => rfl
  | none =>
    cases hid : c.id with
    | none =>
      rw [hcall, hid] at hnamed
      exact absurd rfl hnamed
    | some id =>
      rw [hcall, hid] at hnamed
      have hne : ¬ id.isEmpty = true := by
        rw [List.isEmpty_iff]
        exact hnamed
      show (id, if id.isEmpty = true then "call_xyz".toList else id) = (id, id)
      rw [if_neg hne]

theorem missingDelta_self (arguments : Text) : missingDelta arguments arguments = [] := by
  unfold missingDelta
  rw [if_neg (by omega), if_neg]
  cases arguments <;> simp

/-- What a call has already is not missing. -/
theorem handleArgumentsDone_last (hitem : itemId ∈ [[], tc.itemId]) (hcall : callId ∈ [[], tc.id])
    (usage : Option OpenAIUsage) :
    handleArgumentsDone (itemId, callId) tc.arguments ⟨earlier ++ [tc], usage⟩ = (none, ⟨earlier ++ [tc], usage⟩) := by
  unfold handleArgumentsDone
  rcases findToolCallIndex_last earlier hitem hcall with hfind | hfind
  · have hheld : (earlier ++ [tc])[earlier.length]? = some tc := by simp
    simp only [hfind, hheld, Option.map_some, Option.getD_some, missingDelta_self, setArguments, modify_last,
      List.isEmpty_nil, if_true]
  · simp only [hfind]

theorem reads_done (h : IsCallDone c line) (htc : tc.IsOf c) (harguments : tc.arguments = c.arguments) :
    Reads modelName (earlier ++ [tc]) m [line] (earlier ++ [tc]) m := by
  rcases h with ⟨v, hline, herror, ⟨type, htype, hkind⟩, hargs, hitem, hcall⟩ |
    ⟨v, hline, herror, ⟨type, htype, hkind⟩, item, hmember, hann, hargs⟩
  · obtain rfl := List.mem_singleton.mp htype
    rw [← htc.id] at hcall
    rw [← htc.itemId] at hitem
    show Reads modelName _ m [line] _ ((Option.map m.add none).getD m)
    refine reads_event modelName _ m hline herror fun usage usage' => ?_
    rw [handleEvent_argumentsDone _ _ hkind, hargs, Option.getD_some, ← harguments]
    exact handleArgumentsDone_last hitem hcall usage'
  · obtain rfl := List.mem_singleton.mp htype
    show Reads modelName _ m [line] _ ((Option.map m.add none).getD m)
    refine reads_event modelName _ m hline herror fun usage usage' => ?_
    have hstr : (strMember item "arguments").getD [] = tc.arguments := by
      rw [strMember, hargs, harguments]
      rfl
    rw [handleEvent_itemDone _ _ hkind, hmember]
    dsimp only
    rw [if_pos hann.type, hstr, itemIds_of_announces hann, ← htc.id, ← htc.itemId]
    exact handleArgumentsDone_last (by simp) (by simp) usage'

theorem reads_start (modelName : Text) (h : IsEvent ["response.output_item.added"]
      (fun v => ∃ item, v.get "item".toList = some item ∧ Announces c item) line)
    (hfresh : ∀ tc ∈ earlier, tc.hasId (c.id.getD []) c.ident = false) (hcount : earlier.length < maxResponsesToolCalls)
    (hm : ∀ call ∈ m.toolCalls, call.1 < earlier.length) :
    Reads modelName earlier m [line] (earlier ++ [⟨c.ident, c.id.getD [], c.name, []⟩])
      { m with toolCalls := m.toolCalls ++ [(earlier.length, ⟨c.ident, c.name, []⟩)] } := by
  obtain ⟨v, hline, herror, ⟨type, htype, hkind⟩, item, hmember, hann⟩ := h
  obtain rfl := List.mem_singleton.mp htype
  have hname : (strMember item "name").getD [] = c.name := by
    rw [strMember, hann.name]
    rfl
  have hhandle : ∀ usage usage', handleEvent v usage ⟨earlier, usage'⟩ =
      (some (makeToolCallStart earlier.length c.ident c.name),
        ⟨earlier ++ [⟨c.ident, c.id.getD [], c.name, []⟩], usage'⟩) := by
    intro usage usage'
    rw [handleEvent_added _ _ hkind, hmember]
    dsimp only
    rw [handleItemAdded, if_pos hann.type, itemIds_of_announces hann]
    simp only [hname, findToolCallIndex_none hfresh]
    rw [if_neg (by omega)]
  have hreads := reads_event modelName _ m hline herror hhandle
  rw [Option.map_some, Option.getD_some] at hreads
  have hadd : m.add (makeToolCallStart earlier.length c.ident c.name) =
      { m with toolCalls := m.toolCalls ++ [(earlier.length, ⟨c.ident, c.name, []⟩)] } := by
    have hnew := addToolCall_new hm c.ident c.name []
    simp [Folded.add, Streamed.add, makeToolCallStart, UpstreamSseChunk.ofDelta, hnew]
  rwa [hadd] at hreads

end

/-! ### Items -/

/-- The state of a call that has been streamed. -/
def FunctionCall.state (c : FunctionCall) : CallState := ⟨c.ident, c.id.getD [], c.name, c.arguments⟩

open FunctionCall (state)

def FunctionCall.toolCall (c : FunctionCall) : OpenAIToolCall := ⟨c.ident, c.name, c.arguments⟩

def Item.content : Item → Text
  | message text => text
  | _ => []

def Item.thinking : Item → Text
  | reasoning text => text
  | _ => []

/-- The calls with their indices. -/
def numbered (calls : List OpenAIToolCall) : List (Nat × OpenAIToolCall) := calls.zipIdx.map fun call => (call.2, call.1)

theorem numbered_append (calls : List OpenAIToolCall) (call : OpenAIToolCall) :
    numbered (calls ++ [call]) = numbered calls ++ [(calls.length, call)] := by
  simp [numbered, List.zipIdx_append]

theorem lt_of_mem_numbered {calls : List OpenAIToolCall} {call : Nat × OpenAIToolCall} (h : call ∈ numbered calls) :
    call.1 < calls.length := by
  obtain ⟨⟨tc, i⟩, hmem, rfl⟩ := List.mem_map.mp h
  have := List.snd_lt_of_mem_zipIdx hmem
  simpa using this

/-- The calls of the items. -/
def functionCalls (items : List Item) : List FunctionCall := items.filterMap Item.functionCall

/-- The message that the items make. -/
def foldedOf (items : List Item) : Folded :=
  ⟨⟨items.flatMap Item.content, items.flatMap Item.thinking,
    numbered ((functionCalls items).map FunctionCall.toolCall), none⟩, none⟩

theorem hasId_of_distinct {c c' : FunctionCall} (h : DistinctIds c c') :
    c.state.hasId (c'.id.getD []) c'.ident = false := by
  obtain ⟨hident, hid⟩ := h
  rw [CallState.hasId, Bool.or_eq_false_iff]
  refine ⟨?_, ?_⟩
  · cases hid' : c'.id with
    | none => rfl
    | some id =>
      rw [Option.getD_some, Bool.and_eq_false_iff]
      by_cases hempty : id = []
      · left
        rw [hempty]
        rfl
      · right
        rw [beq_eq_false_iff_ne, state]
        intro heq
        cases hc : c.id with
        | none =>
          rw [hc, Option.getD_none] at heq
          exact hempty heq.symm
        | some id' =>
          rw [hc, Option.getD_some] at heq
          exact hid id' hc (hid'.trans (congrArg some heq.symm))
  · rw [Bool.and_eq_false_iff]
    right
    rw [beq_eq_false_iff_ne]
    exact hident

theorem functionCalls_concat {items : List Item} {item : Item} (h : item.functionCall = none) :
    functionCalls (items ++ [item]) = functionCalls items := by
  rw [functionCalls, List.filterMap_append, List.filterMap_cons_none h]
  exact List.append_nil _

/-- The lines of an item add the item to the message. -/
theorem reads_item (modelName : Text) {items : List Item} {item : Item} {lines : List Text} (h : StreamsItem item lines)
    (hdistinct : (functionCalls (items ++ [item])).Pairwise DistinctIds)
    (hcount : (functionCalls (items ++ [item])).length ≤ maxResponsesToolCalls)
    (hcap : ∀ c ∈ functionCalls (items ++ [item]), utf8Len c.arguments ≤ maxResponsesToolCallArgsBytes) :
    Reads modelName ((functionCalls items).map state) (foldedOf items) lines
      ((functionCalls (items ++ [item])).map state) (foldedOf (items ++ [item])) := by
  cases h with
  | @reasoning pieces lines h =>
    have hcalls : functionCalls (items ++ [.reasoning pieces.flatten]) = functionCalls items := functionCalls_concat rfl
    have hreads := reads_pieces modelName ((functionCalls items).map state)
      (fun m s => { m with reasoning := m.reasoning ++ s }) (fun m => by simp) (fun m s t => by simp)
      (fun piece line m hline => reads_reasoning hline) h (foldedOf items)
    rw [hcalls]
    simpa [foldedOf, hcalls, Item.content, Item.thinking] using hreads
  | @message pieces lines h =>
    have hcalls : functionCalls (items ++ [.message pieces.flatten]) = functionCalls items := functionCalls_concat rfl
    have hreads := reads_pieces modelName ((functionCalls items).map state)
      (fun m s => { m with content := m.content ++ s }) (fun m => by simp) (fun m s t => by simp)
      (fun piece line m hline => reads_text hline) h (foldedOf items)
    rw [hcalls]
    simpa [foldedOf, hcalls, Item.content, Item.thinking] using hreads
  | @call c before deltas after pieces start hbefore hstart hdeltas hpieces hafter =>
    have hcalls : functionCalls (items ++ [.call c]) = functionCalls items ++ [c] := by
      simp [functionCalls, Item.functionCall]
    rw [hcalls] at hdistinct hcount hcap ⊢
    rw [List.length_append, List.length_singleton] at hcount
    rw [List.pairwise_append] at hdistinct
    have hfresh : ∀ tc ∈ (functionCalls items).map state, tc.hasId (c.id.getD []) c.ident = false := by
      intro tc htc
      obtain ⟨c', hc', rfl⟩ := List.mem_map.mp htc
      exact hasId_of_distinct (hdistinct.2.2 c' hc' c (List.mem_singleton_self c))
    have hlength : ((functionCalls items).map state).length = (functionCalls items).length := by simp
    have hindices : ∀ call ∈ (foldedOf items).toolCalls, call.1 < ((functionCalls items).map state).length := by
      intro call hcall
      have := lt_of_mem_numbered hcall
      rwa [List.length_map, ← hlength] at this
    have hbegin := reads_start modelName hstart hfresh (by omega) hindices
    have htc : CallState.IsOf ⟨c.ident, c.id.getD [], c.name, []⟩ c := ⟨rfl, rfl⟩
    have hargs := reads_deltas modelName hdeltas htc
      (by simpa [hpieces, utf8Len] using hcap c (by simp)) hindices
      (m := { foldedOf items with toolCalls := (foldedOf items).toolCalls ++
        [(((functionCalls items).map state).length, ⟨c.ident, c.name, []⟩)] }) rfl
    rw [hpieces] at hargs
    simp only [List.nil_append] at hargs
    have hend : ∀ lines : List Text, (∀ line ∈ lines, IsSilent line ∨ IsCallDone c line) → ∀ m,
        Reads modelName ((functionCalls items).map state ++ [c.state]) m lines
          ((functionCalls items).map state ++ [c.state]) m := by
      intro lines hlines m
      induction lines with
      | nil => exact reads_nil
      | cons line lines ih =>
        rw [List.forall_mem_cons] at hlines
        refine Reads.cons ?_ (ih hlines.2)
        rcases hlines.1 with hsilent | hdone
        · exact reads_silent hsilent
        · exact reads_done hdone ⟨rfl, rfl⟩ rfl
    have hwhole := ((reads_silents hbefore).append (hbegin.cons (hargs.append (hend after hafter _))))
    have hfolded : foldedOf (items ++ [.call c]) =
        { foldedOf items with toolCalls := (foldedOf items).toolCalls ++
          [(((functionCalls items).map state).length, c.toolCall)] } := by
      simp only [foldedOf, hcalls, List.map_append, List.map_singleton, numbered_append, List.length_map]
      simp [Item.content, Item.thinking]
    rw [hfolded, List.map_append, List.map_singleton]
    exact hwhole

/-- The lines of the items make the message of the items. -/
theorem reads_items (modelName : Text) {items : List Item} {parts : List (List Text)}
    (h : List.Forall₂ StreamsItem items parts) (before : List Item)
    (hdistinct : (functionCalls (before ++ items)).Pairwise DistinctIds)
    (hcount : (functionCalls (before ++ items)).length ≤ maxResponsesToolCalls)
    (hcap : ∀ c ∈ functionCalls (before ++ items), utf8Len c.arguments ≤ maxResponsesToolCallArgsBytes) :
    Reads modelName ((functionCalls before).map state) (foldedOf before) parts.flatten
      ((functionCalls (before ++ items)).map state) (foldedOf (before ++ items)) := by
  induction h generalizing before with
  | nil => simpa using reads_nil
  | @cons item lines items parts hitem _ ih =>
    have hsplit : before ++ item :: items = (before ++ [item]) ++ items := by simp
    rw [hsplit] at hdistinct hcount hcap ⊢
    have hpart : functionCalls (before ++ [item] ++ items) = functionCalls (before ++ [item]) ++ functionCalls items :=
      List.filterMap_append
    have hprefix := hdistinct
    rw [hpart, List.pairwise_append] at hprefix
    have hshorter := hcount
    rw [hpart, List.length_append] at hshorter
    have hfirst := reads_item modelName hitem hprefix.1 (by omega)
      fun c hc => hcap c (by rw [hpart]; exact List.mem_append_left _ hc)
    rw [List.flatten_cons]
    exact hfirst.append (ih (before ++ [item]) hdistinct hcount hcap)

end OpenProxy.Upstream.Responses
