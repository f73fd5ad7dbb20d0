import OpenProxy.Translation.AnthropicSse

/-!
# The output that reaches an Anthropic client

`process_raw_chunk` recognises a frame by the text `data: ` at its beginning and gives up on a frame that contains
`[DONE]` anywhere.  Fragments of arguments go to the block that is open, whatever the index of their tool call.  Nothing
is lost as long as every frame with output is recognised and every fragment comes in the turn of its tool call.
-/

namespace OpenProxy

/-- `str::contains`. -/
def contains (s needle : Text) : Bool := (find s needle).isSome

/-- `str::trim_start_matches`, with a bound for the number of repetitions. -/
def trimStartMatchesFrom (pre : Text) : Nat → Text → Text
  | 0, s => s
  | fuel + 1, s => if pre.isPrefixOf s then trimStartMatchesFrom pre fuel (s.drop pre.length) else s

def trimStartMatches (pre s : Text) : Text := trimStartMatchesFrom pre s.length s

/-- A text that begins only once with `pre`. -/
theorem trimStartMatches_append {pre s : Text} (hpre : pre ≠ []) (hs : pre.isPrefixOf s = false) :
    trimStartMatches pre (pre ++ s) = s := by
  obtain ⟨fuel, hfuel⟩ : ∃ fuel, (pre ++ s).length = fuel + 1 :=
    Nat.exists_eq_add_one.mpr (List.length_pos_of_ne_nil (by simp [hpre]))
  have hprefix : pre.isPrefixOf (pre ++ s) = true := List.isPrefixOf_iff_prefix.mpr (List.prefix_append pre s)
  rw [trimStartMatches, hfuel, trimStartMatchesFrom, if_pos hprefix, List.drop_left]
  cases fuel with
  | zero => rfl
  | succ fuel => rw [trimStartMatchesFrom, if_neg (by simp [hs])]

theorem trim_padded {first last : Char} {body ending : Text} (hfirst : isWhitespace first = false)
    (hlast : isWhitespace last = false) (hending : ∀ c ∈ ending, isWhitespace c = true) :
    trim (first :: body ++ [last] ++ ending) = first :: body ++ [last] := by
  unfold trim
  rw [List.append_assoc, List.cons_append, List.dropWhile_cons_of_neg (by simp [hfirst]), ← List.cons_append,
    ← List.append_assoc, List.reverse_append, List.dropWhile_append_of_pos (by simpa using hending), List.reverse_append,
    List.reverse_singleton, List.singleton_append, List.dropWhile_cons_of_neg (by simp [hlast])]
  simp

namespace Translation

/-! ### Frames -/

inductive SseOutput
  | events (events : List AnthropicEvent)
  | frame (chunk : Text)
deriving DecidableEq

/-- The events of what `process_raw_chunk` returns. -/
def SseOutput.eventsOf : Option SseOutput → List AnthropicEvent
  | some (.events es) => es
  | _ => []

namespace OpenAIToAnthropicSseStream

/-- The frames that are forwarded as they are. -/
def forward (chunk : Text) : Option SseOutput :=
  if "event: error".toList.isPrefixOf chunk || ": keep-alive".toList.isPrefixOf chunk then some (.frame chunk) else none

/-- `fromSlice` stands for `serde_json::from_slice`. -/
def processRawChunk (fromSlice : Text → Option OpenAISseProbe) (s : OpenAIToAnthropicSseStream) (chunk : Text) :
    OpenAIToAnthropicSseStream × Option SseOutput :=
  if "data: ".toList.isPrefixOf chunk && !contains chunk "[DONE]".toList then
    match fromSlice (trim (trimStartMatches "data: ".toList chunk)) with
    | some v =>
      let (s, events) := s.processOpenaiProbe v
      (s, some (.events events))
    | none => (s, forward chunk)
  else (s, forward chunk)

end OpenAIToAnthropicSseStream

/-- A part of the first choice of a chunk, with the index of a tool call, which the probe does not read. -/
inductive Piece
  | text (content : Text)
  | toolCall (index : Nat) (tc : OpenAIToolCallProbe)
  | finish (finishReason : Text)
deriving DecidableEq

namespace Piece

def call : Piece → HandlerCall
  | .text content => .content content
  | .toolCall _ tc => .toolCall tc
  | .finish finishReason => .finish finishReason

def content : Piece → Text
  | .text content => content
  | _ => []

/-- The arguments that a piece carries, with the index of their tool call. -/
def arguments : Piece → List (Nat × Text)
  | .toolCall index tc => if tc.fragment = [] then [] else [(index, tc.fragment)]
  | _ => []

/-- The index of a tool call that begins. -/
def starts : Piece → List Nat
  | .toolCall index tc => if tc.id = none then [] else [index]
  | _ => []

end Piece

/-- A frame with one chunk on a data line: `data:`, perhaps a space, a JSON object and the end of the line. -/
structure DataFrame (fromSlice : Text → Option OpenAISseProbe) where
  space : Bool
  body : Text
  ending : Text
  probe : OpenAISseProbe
  pieces : List Piece
  ending_white : ∀ c ∈ ending, c = '\r' ∨ c = '\n'
  parsed : fromSlice ('\x7b' :: body ++ ['\x7d']) = some probe
  pieces_call : pieces.map Piece.call = probe.calls

namespace DataFrame

variable {fromSlice : Text → Option OpenAISseProbe}

def chunk (f : DataFrame fromSlice) : Text :=
  ['d', 'a', 't', 'a', ':'] ++ (if f.space then [' '] else []) ++ ('\x7b' :: f.body ++ ['\x7d'] ++ f.ending)

/-- The frame is recognised. -/
def isRead (f : DataFrame fromSlice) : Bool := f.space && !contains f.chunk "[DONE]".toList

/-- The frame carries no output and begins no tool call. -/
def Silent (f : DataFrame fromSlice) : Prop := ∀ p ∈ f.pieces, p.content = [] ∧ p.arguments = [] ∧ p.starts = []

theorem forward_chunk (f : DataFrame fromSlice) : OpenAIToAnthropicSseStream.forward f.chunk = none := by
  simp [OpenAIToAnthropicSseStream.forward, chunk]

theorem trim_chunk (f : DataFrame fromSlice) (h : f.space = true) :
    trim (trimStartMatches "data: ".toList f.chunk) = '\x7b' :: f.body ++ ['\x7d'] := by
  have hstart : trimStartMatches "data: ".toList f.chunk = '\x7b' :: f.body ++ ['\x7d'] ++ f.ending := by
    have hchunk : f.chunk = "data: ".toList ++ ('\x7b' :: f.body ++ ['\x7d'] ++ f.ending) := by simp [chunk, h]
    rw [hchunk]
    exact trimStartMatches_append (by decide) rfl
  rw [hstart]
  refine trim_padded (by decide) (by decide) fun c hc => ?_
  rcases f.ending_white c hc with rfl | rfl <;> decide

theorem processRawChunk_of_isRead (f : DataFrame fromSlice) (h : f.isRead = true) (s : OpenAIToAnthropicSseStream) :
    s.processRawChunk fromSlice f.chunk = ((s.processOpenaiProbe f.probe).1, some (.events (s.processOpenaiProbe f.probe).2)) := by
  obtain ⟨hspace, hdone⟩ : f.space = true ∧ contains f.chunk "[DONE]".toList = false := by simpa [isRead] using h
  have hpre : "data: ".toList.isPrefixOf f.chunk = true := by simp [chunk, hspace]
  simp only [OpenAIToAnthropicSseStream.processRawChunk, hpre, hdone, f.trim_chunk hspace, f.parsed]
  rfl

theorem processRawChunk_of_not_isRead (f : DataFrame fromSlice) (h : f.isRead = false) (s : OpenAIToAnthropicSseStream) :
    s.processRawChunk fromSlice f.chunk = (s, none) := by
  have hcond : ("data: ".toList.isPrefixOf f.chunk && !contains f.chunk "[DONE]".toList) = false := by
    cases hspace : f.space with
    | true =>
      have hdone : contains f.chunk "[DONE]".toList = true := by simpa [isRead, hspace] using h
      rw [hdone, Bool.not_true, Bool.and_false]
    | false => simp [chunk, hspace]
  simp only [OpenAIToAnthropicSseStream.processRawChunk, hcond, forward_chunk]
  rfl

end DataFrame

/-! ### What arrives -/

/-- The text of the text blocks. -/
def textDeltas (events : List AnthropicEvent) : Text :=
  events.flatMap fun
    | .contentBlockDelta _ (.textDelta text) => text
    | _ => []

/-- The tool call to which the open block belongs, and the tool calls whose blocks are still to come. -/
structure Attribution where
  current : Option Nat
  starts : List Nat
deriving DecidableEq

/-- The blocks of kind `tool_use` belong to the tool calls in the order in which these begin. -/
def Attribution.step (a : Attribution) : AnthropicEvent → Attribution × List (Option Nat × Text)
  | .contentBlockStart _ .text => ({ a with current := none }, [])
  | .contentBlockStart _ (.toolUse _ _) => (⟨a.starts.head?, a.starts.tail⟩, [])
  | .contentBlockStop _ => ({ a with current := none }, [])
  | .contentBlockDelta _ (.inputJsonDelta partialJson) => (a, [(a.current, partialJson)])
  | _ => (a, [])

/-- The fragments that arrive in the blocks of a tool call. -/
def inputOf (index : Nat) (starts : List Nat) (events : List AnthropicEvent) : Text :=
  (emitted Attribution.step ⟨none, starts⟩ events).flatMap fun p => if p.1 = some index then p.2 else []

/-- Where a stream stands: whether a `finish_reason` has come, and the tool call whose block is open. -/
structure Turn where
  finished : Bool
  current : Option Nat
deriving DecidableEq

namespace Turn

/-- The turn for the arguments in a piece. -/
def enter (t : Turn) : Piece → Option Nat
  | .text content => if content = [] then t.current else none
  | .toolCall index tc => if tc.id = none then t.current else some index
  | .finish _ => if t.finished then t.current else none

def step (t : Turn) (p : Piece) : Turn × Unit :=
  match p with
  | .finish _ => (⟨true, t.enter p⟩, ())
  | _ => (⟨t.finished, t.enter p⟩, ())

/-- A piece with arguments comes in the turn of its tool call. -/
def Allows (t : Turn) (p : Piece) : Prop := ∀ a ∈ p.arguments, t.enter p = some a.1

instance (t : Turn) (p : Piece) : Decidable (t.Allows p) := inferInstanceAs (Decidable (∀ a ∈ p.arguments, _))

end Turn

namespace OpenAIToAnthropicSseStream

variable {s : OpenAIToAnthropicSseStream} {t : Turn}

theorem textDeltas_append (es es' : List AnthropicEvent) : textDeltas (es ++ es') = textDeltas es ++ textDeltas es' :=
  List.flatMap_append

/-- The state of the stream once it has started, against the turn. -/
structure Follows (s : OpenAIToAnthropicSseStream) (t : Turn) : Prop where
  started : s.hasStarted = true
  flags : s.inTextBlock = !s.inToolBlock
  finished : s.hasFinished = t.finished
  current : s.inToolBlock = false → t.current = none

theorem textDeltas_handle (p : Piece) (h : s.inTextBlock = !s.inToolBlock) :
    textDeltas (s.handle p.call).2 = p.content := by
  cases p with
  | text content =>
    simp only [Piece.call, handle, Piece.content]
    by_cases hempty : content = []
    · simp [hempty, handleContentDelta, textDeltas]
    · cases htool : s.inToolBlock with
      | true => simp [handleContentDelta_of_tool hempty (by simpa [htool] using h) htool, textDeltas]
      | false => simp [handleContentDelta_of_text hempty (by simpa [htool] using h) htool, textDeltas]
  | toolCall index tc =>
    obtain ⟨name, heq⟩ := handleToolCallItem_eq s tc
    simp only [Piece.call, handle, heq, Piece.content]
    cases tc.id <;> by_cases hempty : tc.fragment = [] <;>
      simp [textDeltas, transitionToolBlock_eq _ _ h, hempty]
  | finish finishReason =>
    cases hfinished : s.hasFinished <;>
      simp [Piece.call, handle, handleFinishReason, Piece.content, h, hfinished, textDeltas]

/-- What the blocks of a piece's events say about its arguments. -/
theorem handle_follows {p : Piece} (h : Follows s t) (hturn : t.Allows p) (rest : List Nat) :
    emitted Attribution.step ⟨t.current, p.starts ++ rest⟩ (s.handle p.call).2 =
        p.arguments.map (fun a => (some a.1, a.2)) ∧
      runState Attribution.step ⟨t.current, p.starts ++ rest⟩ (s.handle p.call).2 = ⟨(t.step p).1.current, rest⟩ ∧
      Follows (s.handle p.call).1 (t.step p).1 := by
  cases p with
  | text content =>
    simp only [Piece.call, handle, Piece.starts, Piece.arguments, Turn.step, Turn.enter, List.nil_append]
    by_cases hempty : content = []
    · subst hempty
      exact ⟨rfl, rfl, h⟩
    · rw [if_neg hempty]
      cases htool : s.inToolBlock with
      | true =>
        rw [handleContentDelta_of_tool hempty (by simpa [htool] using h.flags) htool]
        exact ⟨rfl, rfl, h.started, rfl, h.finished, fun _ => rfl⟩
      | false =>
        rw [handleContentDelta_of_text hempty (by simpa [htool] using h.flags) htool, h.current htool]
        exact ⟨rfl, rfl, h.started, h.flags, h.finished, fun _ => rfl⟩
  | toolCall index tc =>
    obtain ⟨name, heq⟩ := handleToolCallItem_eq s tc
    simp only [Piece.call, handle, heq, Turn.step]
    cases hid : tc.id with
    | none =>
      by_cases hempty : tc.fragment = []
      · simp [Piece.starts, Piece.arguments, Turn.enter, hid, hempty, runState, h]
      · have hcurrent : t.current = some index := by
          simpa [Turn.Allows, Piece.arguments, Turn.enter, hid, hempty] using hturn
        have h' : Follows s ⟨t.finished, some index⟩ := by rwa [← hcurrent]
        simpa [Piece.starts, Piece.arguments, Turn.enter, hid, hempty, runState, Attribution.step, hcurrent] using h'
    | some id =>
      have hfollows : Follows (s.transitionToolBlock id name).1 ⟨t.finished, some index⟩ := by
        rw [transitionToolBlock_eq id name h.flags]
        exact ⟨h.started, rfl, h.finished, fun htool => by simp at htool⟩
      have hnew : Turn.enter t (.toolCall index tc) = some index := by simp [Turn.enter, hid]
      by_cases hempty : tc.fragment = [] <;>
        simp [Piece.starts, Piece.arguments, hid, hempty, hnew, hfollows] <;>
        simp [transitionToolBlock_eq id name h.flags, runState, Attribution.step]
  | finish finishReason =>
    simp only [Piece.call, handle, Piece.starts, Piece.arguments, Turn.step, Turn.enter, List.nil_append, ← h.finished]
    cases hfinished : s.hasFinished with
    | true =>
      simp only [handleFinishReason, hfinished]
      exact ⟨rfl, rfl, h.started, h.flags, hfinished, h.current⟩
    | false =>
      simp only [handleFinishReason, hfinished, h.flags]
      cases htool : s.inToolBlock <;>
      exact ⟨rfl, rfl, h.started, by simp, rfl, fun _ => rfl⟩

theorem pieces_follow {pieces : List Piece} (h : Follows s t) (hturn : AllSteps Turn.step Turn.Allows t pieces)
    (rest : List Nat) :
    textDeltas (emitted handle s (pieces.map Piece.call)) = pieces.flatMap Piece.content ∧
      emitted Attribution.step ⟨t.current, pieces.flatMap Piece.starts ++ rest⟩
          (emitted handle s (pieces.map Piece.call)) =
        (pieces.flatMap Piece.arguments).map (fun a => (some a.1, a.2)) ∧
      runState Attribution.step ⟨t.current, pieces.flatMap Piece.starts ++ rest⟩
          (emitted handle s (pieces.map Piece.call)) = ⟨(runState Turn.step t pieces).current, rest⟩ ∧
      Follows (runState handle s (pieces.map Piece.call)) (runState Turn.step t pieces) := by
  induction pieces generalizing s t with
  | nil => exact ⟨rfl, rfl, rfl, h⟩
  | cons p pieces ih =>
    obtain ⟨hp, hrest⟩ := hturn
    obtain ⟨hemitted, hstate, hfollows⟩ := handle_follows h hp (pieces.flatMap Piece.starts ++ rest)
    obtain ⟨iht, ihe, ihs, ihf⟩ := ih hfollows hrest
    simp only [List.map_cons, List.flatMap_cons, emitted_cons, List.append_assoc]
    refine ⟨?_, ?_, ?_, ihf⟩
    · rw [textDeltas_append, textDeltas_handle p h.flags, iht]
    · rw [emitted_append, hemitted, hstate, ihe, List.map_append]
    · rw [runState_append, hstate]
      exact ihs

/-- The state of the stream against the turn, also before the first chunk. -/
def FollowsRun (s : OpenAIToAnthropicSseStream) (t : Turn) : Prop :=
  Follows s t ∨ s.hasStarted = false ∧ s.inToolBlock = false ∧ s.hasFinished = t.finished ∧ t.current = none

theorem emitMessageStart_follows (h : FollowsRun s t) (starts : List Nat) :
    textDeltas s.emitMessageStart.2 = [] ∧
      emitted Attribution.step ⟨t.current, starts⟩ s.emitMessageStart.2 = [] ∧
      runState Attribution.step ⟨t.current, starts⟩ s.emitMessageStart.2 = ⟨t.current, starts⟩ ∧
      Follows s.emitMessageStart.1 t := by
  obtain h | ⟨hstarted, htool, hfinished, hcurrent⟩ := h
  · simp only [emitMessageStart, h.started]
    exact ⟨rfl, rfl, rfl, h⟩
  · simp only [emitMessageStart, hstarted, hcurrent]
    exact ⟨rfl, rfl, rfl, rfl, by simp [htool], hfinished, fun _ => hcurrent⟩

/-- What a chunk that has been read adds. -/
theorem processOpenaiProbe_follows {v : OpenAISseProbe} {pieces : List Piece} (h : FollowsRun s t)
    (hpieces : pieces.map Piece.call = v.calls) (hturn : AllSteps Turn.step Turn.Allows t pieces) (rest : List Nat) :
    textDeltas (s.processOpenaiProbe v).2 = pieces.flatMap Piece.content ∧
      emitted Attribution.step ⟨t.current, pieces.flatMap Piece.starts ++ rest⟩ (s.processOpenaiProbe v).2 =
        (pieces.flatMap Piece.arguments).map (fun a => (some a.1, a.2)) ∧
      runState Attribution.step ⟨t.current, pieces.flatMap Piece.starts ++ rest⟩ (s.processOpenaiProbe v).2 =
        ⟨(runState Turn.step t pieces).current, rest⟩ ∧
      FollowsRun (s.processOpenaiProbe v).1 (runState Turn.step t pieces) := by
  obtain ⟨htext, hemitted, hstate, hfollows⟩ := emitMessageStart_follows h (pieces.flatMap Piece.starts ++ rest)
  obtain ⟨htext', hemitted', hstate', hfollows'⟩ := pieces_follow hfollows hturn rest
  rw [processOpenaiProbe_eq, ← hpieces]
  refine ⟨?_, ?_, ?_, .inl hfollows'⟩
  · rw [textDeltas_append, htext, htext', List.nil_append]
  · rw [emitted_append, hemitted, hstate, hemitted', List.nil_append]
  · rw [runState_append, hstate, hstate']

end OpenAIToAnthropicSseStream

/-! ### Runs of frames -/

section

variable {fromSlice : Text → Option OpenAISseProbe}

/-- The events for a sequence of frames. -/
def frameEvents (s : OpenAIToAnthropicSseStream) (frames : List (DataFrame fromSlice)) : List AnthropicEvent :=
  (outputs (OpenAIToAnthropicSseStream.processRawChunk fromSlice) s (frames.map DataFrame.chunk)).flatMap
    SseOutput.eventsOf

/-- All pieces of the chunks that are sent. -/
def sentPieces (frames : List (DataFrame fromSlice)) : List Piece := frames.flatMap DataFrame.pieces

/-- The pieces of the chunks whose frames are recognised. -/
def readPieces (frames : List (DataFrame fromSlice)) : List Piece :=
  (frames.filter DataFrame.isRead).flatMap DataFrame.pieces

/-- The text that is sent. -/
def sentText (frames : List (DataFrame fromSlice)) : Text := (sentPieces frames).flatMap Piece.content

/-- The arguments that are sent for a tool call. -/
def sentArguments (index : Nat) (frames : List (DataFrame fromSlice)) : Text :=
  ((sentPieces frames).flatMap Piece.arguments).flatMap fun a => if a.1 = index then a.2 else []

/-- The indices of the tool calls in the order in which they begin. -/
def sentStarts (frames : List (DataFrame fromSlice)) : List Nat := (sentPieces frames).flatMap Piece.starts

theorem frameEvents_cons_read {f : DataFrame fromSlice} (h : f.isRead = true) (s : OpenAIToAnthropicSseStream)
    (frames : List (DataFrame fromSlice)) :
    frameEvents s (f :: frames) =
      (s.processOpenaiProbe f.probe).2 ++ frameEvents (s.processOpenaiProbe f.probe).1 frames := by
  simp [frameEvents, outputs, f.processRawChunk_of_isRead h, SseOutput.eventsOf]

theorem frameEvents_cons_not_read {f : DataFrame fromSlice} (h : f.isRead = false) (s : OpenAIToAnthropicSseStream)
    (frames : List (DataFrame fromSlice)) : frameEvents s (f :: frames) = frameEvents s frames := by
  simp [frameEvents, outputs, f.processRawChunk_of_not_isRead h, SseOutput.eventsOf]

theorem flatMap_pieces_of_silent {α : Type} {f : DataFrame fromSlice} {g : Piece → List α}
    (h : ∀ p ∈ f.pieces, g p = []) (frames : List (DataFrame fromSlice)) :
    (sentPieces (f :: frames)).flatMap g = (sentPieces frames).flatMap g := by
  have hnil : f.pieces.flatMap g = [] := List.flatMap_eq_nil_iff.mpr h
  simp [sentPieces, hnil]

theorem frames_follow {s : OpenAIToAnthropicSseStream} {t : Turn} {frames : List (DataFrame fromSlice)}
    (h : s.FollowsRun t) (hread : ∀ f ∈ frames, f.isRead = true ∨ f.Silent)
    (hturn : AllSteps Turn.step Turn.Allows t (readPieces frames)) :
    textDeltas (frameEvents s frames) = sentText frames ∧
      emitted Attribution.step ⟨t.current, sentStarts frames⟩ (frameEvents s frames) =
        ((sentPieces frames).flatMap Piece.arguments).map (fun a => (some a.1, a.2)) := by
  induction frames generalizing s t with
  | nil => exact ⟨rfl, rfl⟩
  | cons f frames ih =>
    have hread' : ∀ f' ∈ frames, f'.isRead = true ∨ f'.Silent := fun f' hf' => hread f' (List.mem_cons_of_mem f hf')
    cases hf : f.isRead with
    | true =>
      have hpieces : readPieces (f :: frames) = f.pieces ++ readPieces frames := by simp [readPieces, hf]
      rw [hpieces, allSteps_append] at hturn
      obtain ⟨htext, hemitted, hstate, hfollows⟩ :=
        OpenAIToAnthropicSseStream.processOpenaiProbe_follows h f.pieces_call hturn.1 (sentStarts frames)
      obtain ⟨iht, ihe⟩ := ih hfollows hread' hturn.2
      have hstarts : sentStarts (f :: frames) = f.pieces.flatMap Piece.starts ++ sentStarts frames := by
        simp [sentStarts, sentPieces]
      rw [frameEvents_cons_read hf, hstarts]
      constructor
      · rw [OpenAIToAnthropicSseStream.textDeltas_append, htext, iht]
        simp [sentText, sentPieces]
      · rw [emitted_append, hemitted, hstate, ihe]
        simp [sentPieces]
    | false =>
      -- A frame that is not recognised changes nothing, and it has nothing to say.
      have hsilent : f.Silent := (hread f List.mem_cons_self).resolve_left (by simp [hf])
      have hpieces : readPieces (f :: frames) = readPieces frames := by simp [readPieces, hf]
      rw [hpieces] at hturn
      obtain ⟨iht, ihe⟩ := ih h hread' hturn
      rw [frameEvents_cons_not_read hf]
      simp only [sentText, sentStarts, flatMap_pieces_of_silent (fun p hp => (hsilent p hp).1),
        flatMap_pieces_of_silent (fun p hp => (hsilent p hp).2.1), flatMap_pieces_of_silent (fun p hp => (hsilent p hp).2.2)]
      exact ⟨iht, ihe⟩

/-- No output is lost in a run in which every frame that carries output is recognised and every fragment of arguments
comes in the turn of its tool call. -/
theorem output_complete (fromSlice : Text → Option OpenAISseProbe) (messageId model : Text)
    (frames : List (DataFrame fromSlice)) (hread : ∀ f ∈ frames, f.isRead = true ∨ f.Silent)
    (hturn : AllSteps Turn.step Turn.Allows ⟨false, none⟩ (readPieces frames)) :
    textDeltas (frameEvents (.new messageId model) frames) = sentText frames ∧
      ∀ index, inputOf index (sentStarts frames) (frameEvents (.new messageId model) frames) =
        sentArguments index frames := by
  have hnew : OpenAIToAnthropicSseStream.FollowsRun (.new messageId model) ⟨false, none⟩ := .inr ⟨rfl, rfl, rfl, rfl⟩
  obtain ⟨htext, hemitted⟩ := frames_follow hnew hread hturn
  refine ⟨htext, fun index => ?_⟩
  unfold inputOf sentArguments
  rw [hemitted, List.flatMap_map]
  simp

/-! ### Concrete frames -/

/-- What `serde_json` reads of one chunk. -/
def readOne (body : Text) (probe : OpenAISseProbe) (json : Text) : Option OpenAISseProbe :=
  if json = '\x7b' :: body ++ ['\x7d'] then some probe else none

def frameOf (body : Text) (probe : OpenAISseProbe) (pieces : List Piece) (h : pieces.map Piece.call = probe.calls) :
    DataFrame (readOne body probe) where
  space := true
  body := body
  ending := ['\n', '\n']
  probe := probe
  pieces := pieces
  ending_white := by simp
  parsed := if_pos rfl
  pieces_call := h

def toolBody : Text :=
  ("\"choices\":[\x7b\"delta\":\x7b\"content\":\"Hi\",\"tool_calls\":[\x7b\"index\":0,\"id\":\"call_1\"," ++
    "\"function\":\x7b\"name\":\"f\",\"arguments\":\"[]\"\x7d\x7d]\x7d\x7d]").toList

def toolCall : OpenAIToolCallProbe := ⟨some "call_1".toList, some ⟨some ['f'], some ['[', ']']⟩⟩

def toolFrame : DataFrame (readOne toolBody ⟨some [⟨some ⟨some ['H', 'i'], some [toolCall]⟩, none⟩]⟩) :=
  frameOf _ _ [.text ['H', 'i'], .toolCall 0 toolCall] rfl

theorem output_complete_tool :
    textDeltas (frameEvents (.new ['m'] ['m']) [toolFrame]) = ['H', 'i'] ∧
      inputOf 0 [0] (frameEvents (.new ['m'] ['m']) [toolFrame]) = ['[', ']'] := by
  have hbody : toolBody = _ := toList_concat _ _
  have hread : toolFrame.isRead = true := by
    simp only [DataFrame.isRead, DataFrame.chunk, toolFrame, frameOf]
    rw [hbody]
    decide +kernel
  have hpieces : readPieces [toolFrame] = [.text ['H', 'i'], .toolCall 0 toolCall] := by
    simp only [readPieces, List.filter_cons, hread]
    rfl
  have hall : ∀ f ∈ [toolFrame], f.isRead = true ∨ f.Silent := by
    intro f hf
    rw [List.mem_singleton.mp hf]
    exact .inl hread
  have hcomplete := output_complete _ ['m'] ['m'] [toolFrame] hall
  rw [hpieces] at hcomplete
  obtain ⟨htext, hinput⟩ := hcomplete ⟨by decide, by decide, trivial⟩
  exact ⟨htext, hinput 0⟩

def doneBody : Text := "\"choices\":[\x7b\"delta\":\x7b\"content\":\"[DONE]\"\x7d\x7d]".toList

def doneFrame : DataFrame (readOne doneBody ⟨some [⟨some ⟨some "[DONE]".toList, none⟩, none⟩]⟩) :=
  frameOf _ _ [.text "[DONE]".toList] rfl

/-- The text `[DONE]` is lost. -/
theorem output_lost_done :
    ¬ ∀ (fromSlice : Text → Option OpenAISseProbe) (frames : List (DataFrame fromSlice)),
      textDeltas (frameEvents (.new ['m'] ['m']) frames) = sentText frames := by
  intro h
  have hread : doneFrame.isRead = false := by decide +kernel
  have hlost := h _ [doneFrame]
  rw [frameEvents_cons_not_read hread] at hlost
  exact absurd hlost (by decide)

end

end Translation

end OpenProxy
