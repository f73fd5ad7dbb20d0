import OpenProxy.Pii.Replacer

/-!
# The restoration stage

`PiiRestorationStage` restores the pseudonyms in the chunks of a stream.  Each choice has a replacer for its content, its
reasoning and its text, and one for the arguments of each of its tool calls; they are made when their first fragment
comes, and flushed when the choice is finished or at the end of the stream.  A payload is read as JSON by `parse`; what
is not JSON is restored as one text.
-/

namespace OpenProxy.Pii

/-! ### Chunks -/

/-- An element of `tool_calls`: its index, if it has one, and `function.arguments`, if that is a string. -/
structure ToolCall where
  index : Option Nat
  arguments : Option Text
  deriving DecidableEq, Repr

/-- The strings of a `delta`, and its `tool_calls` if that is an array. -/
structure Delta where
  content : Option Text
  reasoningContent : Option Text
  toolCalls : Option (List ToolCall)
  text : Option Text
  deriving DecidableEq, Repr

/-- An element of `choices`: its index, if it has one, whether its `finish_reason` is present and not null, its `delta`
if that is an object, and its `text` if that is a string. -/
structure Choice where
  index : Option Nat
  hasFinishReason : Bool
  delta : Option Delta
  text : Option Text
  deriving DecidableEq, Repr

/-- What a payload is as JSON: an object with its `choices`, if they are an array, another value, or no JSON. -/
inductive Parsed
  | object (choices : Option (List Choice))
  | other
  | error
  deriving DecidableEq, Repr

/-- `StreamAction`; the payload of `mutate` is an object with other choices, or a text. -/
inductive StreamAction
  | passthrough
  | mutateChoices (choices : List Choice)
  | mutate (payload : Text)
  | skip
  deriving DecidableEq, Repr

/-- The strings that a choice carries. -/
inductive Field
  | content
  | reasoningContent
  | text
  deriving DecidableEq, Repr

def Delta.get (d : Delta) : Field → Option Text
  | .content => d.content
  | .reasoningContent => d.reasoningContent
  | .text => d.text

def Delta.empty : Delta := ⟨none, none, none, none⟩

/-- `choice_idx`. -/
def Choice.choiceIdx (choice : Choice) (arrIdx : Nat) : Nat := choice.index.getD arrIdx

/-- `tool_idx`. -/
def ToolCall.toolIdx (tc : ToolCall) (tcArrIdx : Nat) : Nat := tc.index.getD tcArrIdx

/-! ### The stage -/

/-- The escapes of a JSON string. -/
def jsonEscapeChar (c : Char) : Text :=
  if c = '"' then ['\\', '"']
  else if c = '\\' then ['\\', '\\']
  else if c.toNat = 8 then ['\\', 'b']
  else if c.toNat = 12 then ['\\', 'f']
  else if c = '\n' then ['\\', 'n']
  else if c = '\r' then ['\\', 'r']
  else if c = '\t' then ['\\', 't']
  else if c.toNat < 0x20 then ['\\', 'u'] ++ (Nat.toDigits 16 c.toNat).leftpad 4 '0'
  else [c]

/-- `json_escape_string`. -/
def jsonEscapeString (s : Text) : Text := s.flatMap jsonEscapeChar

/-- `PiiRestorationStage`. -/
structure PiiRestorationStage where
  contentTemplate : StreamingWindowReplacer
  toolTemplate : StreamingWindowReplacer
  contentReplacers : Table Nat StreamingWindowReplacer
  reasoningReplacers : Table Nat StreamingWindowReplacer
  textReplacers : Table Nat StreamingWindowReplacer
  toolReplacers : Table (Nat × Nat) StreamingWindowReplacer
  rawReplacer : StreamingWindowReplacer
  rawStream : Bool
  bufferedJson : Text

namespace PiiRestorationStage

/-- `from_mapping`. -/
def fromMapping (mapping : Table Text Text) (order : HashOrder) : PiiRestorationStage where
  contentTemplate := .new mapping order
  toolTemplate := .new (mapping.mapValues fun _ v => jsonEscapeString v) order
  contentReplacers := ∅
  reasoningReplacers := ∅
  textReplacers := ∅
  toolReplacers := ∅
  rawReplacer := .new mapping order
  rawStream := false
  bufferedJson := []

/-- `PiiRestorationStage::new`. -/
def new (s : PiiSession) (order order' : HashOrder) : PiiRestorationStage :=
  fromMapping (if s.reversible then s.restorationMapping order else ∅) order'

/-- The replacers of a field. -/
def replacers (stage : PiiRestorationStage) : Field → Table Nat StreamingWindowReplacer
  | .content => stage.contentReplacers
  | .reasoningContent => stage.reasoningReplacers
  | .text => stage.textReplacers

def setReplacer (stage : PiiRestorationStage) (field : Field) (choiceIdx : Nat) (r : StreamingWindowReplacer) :
    PiiRestorationStage :=
  match field with
  | .content => { stage with contentReplacers := stage.contentReplacers.insert choiceIdx r }
  | .reasoningContent => { stage with reasoningReplacers := stage.reasoningReplacers.insert choiceIdx r }
  | .text => { stage with textReplacers := stage.textReplacers.insert choiceIdx r }

/-- `content_replacer`, `reasoning_replacer` and `text_replacer`. -/
def fieldReplacer (stage : PiiRestorationStage) (field : Field) (choiceIdx : Nat) : StreamingWindowReplacer :=
  ((stage.replacers field).lookup choiceIdx).getD stage.contentTemplate

/-- `tool_replacer`. -/
def toolReplacer (stage : PiiRestorationStage) (choiceIdx toolIdx : Nat) : StreamingWindowReplacer :=
  (stage.toolReplacers.lookup (choiceIdx, toolIdx)).getD stage.toolTemplate

/-- `is_empty`. -/
def isEmpty (stage : PiiRestorationStage) : Bool := stage.contentTemplate.pairs.isEmpty

/-- A fragment is processed, and the replacer is flushed after the last one. -/
def feed (u : CharTables) (r : StreamingWindowReplacer) (fragment : Text) (hasFinishReason : Bool) :
    Text × StreamingWindowReplacer :=
  let (restored, r) := r.process u fragment
  if hasFinishReason then
    let (flushed, r) := r.flush u
    (restored ++ flushed, r)
  else (restored, r)

/-- A string of a choice, or its residue if the choice is finished without one: the string that is emitted. -/
def processField (u : CharTables) (stage : PiiRestorationStage) (field : Field) (choiceIdx : Nat) (value : Option Text)
    (hasFinishReason : Bool) : Option Text × PiiRestorationStage :=
  match value with
  | some fragment =>
    let (restored, r) := feed u (stage.fieldReplacer field choiceIdx) fragment hasFinishReason
    (some restored, stage.setReplacer field choiceIdx r)
  | none =>
    if hasFinishReason then
      match (stage.replacers field).lookup choiceIdx with
      | none => (none, stage)
      | some r =>
        let (flushed, r) := r.flush u
        (if flushed.isEmpty then none else some flushed, stage.setReplacer field choiceIdx r)
    else (none, stage)

/-- The loop over `tool_calls`. -/
def processToolCalls (u : CharTables) (choiceIdx : Nat) (hasFinishReason : Bool) :
    PiiRestorationStage → List (ToolCall × Nat) → List ToolCall × PiiRestorationStage
  | stage, [] => ([], stage)
  | stage, (tc, tcArrIdx) :: rest =>
    match tc.arguments with
    | none =>
      let (tcs, stage) := processToolCalls u choiceIdx hasFinishReason stage rest
      (tc :: tcs, stage)
    | some args =>
      let toolIdx := tc.toolIdx tcArrIdx
      let (restored, r) := feed u (stage.toolReplacer choiceIdx toolIdx) args hasFinishReason
      let stage := { stage with toolReplacers := stage.toolReplacers.insert (choiceIdx, toolIdx) r }
      let (tcs, stage) := processToolCalls u choiceIdx hasFinishReason stage rest
      ({ tc with arguments := some restored } :: tcs, stage)

/-- The residues of the tool calls of a choice, in the order of their indices. -/
def flushTools (u : CharTables) (stage : PiiRestorationStage) (choiceIdx : Nat) :
    Option (List ToolCall) × PiiRestorationStage :=
  let residuals := stage.toolReplacers.entries.filterMap fun e =>
    if e.1.1 = choiceIdx then
      let flushed := (e.2.flush u).1
      if flushed.isEmpty then none else some (e.1.2, flushed)
    else none
  let sorted := residuals.insertionSort fun a b => a.1 ≤ b.1
  let stage := { stage with
    toolReplacers := stage.toolReplacers.mapValues fun key r => if key.1 = choiceIdx then (r.flush u).2 else r }
  (if residuals.isEmpty then none else some (sorted.map fun e => ⟨some e.1, some e.2⟩), stage)

/-- The `tool_calls` of a delta are processed, or flushed if the choice is finished without them. -/
def processTools (u : CharTables) (stage : PiiRestorationStage) (choiceIdx : Nat) (toolCalls : Option (List ToolCall))
    (hasFinishReason : Bool) : Option (List ToolCall) × PiiRestorationStage :=
  match toolCalls with
  | some tcs =>
    let (tcs, stage) := processToolCalls u choiceIdx hasFinishReason stage tcs.zipIdx
    (some tcs, stage)
  | none => if hasFinishReason then stage.flushTools u choiceIdx else (none, stage)

/-- The body of the loop over `choices`. -/
def processChoice (u : CharTables) (stage : PiiRestorationStage) (choice : Choice) (arrIdx : Nat) :
    Choice × PiiRestorationStage :=
  let choiceIdx := choice.choiceIdx arrIdx
  let finish := choice.hasFinishReason
  match choice.delta with
  | some delta =>
    let (content, stage) := stage.processField u .content choiceIdx delta.content finish
    let (reasoning, stage) := stage.processField u .reasoningContent choiceIdx delta.reasoningContent finish
    let (toolCalls, stage) := stage.processTools u choiceIdx delta.toolCalls finish
    let (text, stage) := stage.processField u .text choiceIdx delta.text finish
    ({ choice with delta := some ⟨content, reasoning, toolCalls, text⟩ }, stage)
  | none =>
    match choice.text with
    | some _ =>
      let (text, stage) := stage.processField u .text choiceIdx choice.text finish
      ({ choice with text := text }, stage)
    | none =>
      let (content, stage) := stage.processField u .content choiceIdx none finish
      ({ choice with delta := content.map fun flushed => { Delta.empty with content := some flushed } }, stage)

/-- The flag `changed` for a choice that has been processed: some string of it was processed or inserted. -/
def changed (choice : Choice) : Bool :=
  match choice.delta with
  | some delta => delta.content.isSome || delta.reasoningContent.isSome || delta.text.isSome ||
      (delta.toolCalls.getD []).any fun tc => tc.arguments.isSome
  | none => choice.text.isSome

/-- The loop over `choices`, each with its position. -/
def processChoices (u : CharTables) : PiiRestorationStage → List (Choice × Nat) → List Choice × PiiRestorationStage
  | stage, [] => ([], stage)
  | stage, (choice, arrIdx) :: rest =>
    let (choice, stage) := stage.processChoice u choice arrIdx
    let (choices, stage) := processChoices u stage rest
    (choice :: choices, stage)

/-- `process_chunk`. -/
def processChunk (u : CharTables) (parse : Text → Parsed) (stage : PiiRestorationStage) (payload : Text) :
    StreamAction × PiiRestorationStage :=
  if stage.isEmpty then (.passthrough, stage)
  else if stage.rawStream then
    let (restored, r) := stage.rawReplacer.process u payload
    (.mutate restored, { stage with rawReplacer := r })
  else
    let isBuffered := !stage.bufferedJson.isEmpty
    let toParse := stage.bufferedJson ++ payload
    let stage := { stage with bufferedJson := [] }
    match parse toParse with
    | .other =>
      let (restored, r) := stage.rawReplacer.process u toParse
      (.mutate restored, { stage with rawReplacer := r, rawStream := true })
    | .object choices =>
      let (emitted, stage) := processChoices u stage (choices.getD []).zipIdx
      if emitted.any changed then (.mutateChoices emitted, stage)
      else if isBuffered then (.mutate toParse, stage)
      else (.passthrough, stage)
    | .error =>
      if (toParse.dropWhile isWhitespace).head? = some '{' then (.skip, { stage with bufferedJson := toParse })
      else
        let (restored, r) := stage.rawReplacer.process u toParse
        let stage := { stage with rawReplacer := r, rawStream := true }
        if restored ≠ toParse then (.mutate restored, stage)
        else if isBuffered then (.mutate toParse, stage)
        else (.passthrough, stage)

/-- The indices of the choices that have a replacer, in order. -/
def choiceIndices (stage : PiiRestorationStage) : List Nat :=
  (stage.contentReplacers.keys ++ stage.reasoningReplacers.keys ++ stage.textReplacers.keys ++
    stage.toolReplacers.keys.map (·.1)).dedup.insertionSort (· ≤ ·)

/-- The loop of `finalize` over the choices. -/
def finalizeChoices (u : CharTables) : PiiRestorationStage → List Nat → List Choice × PiiRestorationStage
  | stage, [] => ([], stage)
  | stage, choiceIdx :: rest =>
    let (content, stage) := stage.processField u .content choiceIdx none true
    let (reasoning, stage) := stage.processField u .reasoningContent choiceIdx none true
    let (text, stage) := stage.processField u .text choiceIdx none true
    let (toolCalls, stage) := stage.flushTools u choiceIdx
    let delta : Delta := ⟨content, reasoning, toolCalls, text⟩
    let (choices, stage) := finalizeChoices u stage rest
    (if delta = Delta.empty then choices else ⟨some choiceIdx, false, some delta, none⟩ :: choices, stage)

/-- What `finalize` returns: the choices of a last chunk, or a text. -/
inductive Residual
  | choices (choices : List Choice)
  | raw (text : Text)
  deriving DecidableEq, Repr

/-- `finalize`. -/
def finalize (u : CharTables) (stage : PiiRestorationStage) : Option Residual × PiiRestorationStage :=
  if stage.contentReplacers.entries.isEmpty && stage.reasoningReplacers.entries.isEmpty &&
      stage.textReplacers.entries.isEmpty && stage.toolReplacers.entries.isEmpty then
    let (raw, r) := stage.rawReplacer.flush u
    (if raw.isEmpty then none else some (.raw raw), { stage with rawReplacer := r })
  else
    let (choices, stage) := finalizeChoices u stage stage.choiceIndices
    (if choices.isEmpty then none else some (.choices choices), stage)

/-- The actions for a sequence of payloads, and the stage after them. -/
def processChunks (u : CharTables) (parse : Text → Parsed) :
    PiiRestorationStage → List Text → List StreamAction × PiiRestorationStage
  | stage, [] => ([], stage)
  | stage, payload :: payloads =>
    let (action, stage) := stage.processChunk u parse payload
    let (actions, stage) := processChunks u parse stage payloads
    (action :: actions, stage)

end PiiRestorationStage

end OpenProxy.Pii
