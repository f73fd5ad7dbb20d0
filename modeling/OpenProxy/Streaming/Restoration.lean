import OpenProxy.Pii.Interleaving
import OpenProxy.Streaming.ReshapeStep

/-!
# The payloads of the restoration stage

What `PiiRestorationStage` reads of the JSON of a payload, and the JSON that it writes: the payload with other strings in
its choices, or a chunk of its own at the end of the stream.
-/

namespace OpenProxy.Streaming

open Json Pii

def Key.text : Text := "text".toList

/-! ### Reading -/

def readToolCall (tc : Json) : ToolCall where
  index := (tc.get Key.index).bind decodeU64
  arguments := ((tc.get Key.function).bind (·.get Key.arguments)).bind asStr

def readDelta (delta : Json) : Delta where
  content := (delta.get Key.content).bind asStr
  reasoningContent := (delta.get Key.reasoningContent).bind asStr
  toolCalls := ((delta.get Key.toolCalls).bind asArray).map (List.map readToolCall)
  text := (delta.get Key.text).bind asStr

/-- The delta of a choice, if it is an object. -/
def deltaFields (choice : Json) : Option (List (Text × Json)) := (choice.get Key.delta).bind asObject

def readChoice (choice : Json) : Choice where
  index := choiceIndex choice
  hasFinishReason := hasFinishReason choice
  delta := (deltaFields choice).map fun fields => readDelta (object fields)
  text := (choice.get Key.text).bind asStr

/-- `serde_json::from_str` as `process_chunk` looks at its result. -/
def parsePayload (payload : Text) : Parsed :=
  match fromStr payload with
  | none => .error
  | some (object fields) => .object ((choices (object fields)).map (List.map readChoice))
  | some _ => .other

/-! ### Writing -/

def writeToolCall (tc : Json) (restored : ToolCall) : Json :=
  match restored.arguments with
  | some arguments => update Key.function (Streaming.setField Key.arguments (string arguments)) tc
  | none => tc

/-- A tool call that is made for what its replacer still held. -/
def residualToolCall (residual : ToolCall) : Json :=
  object [(Key.function, object [(Key.arguments, string (residual.arguments.getD []))]),
    (Key.index, number (.ofNat (residual.index.getD 0)))]

def writeToolCalls (toolCalls : Option Json) (restored : List ToolCall) : Json :=
  match toolCalls.bind asArray with
  | some items => array (List.zipWith writeToolCall items restored)
  | none => array (restored.map residualToolCall)

def writeDelta (fields : List (Text × Json)) (restored : Delta) : List (Text × Json) :=
  let toolCalls := getField fields Key.toolCalls
  let fields := Json.setField Key.content (restored.content.map string) fields
  let fields := Json.setField Key.reasoningContent (restored.reasoningContent.map string) fields
  let fields := Json.setField Key.toolCalls (restored.toolCalls.map (writeToolCalls toolCalls)) fields
  Json.setField Key.text (restored.text.map string) fields

def writeChoice (choice : Json) (restored : Choice) : Json :=
  match restored.delta with
  | some delta => Streaming.setField Key.delta (object (writeDelta ((deltaFields choice).getD []) delta)) choice
  | none =>
    match restored.text with
    | some text => Streaming.setField Key.text (string text) choice
    | none => choice

/-- The payload with the choices that have been restored. -/
def writeChoices (v : Json) (restored : List Choice) : Json :=
  match v, choices v with
  | object fields, some items =>
    object (insertField Key.choices (array (List.zipWith writeChoice items restored)) fields)
  | v, _ => v

/-- A choice that is made for what its replacers still held. -/
def residualChoice (residual : Choice) : Json :=
  object [(Key.delta, object (writeDelta [] (residual.delta.getD Delta.empty))),
    (Key.index, number (.ofNat (residual.index.getD 0)))]

/-- What `finalize` returns. -/
def residualPayload : PiiRestorationStage.Residual → Text
  | .choices residuals => write (object [(Key.choices, array (residuals.map residualChoice))])
  | .raw text => text

/-- `process_chunk` of the restoration stage. -/
def restorePayload (u : CharTables) (stage : PiiRestorationStage) (payload : Text) :
    Streaming.StreamAction × PiiRestorationStage :=
  let (action, stage') := stage.processChunk u parsePayload payload
  (match action with
    | .passthrough => .passthrough
    | .mutateChoices restored =>
      .mutate (write (writeChoices ((fromStr (stage.bufferedJson ++ payload)).getD null) restored))
    | .mutate text => .mutate text
    | .skip => .skip, stage')

/-! ### What is written -/

private theorem deltaKeys_ne : Key.content ≠ Key.reasoningContent ∧ Key.content ≠ Key.toolCalls ∧ Key.content ≠ Key.text ∧
    Key.toolCalls ≠ Key.reasoningContent ∧ Key.toolCalls ≠ Key.text ∧ Key.role ≠ Key.content ∧
    Key.role ≠ Key.reasoningContent ∧ Key.role ≠ Key.toolCalls ∧ Key.role ≠ Key.text := by decide

theorem getField_writeDelta_content (fields : List (Text × Json)) (restored : Delta) :
    getField (writeDelta fields restored) Key.content = (restored.content.map string).or (getField fields Key.content) := by
  obtain ⟨hr, ht, hx, -⟩ := deltaKeys_ne
  unfold writeDelta
  dsimp only
  rw [getField_setField_of_ne hx.symm, getField_setField_of_ne ht.symm, getField_setField_of_ne hr.symm,
    getField_setField]

theorem getField_writeDelta_toolCalls (fields : List (Text × Json)) (restored : Delta) :
    getField (writeDelta fields restored) Key.toolCalls =
      (restored.toolCalls.map (writeToolCalls (getField fields Key.toolCalls))).or (getField fields Key.toolCalls) := by
  obtain ⟨-, hc, -, hr, hx, -⟩ := deltaKeys_ne
  unfold writeDelta
  dsimp only
  rw [getField_setField_of_ne hx.symm, getField_setField, getField_setField_of_ne hr.symm, getField_setField_of_ne hc]

theorem getField_writeDelta_role (fields : List (Text × Json)) (restored : Delta) :
    getField (writeDelta fields restored) Key.role = getField fields Key.role := by
  obtain ⟨-, -, -, -, -, hc, hr, ht, hx⟩ := deltaKeys_ne
  unfold writeDelta
  dsimp only
  rw [getField_setField_of_ne hx.symm, getField_setField_of_ne ht.symm, getField_setField_of_ne hr.symm,
    getField_setField_of_ne hc.symm]

theorem carries_writeDelta {fields : List (Text × Json)} (restored : Delta) (h : carries (object fields) = true) :
    carries (object (writeDelta fields restored)) = true := by
  unfold carries at h ⊢
  simp only [get_object, getField_writeDelta_content, getField_writeDelta_toolCalls, getField_writeDelta_role,
    Bool.or_eq_true] at h ⊢
  rcases h with (hc | ht) | hr
  · refine Or.inl (Or.inl ?_)
    cases restored.content with
    | none => exact hc
    | some text => rfl
  · refine Or.inl (Or.inr ?_)
    cases restored.toolCalls with
    | none => exact ht
    | some tcs =>
      simp only [Option.map_some, Option.some_or, Option.bind_some]
      unfold writeToolCalls
      split <;> rfl
  · exact Or.inr hr

theorem deltaFields_eq_some {choice : Json} {fields : List (Text × Json)} (h : deltaFields choice = some fields) :
    choice.get Key.delta = some (object fields) := by
  rw [deltaFields, Option.bind_eq_some_iff] at h
  obtain ⟨delta, hdelta, hfields⟩ := h
  cases delta with
  | object fields' =>
    cases hfields
    exact hdelta
  | null | bool b | number n | string s | array items => cases hfields

private theorem choice_ne : Key.delta ≠ Key.index ∧ Key.delta ≠ Key.finishReason ∧ Key.text ≠ Key.index ∧
    Key.text ≠ Key.finishReason ∧ Key.text ≠ Key.delta := by decide

/-- Nothing that a choice carries is lost when it is written. -/
theorem follows_writeChoice (choice : Json) (restored : Choice) : Follows choice (writeChoice choice restored) := by
  obtain ⟨hdi, hdf, hti, htf, htd⟩ := choice_ne
  unfold writeChoice
  split
  · rename_i delta _
    refine ⟨by rw [choiceIndex, get_setField_of_ne hdi, choiceIndex], ?_⟩
    unfold isUseful hasFinishReason
    rw [get_setField_of_ne hdf, Bool.or_eq_true, Bool.or_eq_true]
    refine Or.imp_left fun hcarries => ?_
    cases hfields : deltaFields choice with
    | none =>
      -- a delta that is no object carries nothing
      rw [Option.any_eq_true_iff_get] at hcarries
      obtain ⟨hsome, hget⟩ := hcarries
      obtain ⟨d, hd⟩ := Option.isSome_iff_exists.mp hsome
      simp only [hd, Option.get_some] at hget
      rw [deltaFields, hd, Option.bind_some] at hfields
      cases d with
      | object fields => cases hfields
      | null | bool b | number n | string s | array items => simp [carries, Json.get, asObject] at hget
    | some fields =>
      have hdelta := deltaFields_eq_some hfields
      rw [hdelta, Option.any_some] at hcarries
      cases choice with
      | object outer =>
        rw [get_setField, Option.any_some, Option.getD_some]
        exact carries_writeDelta delta hcarries
      | null | bool b | number n | string s | array items => cases hdelta
  · split
    · refine ⟨by rw [choiceIndex, get_setField_of_ne hti, choiceIndex], ?_⟩
      unfold isUseful hasFinishReason
      rw [get_setField_of_ne htf, get_setField_of_ne htd]
      exact id
    · exact .refl _

/-! ### How deep it is -/

private theorem depth_string (text : Text) : (string text).depth = 0 := by simp [depth]

theorem fieldsDepth_setString_le (key : Text) (value : Option Text) (fields : List (Text × Json)) :
    fieldsDepth (Json.setField key (value.map string) fields) ≤ fieldsDepth fields := by
  cases value with
  | none => exact le_rfl
  | some text => exact fieldsDepth_insertString_le key text fields

theorem depth_writeToolCall_le (tc : Json) (restored : ToolCall) : (writeToolCall tc restored).depth ≤ tc.depth := by
  unfold writeToolCall
  split
  · rename_i arguments _
    cases tc with
    | object fields =>
      rw [update]
      split
      · rename_i value hvalue
        have hinsert := fieldsDepth_insertField_le Key.function
          (Streaming.setField Key.arguments (string arguments) value) fields
        have hold := depth_le_of_getField hvalue
        have hset : (Streaming.setField Key.arguments (string arguments) value).depth ≤ value.depth := by
          cases value with
          | object inner =>
            simp only [Streaming.setField, depth]
            exact Nat.succ_le_succ (fieldsDepth_insertString_le _ _ _)
          | null | bool b | number n | string s | array items => exact le_rfl
        simp only [depth]
        omega
      · exact le_rfl
    | null | bool b | number n | string s | array items => exact le_rfl
  · exact le_rfl

theorem itemsDepth_zipWith_le {α : Type} {f : Json → α → Json} {d : Nat} {items : List Json} {as : List α}
    (h : ∀ item ∈ items, ∀ a, (f item a).depth ≤ d) : itemsDepth (List.zipWith f items as) ≤ d := by
  rw [itemsDepth_le]
  intro v hv
  obtain ⟨n, item, a, hitem, -, rfl⟩ : ∃ n item a, items[n]? = some item ∧ as[n]? = some a ∧ v = f item a := by
    obtain ⟨n, hn⟩ := List.mem_iff_getElem?.mp hv
    rw [List.getElem?_zipWith_eq_some] at hn
    obtain ⟨item, a, hitem, ha, rfl⟩ := hn
    exact ⟨n, item, a, hitem, ha, rfl⟩
  exact h item (List.mem_of_getElem? hitem) a

theorem depth_writeToolCalls_le (toolCalls : Option Json) (restored : List ToolCall) {d : Nat} (hd : 3 ≤ d)
    (h : ∀ v, toolCalls = some v → v.depth ≤ d) : (writeToolCalls toolCalls restored).depth ≤ d := by
  unfold writeToolCalls
  split
  · rename_i items hitems
    rw [Option.bind_eq_some_iff] at hitems
    obtain ⟨v, hv, harray⟩ := hitems
    cases v with
    | array _ =>
      cases harray
      have hold := h _ hv
      rw [depth] at hold ⊢
      have hzip : itemsDepth (List.zipWith writeToolCall items restored) ≤ itemsDepth items :=
        itemsDepth_zipWith_le fun item hitem tc => (depth_writeToolCall_le item tc).trans (itemsDepth_le.mp le_rfl item hitem)
      omega
    | null | bool b | number n | string s | object fields => cases harray
  · have hitems : itemsDepth (restored.map residualToolCall) ≤ 2 := by
      rw [itemsDepth_le]
      intro item hitem
      obtain ⟨tc, -, rfl⟩ := List.mem_map.mp hitem
      simp [residualToolCall, depth, fieldsDepth]
    rw [depth]
    omega

theorem fieldsDepth_writeDelta_le (fields : List (Text × Json)) (restored : Delta) :
    fieldsDepth (writeDelta fields restored) ≤ max (fieldsDepth fields) 3 := by
  unfold writeDelta
  dsimp only
  refine (fieldsDepth_setString_le _ _ _).trans ?_
  have hstrings : fieldsDepth (Json.setField Key.reasoningContent (restored.reasoningContent.map string)
      (Json.setField Key.content (restored.content.map string) fields)) ≤ fieldsDepth fields :=
    (fieldsDepth_setString_le _ _ _).trans (fieldsDepth_setString_le _ _ _)
  cases restored.toolCalls with
  | none => exact le_max_of_le_left hstrings
  | some tcs =>
    refine (fieldsDepth_insertField_le _ _ _).trans (max_le ?_ (le_max_of_le_left hstrings))
    exact depth_writeToolCalls_le _ _ (le_max_right _ _) fun v hv => le_max_of_le_left (depth_le_of_getField hv)

theorem depth_writeChoice_le (choice : Json) (restored : Choice) :
    (writeChoice choice restored).depth ≤ max choice.depth 5 := by
  unfold writeChoice
  split
  · rename_i delta _
    have hset := depth_setField_le Key.delta (object (writeDelta ((deltaFields choice).getD []) delta)) choice
    have hdelta := fieldsDepth_writeDelta_le ((deltaFields choice).getD []) delta
    have hold : fieldsDepth ((deltaFields choice).getD []) + 2 ≤ max choice.depth 2 := by
      cases hfields : deltaFields choice with
      | none => exact le_max_right _ _
      | some fields =>
        have hlt := depth_lt_of_get (deltaFields_eq_some hfields)
        rw [depth] at hlt
        exact le_max_of_le_left hlt
    rw [depth.eq_def (object _)] at hset
    dsimp only at hset
    omega
  · split
    · rename_i text _
      have hset := depth_setField_le Key.text (string text) choice
      rw [depth_string] at hset
      omega
    · exact le_max_left _ _

theorem forall₂_zipWith {α : Type} {f : Json → α → Json} (h : ∀ item a, Follows item (f item a)) {items : List Json}
    {as : List α} (hlength : as.length = items.length) : List.Forall₂ Follows items (List.zipWith f items as) := by
  induction items generalizing as with
  | nil =>
    cases as with
    | nil => exact .nil
    | cons a as => cases hlength
  | cons item items ih =>
    cases as with
    | nil => cases hlength
    | cons a as => exact .cons (h item a) (ih (by simpa using hlength))

/-- The payload with other choices, as many as it had. -/
theorem reshapes_writeChoices {v : Json} {restored : List Choice}
    (hlength : restored.length = ((choices v).getD []).length) : Reshapes v (writeChoices v restored) := by
  unfold writeChoices
  split
  · rename_i fields items hitems
    have harray : getField fields Key.choices = some (array items) := by
      rw [choices_object, Option.bind_eq_some_iff] at hitems
      obtain ⟨u, hu, harray⟩ := hitems
      cases u with
      | array items' =>
        cases harray
        exact hu
      | null | bool b | number n | string s | object fields => cases harray
    rw [hitems, Option.getD_some] at hlength
    refine ⟨?_, fun _ => rfl, ?_⟩
    · have hinsert := fieldsDepth_insertField_le Key.choices (array (List.zipWith writeChoice items restored)) fields
      have hold := depth_le_of_getField harray
      have hzip : itemsDepth (List.zipWith writeChoice items restored) ≤ max (itemsDepth items) 5 := by
        refine itemsDepth_zipWith_le fun item hitem c => (depth_writeChoice_le item c).trans ?_
        exact max_le_max (itemsDepth_le.mp le_rfl item hitem) le_rfl
      simp only [depth, insertedDepth] at hold hinsert ⊢
      omega
    · rw [hitems, choices_object, getField_insertField]
      exact forall₂_zipWith follows_writeChoice hlength
  · exact .refl _

/-! ### The content of a payload -/

/-- The content in the delta of a choice. -/
def contentOf (choice : Json) : Text := (((choice.get Key.delta).bind (·.get Key.content)).bind asStr).getD []

/-- The content that a client reads in a payload. -/
def contentsOf (payload : Text) : Text := (((read payload).bind choices).getD []).flatMap contentOf

theorem contentOf_normal (choice : Json) : contentOf choice.normal = contentOf choice := by
  unfold contentOf
  rw [get_normal]
  cases choice.get Key.delta with
  | none => rfl
  | some delta =>
    simp only [Option.map_some, Option.bind_some, get_normal]
    cases delta.get Key.content with
    | none => rfl
    | some content => simp [asStr_normal]

theorem contentsOf_of_fromStr {payload : Text} {v : Json} (h : fromStr payload = some v) :
    contentsOf payload = ((choices v).getD []).flatMap contentOf := by
  obtain ⟨u, hu, -, rfl⟩ := fromStr_eq_some.mp h
  rw [contentsOf, hu, Option.bind_some, choices_normal]
  cases choices u with
  | none => rfl
  | some cs => simp only [Option.getD_some, Option.map_some, List.flatMap_map, contentOf_normal]

theorem contentsOf_write (v : Json) : contentsOf (write v) = ((choices v).getD []).flatMap contentOf := by
  rw [contentsOf, read_write, Option.bind_some]

theorem getD_get_readChoice (choice : Json) : ((readChoice choice).get .content).getD [] = contentOf choice := by
  unfold Choice.get readChoice contentOf deltaFields
  cases hdelta : choice.get Key.delta with
  | none => rfl
  | some delta => cases delta <;> rfl

theorem contentOf_of_no_delta {choice : Json} (h : deltaFields choice = none) : contentOf choice = [] := by
  unfold deltaFields at h
  unfold contentOf
  cases hdelta : choice.get Key.delta with
  | none => rfl
  | some delta =>
    rw [hdelta, Option.bind_some] at h
    cases delta with
    | object fields => cases h
    | null | bool b | number n | string s | array items => rfl

theorem contentOf_setDelta (outer fields : List (Text × Json)) :
    contentOf (Streaming.setField Key.delta (object fields) (object outer)) =
      ((getField fields Key.content).bind asStr).getD [] := by
  rw [contentOf, get_setField, Option.bind_some, get_object]

/-- A string that is there is processed. -/
theorem isSome_processField {u : CharTables} {stage : PiiRestorationStage} {field : Field} {choiceIdx : Nat}
    {value : Option Text} {finish : Bool} (h : (stage.processField u field choiceIdx value finish).1 = none) :
    value = none := by
  cases value with
  | none => rfl
  | some fragment => cases h

/-- The content that is written is the one that has been restored. -/
theorem contentOf_writeChoice (u : CharTables) (stage : PiiRestorationStage) (choice : Json) (arrIdx : Nat) :
    contentOf (writeChoice choice (stage.processChoice u (readChoice choice) arrIdx).1) =
      (((stage.processChoice u (readChoice choice) arrIdx).1).get .content).getD [] := by
  cases hfields : deltaFields choice with
  | some fields =>
    have hdelta : (readChoice choice).delta = some (readDelta (object fields)) := by simp [readChoice, hfields]
    obtain ⟨p₁, p₂, p₃, p₄, h₁, -, -, -, heq⟩ := @PiiRestorationStage.processChoice_delta u stage _ _ arrIdx hdelta
    rw [heq]
    have hget := deltaFields_eq_some hfields
    cases choice with
    | object outer =>
      unfold writeChoice Choice.get Delta.get
      dsimp only
      rw [contentOf_setDelta, hfields, Option.getD_some, getField_writeDelta_content]
      cases hp : p₁.1 with
      | some text => rfl
      | none =>
        have hnone : ((getField fields Key.content).bind asStr) = none := isSome_processField (h₁ ▸ hp)
        simp [hnone]
    | null | bool b | number n | string s | array items => cases hget
  | none =>
    have hdelta : (readChoice choice).delta = none := by simp [readChoice, hfields]
    have hbefore := contentOf_of_no_delta hfields
    unfold PiiRestorationStage.processChoice
    rw [hdelta]
    cases htext : (readChoice choice).text with
    | some text =>
      -- its own text is written, and there is no content
      have hset : ∀ t : Text, contentOf (Streaming.setField Key.text (string t) choice) = contentOf choice := by
        intro t
        rw [contentOf, get_setField_of_ne choice_ne.2.2.2.2, contentOf]
      have hsome : ∃ t, (stage.processField u .text ((readChoice choice).choiceIdx arrIdx) (some text)
          (readChoice choice).hasFinishReason).1 = some t := ⟨_, rfl⟩
      obtain ⟨t, ht⟩ := hsome
      unfold writeChoice Choice.get
      simp only [ht]
      rw [hset, hbefore]
      rfl
    | none =>
      dsimp only
      cases hflushed : (stage.processField u .content ((readChoice choice).choiceIdx arrIdx) none
          (readChoice choice).hasFinishReason).1 with
      | none =>
        unfold writeChoice Choice.get
        simp only [Option.map_none]
        rw [hbefore]
        rfl
      | some text =>
        have hfinish : hasFinishReason choice = true := by
          by_contra hfinish
          rw [Bool.not_eq_true] at hfinish
          rw [show (readChoice choice).hasFinishReason = false from hfinish] at hflushed
          cases hflushed
        cases choice with
        | object outer =>
          unfold writeChoice Choice.get Delta.get
          simp only [Option.map_some]
          rw [contentOf_setDelta, hfields, getField_writeDelta_content]
          rfl
        | null | bool b | number n | string s | array items => cases hfinish

/-- The content of a choice as the stage handles it. -/
def contentText (choice : Choice) : Text := (choice.get .content).getD []

theorem length_processChoices (u : CharTables) (stage : PiiRestorationStage) (entries : List (Choice × Nat)) :
    (PiiRestorationStage.processChoices u stage entries).1.length = entries.length := by
  induction entries generalizing stage with
  | nil => rfl
  | cons entry entries ih =>
    unfold PiiRestorationStage.processChoices
    dsimp only
    rw [List.length_cons, List.length_cons, ih]

theorem contents_zipWith_writeChoice (u : CharTables) (stage : PiiRestorationStage) (items : List Json) (k : Nat) :
    (List.zipWith writeChoice items
      (PiiRestorationStage.processChoices u stage ((items.map readChoice).zipIdx k)).1).flatMap contentOf =
      (PiiRestorationStage.processChoices u stage ((items.map readChoice).zipIdx k)).1.flatMap contentText := by
  induction items generalizing stage k with
  | nil => rfl
  | cons item items ih =>
    rw [List.map_cons, List.zipIdx_cons]
    unfold PiiRestorationStage.processChoices
    dsimp only
    rw [List.zipWith_cons_cons, List.flatMap_cons, List.flatMap_cons, ih, contentOf_writeChoice]
    rfl

theorem choices_writeChoices (fields : List (Text × Json)) (restored : List Choice) :
    (choices (writeChoices (object fields) restored)).getD [] =
      List.zipWith writeChoice ((choices (object fields)).getD []) restored := by
  unfold writeChoices
  split
  · rename_i fields' items heq hitems
    cases heq
    rw [hitems, choices_object, getField_insertField]
    rfl
  · rename_i hnone
    cases hitems : choices (object fields) with
    | none => rw [Option.getD_none, List.zipWith_nil_left]
    | some items => exact absurd hitems (hnone fields items rfl)

/-- The payload of a chunk that can be read with a limit. -/
structure IsDocument (payload : Text) (v : Json) : Prop where
  read : read payload = some v
  depth : v.depth ≤ 127
  isObject : ∃ fields, v = object fields

theorem IsDocument.parsePayload {payload : Text} {v : Json} (h : IsDocument payload v) :
    parsePayload payload = .object ((choices v.normal).map (List.map readChoice)) := by
  obtain ⟨fields, rfl⟩ := h.isObject
  have hfrom : fromStr payload = some (object fields).normal := fromStr_eq_some.mpr ⟨_, h.read, h.depth, rfl⟩
  rw [Streaming.parsePayload, hfrom, normal]

theorem IsDocument.contentsOf {payload : Text} {v : Json} (h : IsDocument payload v) :
    contentsOf payload = ((choices v.normal).getD []).flatMap contentOf :=
  contentsOf_of_fromStr (fromStr_eq_some.mpr ⟨v, h.read, h.depth, rfl⟩)

/-- What a document becomes that is rewritten is a document. -/
theorem IsDocument.of_readable {payload out : Text} {v : Json} (h : IsDocument payload v) (hout : Readable v out) :
    ∃ v', IsDocument out v' ∧ Reshapes v v' := by
  obtain ⟨v', hread, hreshapes⟩ := hout
  refine ⟨v', ⟨hread, hreshapes.depth.trans (max_le h.depth (by decide)), ?_⟩, hreshapes⟩
  obtain ⟨fields, rfl⟩ := h.isObject
  cases v' with
  | object fields' => exact ⟨fields', rfl⟩
  | null | bool b | number n | string s | array items => cases hreshapes.isObject rfl

/-- The content of a document is that of the choices that the stage reads. -/
theorem IsDocument.contents_choices {payload : Text} {v : Json} (h : IsDocument payload v) :
    (Streaming.parsePayload payload).choices.flatMap contentText = Streaming.contentsOf payload := by
  have hitems : ((choices v.normal).map (List.map readChoice)).getD [] = ((choices v.normal).getD []).map readChoice := by
    cases choices v.normal <;> rfl
  rw [h.parsePayload, h.contentsOf, Parsed.choices, hitems, List.flatMap_map]
  exact List.flatMap_congr fun choice _ => getD_get_readChoice choice

/-- A stage that reads every payload as JSON, or has nothing to restore. -/
def Reads (stage : PiiRestorationStage) : Prop := stage.isEmpty = true ∨ stage.Ready

theorem Reads.of_keeps {stage stage' : PiiRestorationStage} (h : Reads stage) (hkeeps : stage.Keeps stage') :
    Reads stage' := by
  rcases h with hempty | hready
  · left
    unfold PiiRestorationStage.isEmpty
    rw [hkeeps.contentTemplate]
    exact hempty
  · exact Or.inr (hkeeps.ready hready)

/-- What the stage emits for the payload of a chunk. -/
theorem restorePayload_spec (u : CharTables) {stage : PiiRestorationStage} (hreads : Reads stage) {payload : Text} {v : Json}
    (h : IsDocument payload v) :
    stage.Keeps (restorePayload u stage payload).2 ∧
      ∃ out, (restorePayload u stage payload).1.emitted payload = some out ∧ Readable v out ∧
        contentsOf out = ((stage.processChunk u parsePayload payload).1.choices (parsePayload payload)).flatMap
          contentText := by
  rcases hreads with hempty | hready
  · have hchunk : stage.processChunk u parsePayload payload = (.passthrough, stage) := if_pos hempty
    unfold restorePayload
    rw [hchunk]
    exact ⟨.refl _, payload, rfl, .of_read h.read, h.contents_choices.symm⟩
  · have hfrom : fromStr payload = some v.normal := fromStr_eq_some.mpr ⟨v, h.read, h.depth, rfl⟩
    have hparse := h.parsePayload
    have hchunk := PiiRestorationStage.processChunk_object (u := u) hready hparse
    have hitems : ((choices v.normal).map (List.map readChoice)).getD [] =
        ((choices v.normal).getD []).map readChoice := by
      cases choices v.normal <;> rfl
    have hcontents := h.contents_choices
    unfold restorePayload
    rw [hparse] at hcontents ⊢
    rw [hchunk, hitems, hready.bufferedJson, List.nil_append, hfrom, Option.getD_some]
    refine ⟨PiiRestorationStage.processChoices_keeps _, ?_⟩
    obtain ⟨fields, hfields⟩ : ∃ fields, v.normal = object fields := by
      obtain ⟨fields, rfl⟩ := h.isObject
      exact ⟨_, rfl⟩
    by_cases hchanged : (PiiRestorationStage.processChoices u stage
        (((choices v.normal).getD []).map readChoice).zipIdx).1.any PiiRestorationStage.changed = true
    · rw [if_pos hchanged]
      refine ⟨_, rfl, readable_write ((reshapes_normal v).trans (reshapes_writeChoices ?_)), ?_⟩
      · rw [length_processChoices, List.length_zipIdx, List.length_map]
      · rw [contentsOf_write, hfields, choices_writeChoices, contents_zipWith_writeChoice]
        rfl
    · rw [if_neg hchanged]
      exact ⟨_, rfl, .of_read h.read, hcontents.symm⟩

end OpenProxy.Streaming
