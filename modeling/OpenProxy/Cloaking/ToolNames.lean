import OpenProxy.Data.Json
import OpenProxy.Data.Table

/-!
# Tool names in cloaked form

The adapter for Claude Code sends the client's tools under TitleCase names and gives the client its own names back in
the response.  A name is renamed when its cloaked form differs from it and is not the cloaked form of another name that
would be renamed.  The names that stay as they are do not take part in this comparison, so the cloaked form of one tool
may be the name of another one: the renaming can be undone exactly when this does not happen (`reversible_iff`).

`char::to_uppercase` is a parameter.
-/

namespace OpenProxy.Cloaking

open Json

namespace Key

def tools : Text := "tools".toList

def messages : Text := "messages".toList

def content : Text := "content".toList

def toolChoice : Text := "tool_choice".toList

def toolUse : Text := "tool_use".toList

def choices : Text := "choices".toList

def delta : Text := "delta".toList

def toolCalls : Text := "tool_calls".toList

def function : Text := "function".toList

def name : Text := "name".toList

def type : Text := "type".toList

end Key

/-- The names by which the tools of one side are known on the other. -/
abbrev NameMap := Table Text Text

/-- What a name becomes; a name without an entry stays. -/
def NameMap.apply (map : NameMap) (name : Text) : Text := (map.lookup name).getD name

/-! ### The two maps -/

section Maps

variable (toUppercase : Char → Text)

/-- One segment, its first character in upper case. -/
def titleSegment : Text → Text
  | [] => []
  | first :: chars => toUppercase first ++ chars

def titleCaseToolName (name : Text) : Text :=
  (name.splitOnP fun c => c == '_' || c == '-').flatMap (titleSegment toUppercase)

/-- The names that are to be renamed, with their cloaked forms. -/
def candidates (names : List Text) : List (Text × Text) :=
  names.foldl (fun candidates name =>
    let cloaked := titleCaseToolName toUppercase name
    if cloaked.isEmpty || cloaked == name then candidates
    else if candidates.any fun candidate => candidate.1 == name then candidates
    else candidates ++ [(name, cloaked)]) []

/-- Another candidate has the same cloaked form. -/
def collides (candidates : List (Text × Text)) (candidate : Text × Text) : Bool :=
  candidates.any fun other => other.2 == candidate.2 && other.1 != candidate.1

def buildToolRenameMapFromNames (names : List Text) : NameMap :=
  let candidates := candidates toUppercase names
  candidates.foldl (fun map candidate =>
    if collides candidates candidate then map else map.insert candidate.1 candidate.2) ∅

/-- The names under `tools` of a request in the format of Anthropic. -/
def toolNames (json : Json) : List Text :=
  (((json.get Key.tools).bind asArray).getD []).filterMap fun tool => (tool.get Key.name).bind asStr

def buildToolRenameMap (json : Json) : NameMap :=
  match (json.get Key.tools).bind asArray with
  | none => ∅
  | some tools => buildToolRenameMapFromNames toUppercase (tools.filterMap fun tool => (tool.get Key.name).bind asStr)

def openaiToolName (tool : Json) : Option Text := ((tool.get Key.function).bind (get · Key.name)).bind asStr

/-- The map with its entries turned round. -/
def NameMap.invert (map : NameMap) : NameMap :=
  map.entries.foldl (fun inverse entry => inverse.insert entry.2 entry.1) ∅

def buildRestoreMapFromTools (tools : List Json) : Option NameMap :=
  let forward := buildToolRenameMapFromNames toUppercase (tools.filterMap openaiToolName)
  if forward.entries.isEmpty then none else some forward.invert

end Maps

/-! ### The requests and the responses -/

def renameNameField (map : NameMap) (value : Json) : Json :=
  match value with
  | object fields =>
    match (getField fields Key.name).bind asStr with
    | none => value
    | some name =>
      match map.lookup name with
      | none => value
      | some renamed => object (insertField Key.name (string renamed) fields)
  | _ => value

/-- The block is a call of a tool. -/
def isToolUse (block : Json) : Bool := (block.get Key.type).bind asStr == some Key.toolUse

/-- The block with the name of the tool that it calls renamed. -/
def renameToolUse (map : NameMap) (block : Json) : Json := if isToolUse block then renameNameField map block else block

def renameToolNamesInBody (map : NameMap) (json : Json) : Json :=
  if map.entries.isEmpty then json
  else
    let json := update Key.tools (mapItems (renameNameField map)) json
    let json := update Key.messages (mapItems (update Key.content (mapItems (renameToolUse map)))) json
    update Key.toolChoice (renameNameField map) json

/-- `OpenAIChoice`, as far as the tool calls of its message. -/
structure OpenAIChoice where
  toolCalls : Option (List Json)

/-- The call with the name of its function restored. -/
def restoreCall (map : NameMap) (call : Json) : Json := update Key.function (renameNameField map) call

def restoreResponseToolNames (map : NameMap) (choices : List OpenAIChoice) : List OpenAIChoice :=
  choices.map fun choice => { choice with toolCalls := choice.toolCalls.map (List.map (restoreCall map)) }

def restoreChunkToolNames (map : NameMap) (payload : Json) : Json :=
  update Key.choices (mapItems (update Key.delta (update Key.toolCalls (mapItems (restoreCall map))))) payload

/-- What the client receives of a response. -/
def restoredResponse (restoreMap : Option NameMap) (choices : List OpenAIChoice) : List OpenAIChoice :=
  match restoreMap with
  | some map => restoreResponseToolNames map choices
  | none => choices

/-- What the client receives of a chunk. -/
def restoredChunk (restoreMap : Option NameMap) (payload : Json) : Json :=
  match restoreMap with
  | some map => restoreChunkToolNames map payload
  | none => payload

/-- The names of the tools that a response calls. -/
def responseNames (choices : List OpenAIChoice) : List Text :=
  choices.flatMap fun choice => (choice.toolCalls.getD []).filterMap openaiToolName

/-- The names of the tools that a choice of a chunk calls. -/
def deltaNames (choice : Json) : List Text :=
  ((((choice.get Key.delta).bind (get · Key.toolCalls)).bind asArray).getD []).filterMap openaiToolName

/-- The names of the tools that a chunk calls. -/
def chunkNames (payload : Json) : List Text := (((payload.get Key.choices).bind asArray).getD []).flatMap deltaNames

/-! ### Names under a map -/

private theorem name_renameNameField (map : NameMap) (value : Json) :
    ((renameNameField map value).get Key.name).bind asStr =
      ((value.get Key.name).bind asStr).map map.apply := by
  cases value with
  | object fields =>
    simp only [renameNameField, get_object]
    cases hname : (getField fields Key.name).bind asStr with
    | none => simp only [get_object, hname, Option.map_none]
    | some name =>
      rw [Option.map_some, NameMap.apply]
      cases hmap : map.lookup name with
      | none => simp only [hmap, get_object, hname, Option.getD_none]
      | some renamed => simp only [hmap, get_object, getField_insertField, Option.bind_some, asStr, Option.getD_some]
  | _ => rfl

theorem openaiToolName_restoreCall (map : NameMap) (call : Json) :
    openaiToolName (restoreCall map call) = (openaiToolName call).map map.apply := by
  unfold openaiToolName restoreCall
  rw [get_update]
  cases call.get Key.function with
  | none => rfl
  | some function => exact name_renameNameField map function

private theorem filterMap_restoreCall (map : NameMap) (calls : List Json) :
    (calls.map (restoreCall map)).filterMap openaiToolName = (calls.filterMap openaiToolName).map map.apply := by
  rw [List.filterMap_map, List.map_filterMap]
  exact List.filterMap_congr fun call _ => openaiToolName_restoreCall map call

/-- Restoring a response applies the map to the names of its calls, and keeps their order. -/
theorem responseNames_restoreResponseToolNames (map : NameMap) (choices : List OpenAIChoice) :
    responseNames (restoreResponseToolNames map choices) = (responseNames choices).map map.apply := by
  induction choices with
  | nil => rfl
  | cons choice choices ih =>
    have hhead : ((choice.toolCalls.map (List.map (restoreCall map))).getD []).filterMap openaiToolName =
        ((choice.toolCalls.getD []).filterMap openaiToolName).map map.apply := by
      cases choice.toolCalls with
      | none => rfl
      | some calls => exact filterMap_restoreCall map calls
    simp only [responseNames, restoreResponseToolNames, List.map_cons, List.flatMap_cons, List.map_append] at ih ⊢
    rw [hhead, ih]

private theorem deltaNames_update (map : NameMap) (choice : Json) :
    deltaNames (update Key.delta (update Key.toolCalls (mapItems (restoreCall map))) choice) =
      (deltaNames choice).map map.apply := by
  unfold deltaNames
  rw [get_update]
  cases choice.get Key.delta with
  | none => rfl
  | some delta =>
    simp only [Option.map_some, Option.bind_some, get_update]
    cases delta.get Key.toolCalls with
    | none => rfl
    | some calls =>
      simp only [Option.map_some, Option.bind_some, asArray_mapItems]
      cases calls.asArray with
      | none => rfl
      | some items => exact filterMap_restoreCall map items

/-- Restoring a chunk applies the map to the names of its calls, and keeps their order. -/
theorem chunkNames_restoreChunkToolNames (map : NameMap) (payload : Json) :
    chunkNames (restoreChunkToolNames map payload) = (chunkNames payload).map map.apply := by
  unfold chunkNames restoreChunkToolNames
  rw [get_update]
  cases payload.get Key.choices with
  | none => rfl
  | some choices =>
    simp only [Option.map_some, Option.bind_some, asArray_mapItems]
    cases choices.asArray with
    | none => rfl
    | some items =>
      simp only [Option.map_some, Option.getD_some, List.flatMap_map, List.map_flatMap]
      exact List.flatMap_congr fun choice _ => deltaNames_update map choice

/-! ### What the request declares -/

private theorem apply_of_isEmpty {map : NameMap} (h : map.entries.isEmpty = true) : map.apply = id := by
  funext name
  have hlookup : map.lookup name = none := by
    rw [AList.lookup_eq_none, AList.mem_keys, AList.keys, List.isEmpty_iff.mp h]
    exact List.not_mem_nil
  rw [NameMap.apply, hlookup]
  rfl

/-- The request declares the names of its tools under their new names. -/
theorem toolNames_renameToolNamesInBody (map : NameMap) (json : Json) :
    toolNames (renameToolNamesInBody map json) = (toolNames json).map map.apply := by
  unfold renameToolNamesInBody
  split
  · rename_i hempty
    rw [apply_of_isEmpty hempty, List.map_id]
  · unfold toolNames
    rw [get_update_of_ne (by decide), get_update_of_ne (by decide), get_update]
    cases json.get Key.tools with
    | none => rfl
    | some tools =>
      simp only [Option.map_some, Option.bind_some, asArray_mapItems]
      cases tools.asArray with
      | none => rfl
      | some items =>
        rw [Option.map_some, Option.getD_some, Option.getD_some, List.filterMap_map, List.map_filterMap]
        exact List.filterMap_congr fun tool _ => name_renameNameField map tool

/-! ### The entries of the maps -/

section Entries

variable {toUppercase : Char → Text} {names : List Text}

/-- The name would be renamed if no other one had the same cloaked form. -/
def Changes (toUppercase : Char → Text) (name : Text) : Prop :=
  titleCaseToolName toUppercase name ≠ [] ∧ titleCaseToolName toUppercase name ≠ name

/-- The name is renamed: it changes, and no other declared name that changes has the same cloaked form. -/
def Renamed (toUppercase : Char → Text) (names : List Text) (name : Text) : Prop :=
  Changes toUppercase name ∧ ∀ other ∈ names, Changes toUppercase other →
    titleCaseToolName toUppercase other = titleCaseToolName toUppercase name → other = name

private theorem candidates_append (name : Text) :
    candidates toUppercase (names ++ [name]) =
      if (titleCaseToolName toUppercase name).isEmpty || titleCaseToolName toUppercase name == name then
        candidates toUppercase names
      else if (candidates toUppercase names).any fun candidate => candidate.1 == name then candidates toUppercase names
      else candidates toUppercase names ++ [(name, titleCaseToolName toUppercase name)] := by
  rw [candidates, List.foldl_append]
  rfl

private theorem mem_candidates (candidate : Text × Text) :
    candidate ∈ candidates toUppercase names ↔
      candidate.1 ∈ names ∧ Changes toUppercase candidate.1 ∧
        candidate.2 = titleCaseToolName toUppercase candidate.1 := by
  -- The list is built from the left, so the induction takes the last name off.
  induction names using List.reverseRecOn generalizing candidate with
  | nil => simp [candidates]
  | append_singleton names name ih =>
    rw [candidates_append]
    split
    · rename_i hskip
      rw [ih]
      constructor
      · rintro ⟨hmem, hchanges⟩
        exact ⟨List.mem_append_left _ hmem, hchanges⟩
      · rintro ⟨hmem, hchanges, heq⟩
        rcases List.mem_append.mp hmem with hmem | hmem
        · exact ⟨hmem, hchanges, heq⟩
        · rw [List.mem_singleton] at hmem
          rw [← hmem] at hskip
          rw [Bool.or_eq_true, List.isEmpty_iff, beq_iff_eq] at hskip
          rcases hskip with h | h
          · exact absurd h hchanges.1
          · exact absurd h hchanges.2
    · rename_i hkeep
      have hchanges : Changes toUppercase name := by
        rw [Bool.or_eq_true, List.isEmpty_iff, beq_iff_eq, not_or] at hkeep
        exact hkeep
      split
      · rename_i hany
        rw [List.any_eq_true] at hany
        obtain ⟨first, hfirst, hname⟩ := hany
        rw [beq_iff_eq] at hname
        rw [ih] at hfirst ⊢
        rw [hname] at hfirst
        constructor
        · rintro ⟨hmem, hrest⟩
          exact ⟨List.mem_append_left _ hmem, hrest⟩
        · rintro ⟨hmem, hrest⟩
          rcases List.mem_append.mp hmem with hmem | hmem
          · exact ⟨hmem, hrest⟩
          · rw [List.mem_singleton] at hmem
            exact ⟨hmem ▸ hfirst.1, hrest⟩
      · rw [List.mem_append, ih, List.mem_append, List.mem_singleton, List.mem_singleton]
        constructor
        · rintro (⟨hmem, hrest⟩ | h)
          · exact ⟨Or.inl hmem, hrest⟩
          · subst h
            exact ⟨Or.inr rfl, hchanges, rfl⟩
        · rintro ⟨hmem | hmem, hrest⟩
          · exact Or.inl ⟨hmem, hrest⟩
          · right
            rw [Prod.ext_iff]
            exact ⟨hmem, hmem ▸ hrest.2⟩

private theorem nodup_candidates : ((candidates toUppercase names).map (·.1)).Nodup := by
  induction names using List.reverseRecOn with
  | nil => exact List.nodup_nil
  | append_singleton names name ih =>
    rw [candidates_append]
    split
    · exact ih
    · split
      · exact ih
      · rename_i hany
        rw [List.map_append, List.nodup_append]
        refine ⟨ih, List.nodup_singleton _, ?_⟩
        intro first hfirst last hlast heq
        rw [List.map_singleton, List.mem_singleton] at hlast
        obtain ⟨candidate, hmem, rfl⟩ := List.mem_map.mp hfirst
        apply hany
        rw [List.any_eq_true]
        exact ⟨candidate, hmem, by rw [beq_iff_eq, heq, hlast]⟩

private theorem collides_eq_false {candidate : Text × Text} (hmem : candidate ∈ candidates toUppercase names) :
    collides (candidates toUppercase names) candidate = false ↔ Renamed toUppercase names candidate.1 := by
  rw [mem_candidates] at hmem
  rw [collides, List.any_eq_false]
  constructor
  · intro h
    refine ⟨hmem.2.1, ?_⟩
    intro other hother hchanges hsame
    have hnot := h (other, titleCaseToolName toUppercase other) ((mem_candidates _).mpr ⟨hother, hchanges, rfl⟩)
    by_contra hne
    apply hnot
    rw [Bool.and_eq_true, beq_iff_eq, bne_iff_ne, hmem.2.2]
    exact ⟨hsame, hne⟩
  · intro h other hother
    rw [mem_candidates] at hother
    rw [Bool.and_eq_true, beq_iff_eq, bne_iff_ne]
    rintro ⟨hsame, hne⟩
    apply hne
    apply h.2 other.1 hother.1 hother.2.1
    rw [← hother.2.2, hsame, hmem.2.2]

/-- The entries of the forward map. -/
theorem lookup_buildToolRenameMapFromNames (name cloaked : Text) :
    (buildToolRenameMapFromNames toUppercase names).lookup name = some cloaked ↔
      name ∈ names ∧ Renamed toUppercase names name ∧ cloaked = titleCaseToolName toUppercase name := by
  have hfold : buildToolRenameMapFromNames toUppercase names =
      ((candidates toUppercase names).filter fun candidate => !collides (candidates toUppercase names) candidate).foldl
        (fun map candidate => map.insert candidate.1 candidate.2) ∅ := by
    rw [List.foldl_filter, buildToolRenameMapFromNames]
    congr 1
    funext map candidate
    cases collides (candidates toUppercase names) candidate <;> rfl
  have hnodup : (((candidates toUppercase names).filter fun candidate =>
      !collides (candidates toUppercase names) candidate).map (·.1)).Nodup :=
    nodup_candidates.sublist (List.filter_sublist.map _)
  rw [hfold, Table.lookup_foldl_insert _ _ _ hnodup, AList.lookup_empty, Option.or_none, Option.map_eq_some_iff]
  constructor
  · rintro ⟨candidate, hfind, rfl⟩
    rw [find?_key_eq_some _ hnodup, List.mem_filter, Bool.not_eq_true'] at hfind
    obtain ⟨⟨hmem, hcollides⟩, rfl⟩ := hfind
    rw [collides_eq_false hmem] at hcollides
    rw [mem_candidates] at hmem
    exact ⟨hmem.1, hcollides, hmem.2.2⟩
  · rintro ⟨hname, hrenamed, rfl⟩
    refine ⟨(name, titleCaseToolName toUppercase name), ?_, rfl⟩
    have hmem : (name, titleCaseToolName toUppercase name) ∈ candidates toUppercase names :=
      (mem_candidates _).mpr ⟨hname, hrenamed.1, rfl⟩
    rw [find?_key_eq_some _ hnodup, List.mem_filter, Bool.not_eq_true']
    exact ⟨⟨hmem, (collides_eq_false hmem).mpr hrenamed⟩, rfl⟩

private theorem lookup_invert {map : NameMap}
    (hinj : ∀ m n cloaked, map.lookup m = some cloaked → map.lookup n = some cloaked → m = n) (cloaked name : Text) :
    map.invert.lookup cloaked = some name ↔ map.lookup name = some cloaked := by
  -- The cloaked forms are distinct, so it does not matter in which order the entries are taken.
  have hnodup : (map.entries.map (·.2)).Nodup := by
    refine List.Nodup.map_on ?_ map.nodupKeys.nodup
    rintro ⟨m, c⟩ hm ⟨n, d⟩ hn rfl
    obtain rfl := hinj m n c (AList.mem_lookup_iff.mpr hm) (AList.mem_lookup_iff.mpr hn)
    rfl
  rw [NameMap.invert, Table.lookup_foldl_insert _ _ _ hnodup, AList.lookup_empty, Option.or_none,
    Option.map_eq_some_iff]
  constructor
  · rintro ⟨⟨m, c⟩, hfind, rfl⟩
    rw [find?_key_eq_some _ hnodup] at hfind
    obtain ⟨hmem, rfl⟩ := hfind
    exact AList.mem_lookup_iff.mpr hmem
  · intro hlookup
    refine ⟨⟨name, cloaked⟩, ?_, rfl⟩
    rw [find?_key_eq_some _ hnodup]
    exact ⟨AList.mem_lookup_iff.mp hlookup, rfl⟩

/-- The entries of the map back. -/
theorem lookup_invert_buildToolRenameMapFromNames (cloaked name : Text) :
    (buildToolRenameMapFromNames toUppercase names).invert.lookup cloaked = some name ↔
      name ∈ names ∧ Renamed toUppercase names name ∧ cloaked = titleCaseToolName toUppercase name := by
  rw [lookup_invert, lookup_buildToolRenameMapFromNames]
  intro m n c hm hn
  rw [lookup_buildToolRenameMapFromNames] at hm hn
  exact hn.2.1.2 m hm.1 hm.2.1.1 (hm.2.2.symm.trans hn.2.2)

end Entries

/-! ### The way there and back -/

section Reversible

variable (toUppercase : Char → Text)

/-- The name under which the upstream knows a tool. -/
def upstreamName (names : List Text) (name : Text) : Text := (buildToolRenameMapFromNames toUppercase names).apply name

/-- The upstream can tell the tools apart, and the client is told of the tools by the names that it declared. -/
structure Reversible (tools : List Json) : Prop where
  distinct : ∀ m ∈ tools.filterMap openaiToolName, ∀ n ∈ tools.filterMap openaiToolName,
    upstreamName toUppercase (tools.filterMap openaiToolName) m =
      upstreamName toUppercase (tools.filterMap openaiToolName) n → m = n
  unary : ∀ called : List Text, (∀ n ∈ called, n ∈ tools.filterMap openaiToolName) → ∀ choices : List OpenAIChoice,
    responseNames choices = called.map (upstreamName toUppercase (tools.filterMap openaiToolName)) →
      responseNames (restoredResponse (buildRestoreMapFromTools toUppercase tools) choices) = called
  chunks : ∀ called : List Text, (∀ n ∈ called, n ∈ tools.filterMap openaiToolName) → ∀ payload : Json,
    chunkNames payload = called.map (upstreamName toUppercase (tools.filterMap openaiToolName)) →
      chunkNames (restoredChunk (buildRestoreMapFromTools toUppercase tools) payload) = called

/-- No declared name that stays as it is is the cloaked form of a declared name that is renamed. -/
def ApartFromCloaked (names : List Text) : Prop :=
  ∀ m ∈ names, ∀ n ∈ names, Renamed toUppercase names m → titleCaseToolName toUppercase m = n →
    Renamed toUppercase names n

instance (name : Text) : Decidable (Changes toUppercase name) := inferInstanceAs (Decidable (_ ∧ _))

instance (names : List Text) (name : Text) : Decidable (Renamed toUppercase names name) :=
  inferInstanceAs (Decidable (_ ∧ ∀ other ∈ names, _))

instance (names : List Text) : Decidable (ApartFromCloaked toUppercase names) :=
  inferInstanceAs (Decidable (∀ m ∈ names, ∀ n ∈ names, _))

variable {toUppercase} {names : List Text} {tools : List Json}

theorem upstreamName_of_renamed {name : Text} (hname : name ∈ names) (h : Renamed toUppercase names name) :
    upstreamName toUppercase names name = titleCaseToolName toUppercase name := by
  rw [upstreamName, NameMap.apply, (lookup_buildToolRenameMapFromNames name _).mpr ⟨hname, h, rfl⟩]
  rfl

theorem upstreamName_of_not_renamed {name : Text} (h : ¬ Renamed toUppercase names name) :
    upstreamName toUppercase names name = name := by
  have hlookup : (buildToolRenameMapFromNames toUppercase names).lookup name = none := by
    rw [Option.eq_none_iff_forall_ne_some]
    intro cloaked hsome
    exact h ((lookup_buildToolRenameMapFromNames name cloaked).mp hsome).2.1
  rw [upstreamName, NameMap.apply, hlookup]
  rfl

/-- A request declares its tools under the names by which the upstream is to know them. -/
theorem toolNames_cloaked (json : Json) :
    toolNames (renameToolNamesInBody (buildToolRenameMap toUppercase json) json) =
      (toolNames json).map (upstreamName toUppercase (toolNames json)) := by
  have hmap : buildToolRenameMap toUppercase json = buildToolRenameMapFromNames toUppercase (toolNames json) := by
    unfold buildToolRenameMap toolNames
    cases (json.get Key.tools).bind asArray <;> rfl
  rw [toolNames_renameToolNamesInBody, hmap]
  rfl

/-- Going there and back leaves every declared name as it was. -/
theorem invert_upstreamName (hnames : ApartFromCloaked toUppercase names) {name : Text} (hname : name ∈ names) :
    (buildToolRenameMapFromNames toUppercase names).invert.apply (upstreamName toUppercase names name) = name := by
  by_cases h : Renamed toUppercase names name
  · rw [upstreamName_of_renamed hname h, NameMap.apply,
      (lookup_invert_buildToolRenameMapFromNames _ name).mpr ⟨hname, h, rfl⟩]
    rfl
  · rw [upstreamName_of_not_renamed h, NameMap.apply]
    cases hlookup : (buildToolRenameMapFromNames toUppercase names).invert.lookup name with
    | none => rfl
    | some other =>
      rw [lookup_invert_buildToolRenameMapFromNames] at hlookup
      obtain ⟨hother, hrenamed, heq⟩ := hlookup
      exact absurd (hnames other hother name hname hrenamed heq.symm) h

private theorem map_invert_upstreamName (hnames : ApartFromCloaked toUppercase names) {called : List Text}
    (hcalled : ∀ n ∈ called, n ∈ names) :
    (called.map (upstreamName toUppercase names)).map (buildToolRenameMapFromNames toUppercase names).invert.apply =
      called := by
  rw [List.map_map]
  conv => rhs; rw [← List.map_id called]
  exact List.map_congr_left fun n hn => invert_upstreamName hnames (hcalled n hn)

private theorem apply_invert_of_isEmpty {map : NameMap} (h : map.entries.isEmpty = true) : map.invert.apply = id := by
  apply apply_of_isEmpty
  rw [NameMap.invert, List.isEmpty_iff.mp h]
  rfl

/-- What the client sees of a response, whether or not there is something to restore. -/
private theorem responseNames_restoredResponse (choices : List OpenAIChoice) :
    responseNames (restoredResponse (buildRestoreMapFromTools toUppercase tools) choices) =
      (responseNames choices).map
        (buildToolRenameMapFromNames toUppercase (tools.filterMap openaiToolName)).invert.apply := by
  rw [buildRestoreMapFromTools]
  by_cases hempty : (buildToolRenameMapFromNames toUppercase (tools.filterMap openaiToolName)).entries.isEmpty
  · rw [if_pos hempty, restoredResponse, apply_invert_of_isEmpty hempty, List.map_id]
  · rw [if_neg hempty]
    exact responseNames_restoreResponseToolNames _ choices

private theorem chunkNames_restoredChunk (payload : Json) :
    chunkNames (restoredChunk (buildRestoreMapFromTools toUppercase tools) payload) =
      (chunkNames payload).map
        (buildToolRenameMapFromNames toUppercase (tools.filterMap openaiToolName)).invert.apply := by
  rw [buildRestoreMapFromTools]
  by_cases hempty : (buildToolRenameMapFromNames toUppercase (tools.filterMap openaiToolName)).entries.isEmpty
  · rw [if_pos hempty, restoredChunk, apply_invert_of_isEmpty hempty, List.map_id]
  · rw [if_neg hempty]
    exact chunkNames_restoreChunkToolNames _ payload

/-- The renaming can be undone if and only if no tool that keeps its name is named as another one is cloaked. -/
theorem reversible_iff (toUppercase : Char → Text) (tools : List Json) :
    Reversible toUppercase tools ↔ ApartFromCloaked toUppercase (tools.filterMap openaiToolName) := by
  constructor
  · intro h m hm n hn hrenamed heq
    by_contra hn'
    have hm' : upstreamName toUppercase (tools.filterMap openaiToolName) m = n :=
      (upstreamName_of_renamed hm hrenamed).trans heq
    have hsame := h.distinct m hm n hn (hm'.trans (upstreamName_of_not_renamed hn').symm)
    exact hrenamed.1.2 (heq.trans hsame.symm)
  · intro h
    constructor
    · intro m hm n hn heq
      rw [← invert_upstreamName h hm, heq, invert_upstreamName h hn]
    · intro called hcalled choices hchoices
      rw [responseNames_restoredResponse, hchoices, map_invert_upstreamName h hcalled]
    · intro called hcalled payload hpayload
      rw [chunkNames_restoredChunk, hpayload, map_invert_upstreamName h hcalled]

end Reversible

example : ApartFromCloaked (fun c => [c.toUpper]) ["read_file".toList, "Bash".toList] := by decide

/-- A tool as the client declares it. -/
def declaredTool (name : Text) : Json := object [(Key.function, object [(Key.name, string name)])]

/-- `read_file` is sent as `ReadFile`, and so is the tool that the client calls `ReadFile`. -/
theorem not_reversible_readFile :
    ¬ ∀ tools : List Json, (tools.filterMap openaiToolName).Nodup → Reversible (fun c => [c.toUpper]) tools := by
  intro h
  have hdistinct := (h [declaredTool "read_file".toList, declaredTool "ReadFile".toList] (by decide)).distinct
    "read_file".toList (by decide) "ReadFile".toList (by decide) (by decide)
  exact absurd hdistinct (by decide)

end OpenProxy.Cloaking
