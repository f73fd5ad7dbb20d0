import OpenProxy.Streaming.EndOfStream

/-!
# What the normalizer keeps of a chunk

The normalizer rewrites the chunks that pass through it.  What it emits for a payload that can be read can be read too,
and has the same choices, each under its index, and with something for the client if it had that before
(`reshapes_step`).
-/

namespace OpenProxy.Streaming

open Json

/-! ### Choices -/

def Key.role : Text := "role".toList

/-- `is_null`. -/
def isNull : Json → Bool
  | null => true
  | _ => false

/-- `has_finish_reason`: the finish reason is there and is not null. -/
def hasFinishReason (choice : Json) : Bool := (choice.get Key.finishReason).any fun reason => !isNull reason

/-- `choice["index"].as_u64()`. -/
def choiceIndex (choice : Json) : Option Nat := (choice.get Key.index).bind decodeU64

/-- The delta holds content, tool calls or a role. -/
def carries (delta : Json) : Bool :=
  ((delta.get Key.content).bind asStr).isSome || ((delta.get Key.toolCalls).bind asArray).isSome ||
    (delta.get Key.role).isSome

/-- The choice has something for the client besides reasoning. -/
def isUseful (choice : Json) : Bool := (choice.get Key.delta).any carries || hasFinishReason choice

/-- The choice has the same index, and is still of use if it was. -/
structure Follows (c c' : Json) : Prop where
  index : choiceIndex c' = choiceIndex c
  useful : isUseful c = true → isUseful c' = true

theorem Follows.refl (c : Json) : Follows c c := ⟨rfl, id⟩

theorem Follows.trans {a b c : Json} (h : Follows a b) (h' : Follows b c) : Follows a c :=
  ⟨h'.index.trans h.index, fun ha => h'.useful (h.useful ha)⟩

/-- How deep what the stages put into a chunk is: a tool call in a delta. -/
def insertedDepth : Nat := 7

/-- A chunk that has been rewritten: it is not deeper than it was and than what has been put into it, it is still an object
if it was, and it has the same choices. -/
structure Reshapes (v v' : Json) : Prop where
  depth : v'.depth ≤ max v.depth insertedDepth
  isObject : v.asObject.isSome = true → v'.asObject.isSome = true
  choices : List.Forall₂ Follows ((choices v).getD []) ((choices v').getD [])

theorem forall₂_follows_refl (cs : List Json) : List.Forall₂ Follows cs cs := List.forall₂_same.mpr fun c _ => .refl c

theorem Reshapes.refl (v : Json) : Reshapes v v := ⟨le_max_left _ _, id, forall₂_follows_refl _⟩

theorem forall₂_follows_trans {as bs cs : List Json} (h : List.Forall₂ Follows as bs) (h' : List.Forall₂ Follows bs cs) :
    List.Forall₂ Follows as cs := by
  induction h generalizing cs with
  | nil => exact h'
  | cons hab _ ih =>
    cases h' with
    | cons hbc htail => exact .cons (hab.trans hbc) (ih htail)

theorem Reshapes.trans {a b c : Json} (h : Reshapes a b) (h' : Reshapes b c) : Reshapes a c where
  depth := by
    have := h.depth
    have := h'.depth
    omega
  isObject := fun ha => h'.isObject (h.isObject ha)
  choices := forall₂_follows_trans h.choices h'.choices

/-! ### Values and documents -/

theorem get_normal (v : Json) (key : Text) : v.normal.get key = (v.get key).map normal := by
  cases v with
  | object fields => exact getField_normalFields fields key
  | null | bool b | number n | string s | array items => rfl

theorem normalItems_eq (items : List Json) : normalItems items = items.map normal := by
  induction items with
  | nil => rfl
  | cons item items ih => rw [normalItems, ih, List.map_cons]

theorem asStr_normal (v : Json) : v.normal.asStr = v.asStr := by cases v <;> rfl

theorem asArray_normal (v : Json) : v.normal.asArray = v.asArray.map (List.map normal) := by
  cases v with
  | array items => exact congrArg some (normalItems_eq items)
  | null | bool b | number n | string s | object fields => rfl

theorem decodeU64_normal (v : Json) : decodeU64 v.normal = decodeU64 v := by cases v <;> rfl

theorem isNull_normal (v : Json) : isNull v.normal = isNull v := by cases v <;> rfl

theorem choices_normal (v : Json) : choices v.normal = (choices v).map (List.map normal) := by
  unfold choices
  rw [get_normal]
  cases v.get Key.choices with
  | none => rfl
  | some u => exact asArray_normal u

theorem carries_normal (delta : Json) : carries delta.normal = carries delta := by
  unfold carries
  simp only [get_normal]
  congr 1
  · congr 1
    · cases delta.get Key.content with
      | none => rfl
      | some u => simp [asStr_normal]
    · cases delta.get Key.toolCalls with
      | none => rfl
      | some u => simp [asArray_normal]
  · simp

theorem hasFinishReason_normal (c : Json) : hasFinishReason c.normal = hasFinishReason c := by
  unfold hasFinishReason
  rw [get_normal]
  cases c.get Key.finishReason with
  | none => rfl
  | some u => simp [isNull_normal]

theorem choiceIndex_normal (c : Json) : choiceIndex c.normal = choiceIndex c := by
  unfold choiceIndex
  rw [get_normal]
  cases c.get Key.index with
  | none => rfl
  | some u => exact decodeU64_normal u

theorem follows_normal (c : Json) : Follows c c.normal where
  index := choiceIndex_normal c
  useful := by
    have hdelta : (c.normal.get Key.delta).any carries = (c.get Key.delta).any carries := by
      rw [get_normal]
      cases c.get Key.delta with
      | none => rfl
      | some u => exact carries_normal u
    unfold isUseful
    rw [hdelta, hasFinishReason_normal]
    exact id

theorem reshapes_normal (v : Json) : Reshapes v v.normal where
  depth := le_max_of_le_left (depth_normal_le v)
  isObject := by cases v <;> exact id
  choices := by
    rw [choices_normal]
    cases choices v with
    | none => exact .nil
    | some cs =>
      rw [Option.map_some, Option.getD_some, Option.getD_some, List.forall₂_map_right_iff]
      exact List.forall₂_same.mpr fun c _ => follows_normal c

/-! ### String values -/

theorem get_blank (v : Json) (key : Text) : v.blank.get key = (v.get key).map blank := by
  cases v with
  | object fields => exact getField_blankFields fields key
  | null | bool b | number n | string s | array items => rfl

theorem blankItems_eq (items : List Json) : blankItems items = items.map blank := by
  induction items with
  | nil => rfl
  | cons item items ih => rw [blankItems, ih, List.map_cons]

theorem choices_blank (v : Json) : choices v.blank = (choices v).map (List.map blank) := by
  unfold choices
  rw [get_blank]
  cases v.get Key.choices with
  | none => rfl
  | some u =>
    cases u with
    | array items => exact congrArg some (blankItems_eq items)
    | null | bool b | number n | string s | object fields => rfl

theorem choiceIndex_blank (c : Json) : choiceIndex c.blank = choiceIndex c := by
  unfold choiceIndex
  rw [get_blank]
  cases c.get Key.index with
  | none => rfl
  | some u => cases u <;> rfl

theorem isUseful_blank (c : Json) : isUseful c.blank = isUseful c := by
  have hcarries : ∀ delta : Json, carries delta.blank = carries delta := by
    intro delta
    unfold carries
    simp only [get_blank, Option.isSome_map]
    congr 2
    · cases delta.get Key.content with
      | none => rfl
      | some u => cases u <;> rfl
    · cases delta.get Key.toolCalls with
      | none => rfl
      | some u => cases u <;> rfl
  unfold isUseful hasFinishReason
  rw [get_blank, get_blank]
  congr 1
  · cases c.get Key.delta with
    | none => rfl
    | some u => exact hcarries u
  · cases c.get Key.finishReason with
    | none => rfl
    | some u => cases u <;> rfl

theorem follows_of_blank {c c' : Json} (h : c'.blank = c.blank) : Follows c c' where
  index := by rw [← choiceIndex_blank c', h, choiceIndex_blank]
  useful := by
    rw [← isUseful_blank c', h, isUseful_blank]
    exact id

theorem reshapes_of_blank {v v' : Json} (h : v'.blank = v.blank) : Reshapes v v' where
  depth := by
    rw [← depth_blank v', h, depth_blank]
    exact le_max_left _ _
  isObject := by
    have hblank : ∀ u : Json, u.blank.asObject.isSome = u.asObject.isSome := by
      intro u
      cases u <;> rfl
    rw [← hblank v', h, hblank]
    exact id
  choices := by
    have hchoices : ((choices v').getD []).map blank = ((choices v).getD []).map blank := by
      have hmap : ∀ u : Json, ((choices u).getD []).map blank = (choices u.blank).getD [] := by
        intro u
        rw [choices_blank]
        cases choices u <;> rfl
      rw [hmap, hmap, h]
    generalize (choices v).getD [] = cs at hchoices ⊢
    generalize (choices v').getD [] = cs' at hchoices ⊢
    induction cs generalizing cs' with
    | nil =>
      rw [List.map_nil, List.map_eq_nil_iff] at hchoices
      rw [hchoices]
      exact .nil
    | cons c cs ih =>
      cases cs' with
      | nil => simp at hchoices
      | cons c' cs' =>
        rw [List.map_cons, List.map_cons, List.cons.injEq] at hchoices
        exact .cons (follows_of_blank hchoices.1) (ih cs' hchoices.2)

/-! ### Edits -/

theorem get_setField (name : Text) (value : Json) {fields : List (Text × Json)} :
    (Streaming.setField name value (object fields)).get name = some value := getField_insertField name value fields

theorem get_setField_of_ne {name key : Text} (h : name ≠ key) (value : Json) (v : Json) :
    (Streaming.setField name value v).get key = v.get key := by
  cases v with
  | object fields => exact getField_insertField_of_ne h value fields
  | null | bool b | number n | string s | array items => rfl

theorem depth_setField_le (name : Text) (value : Json) (v : Json) :
    (Streaming.setField name value v).depth ≤ max v.depth (value.depth + 1) := by
  cases v with
  | object fields =>
    have := fieldsDepth_insertField_le name value fields
    simp only [Streaming.setField, depth]
    omega
  | null | bool b | number n | string s | array items => exact le_max_left _ _

private theorem choiceKeys_ne : Key.delta ≠ Key.index ∧ Key.delta ≠ Key.finishReason ∧ Key.finishReason ≠ Key.index ∧
    Key.finishReason ≠ Key.delta := by decide

/-- A choice with another delta. -/
theorem follows_setDelta {choice delta delta' : Json} (hdelta : choice.get Key.delta = some delta)
    (h : carries delta = true → carries delta' = true) : Follows choice (Streaming.setField Key.delta delta' choice) where
  index := by rw [choiceIndex, get_setField_of_ne choiceKeys_ne.1, choiceIndex]
  useful := by
    unfold isUseful hasFinishReason
    rw [get_setField_of_ne choiceKeys_ne.2.1, hdelta]
    cases choice with
    | object fields =>
      rw [get_setField, Option.any_some, Option.any_some, Bool.or_eq_true, Bool.or_eq_true]
      exact Or.imp_left h
    | null | bool b | number n | string s | array items => cases hdelta

/-- A choice with another finish reason. -/
theorem follows_setFinish (choice : Json) (reason : Text) :
    Follows choice (Streaming.setField Key.finishReason (string reason) choice) where
  index := by rw [choiceIndex, get_setField_of_ne choiceKeys_ne.2.2.1, choiceIndex]
  useful := by
    cases choice with
    | object fields =>
      unfold isUseful hasFinishReason
      rw [get_setField]
      simp [isNull]
    | null | bool b | number n | string s | array items => exact id

theorem depth_firstChoice {v choice : Json} (h : firstChoice v = some choice) : choice.depth + 2 ≤ v.depth := by
  simp only [firstChoice, choices, Option.bind_eq_some_iff] at h
  obtain ⟨items, ⟨u, hu, hitems⟩, hhead⟩ := h
  cases u with
  | array items' =>
    cases hitems
    have hlt := depth_lt_of_get hu
    have hle := itemsDepth_le.mp le_rfl choice (List.mem_of_mem_head? hhead)
    rw [depth] at hlt
    omega
  | null | bool b | number n | string s | object fields => cases hitems

theorem reshapes_setFirstChoice {v choice choice' : Json} (hfirst : firstChoice v = some choice)
    (hdepth : choice'.depth + 2 ≤ max v.depth insertedDepth) (h : Follows choice choice') :
    Reshapes v (setFirstChoice choice' v) := by
  unfold firstChoice at hfirst
  rw [Option.bind_eq_some_iff] at hfirst
  obtain ⟨items, hitems, hhead⟩ := hfirst
  cases items with
  | nil => cases hhead
  | cons first rest =>
    cases hhead
    cases v with
    | object fields =>
      have hset : setFirstChoice choice' (object fields) =
          object (insertField Key.choices (array (choice' :: rest)) fields) := by
        unfold setFirstChoice
        simp only [hitems]
      rw [hset]
      have harray : getField fields Key.choices = some (array (choice :: rest)) := by
        rw [choices_object, Option.bind_eq_some_iff] at hitems
        obtain ⟨u, hu, harray⟩ := hitems
        cases u with
        | array items =>
          cases harray
          exact hu
        | null | bool b | number n | string s | object fields => cases harray
      refine ⟨?_, fun _ => rfl, ?_⟩
      · have hinsert := fieldsDepth_insertField_le Key.choices (array (choice' :: rest)) fields
        have hold := depth_le_of_getField harray
        simp only [depth, itemsDepth] at hold hinsert hdepth ⊢
        omega
      · rw [hitems, choices_object, getField_insertField]
        exact .cons h (forall₂_follows_refl rest)
    | null | bool b | number n | string s | array items => cases hitems

/-! ### Fields of reasoning with other names -/

/-- The fields of a delta that no stage of reasoning touches. -/
def IsKept (key : Text) : Prop :=
  key ≠ "reasoning".toList ∧ key ≠ Key.reasoningContent ∧ key ≠ "reasoning_details".toList

theorem isKept_fields : IsKept Key.content ∧ IsKept Key.toolCalls ∧ IsKept Key.role := by
  unfold IsKept
  decide

theorem getField_insertReasoning {key : Text} (h : IsKept key) (text : Text) (obj : List (Text × Json)) :
    getField (insertField Key.reasoningContent (string text) obj) key = getField obj key :=
  getField_insertField_of_ne h.2.1.symm _ _

theorem fieldsDepth_insertString_le (key text : Text) (obj : List (Text × Json)) :
    fieldsDepth (insertField key (string text) obj) ≤ fieldsDepth obj := by
  have hinsert := fieldsDepth_insertField_le key (string text) obj
  have hstring : (string text).depth = 0 := by simp [depth]
  omega

theorem convertReasoningField_spec (obj : List (Text × Json)) :
    (∀ key, IsKept key → getField (convertReasoningField obj).2 key = getField obj key) ∧
      fieldsDepth (convertReasoningField obj).2 ≤ fieldsDepth obj := by
  have hremove := fieldsDepth_removeField_le "reasoning".toList obj
  have hget : ∀ key, IsKept key → getField (removeField "reasoning".toList obj) key = getField obj key :=
    fun key hkey => getField_removeField_of_ne hkey.1.symm obj
  unfold convertReasoningField
  split
  · exact ⟨fun _ _ => rfl, le_rfl⟩
  · dsimp only
    split
    · split
      · refine ⟨fun key hkey => ?_, (fieldsDepth_insertString_le _ _ _).trans hremove⟩
        rw [getField_insertReasoning hkey, hget key hkey]
      · exact ⟨hget, hremove⟩
    · exact ⟨hget, hremove⟩

theorem mergeReasoningDetails_spec (obj : List (Text × Json)) (details : Json) :
    (∀ key, IsKept key → getField (mergeReasoningDetails obj details) key = getField obj key) ∧
      fieldsDepth (mergeReasoningDetails obj details) ≤ fieldsDepth obj := by
  unfold mergeReasoningDetails
  split
  · exact ⟨fun _ _ => rfl, le_rfl⟩
  · dsimp only
    split
    · exact ⟨fun _ _ => rfl, le_rfl⟩
    · split
      · exact ⟨fun key hkey => getField_insertReasoning hkey _ _, fieldsDepth_insertString_le _ _ _⟩
      · exact ⟨fun key hkey => getField_insertReasoning hkey _ _, fieldsDepth_insertString_le _ _ _⟩

theorem applyReasoningFields_spec (obj : List (Text × Json)) :
    (∀ key, IsKept key → getField (applyReasoningFields obj) key = getField obj key) ∧
      fieldsDepth (applyReasoningFields obj) ≤ fieldsDepth obj := by
  obtain ⟨hget, hdepth⟩ := convertReasoningField_spec obj
  unfold applyReasoningFields
  dsimp only
  generalize convertReasoningField obj = converted at hget hdepth ⊢
  split
  · exact ⟨hget, hdepth⟩
  · rename_i details _
    have hremove := fieldsDepth_removeField_le "reasoning_details".toList converted.2
    have hget' : ∀ key, IsKept key → getField (removeField "reasoning_details".toList converted.2) key = getField obj key :=
      fun key hkey => (getField_removeField_of_ne hkey.2.2.symm _).trans (hget key hkey)
    split
    · exact ⟨hget', hremove.trans hdepth⟩
    · obtain ⟨hmerge, hmergeDepth⟩ := mergeReasoningDetails_spec (removeField "reasoning_details".toList converted.2) details
      exact ⟨fun key hkey => (hmerge key hkey).trans (hget' key hkey), hmergeDepth.trans (hremove.trans hdepth)⟩

theorem carries_congr {delta delta' : Json} (h : ∀ key, IsKept key → delta'.get key = delta.get key) :
    carries delta' = carries delta := by
  unfold carries
  rw [h _ isKept_fields.1, h _ isKept_fields.2.1, h _ isKept_fields.2.2]

theorem reshapes_normalizeNonstandard {payload out : Text} {v : Json} (h : fromStr payload = some v)
    (hout : normalizeNonstandardReasoningFields payload = some out) : ∃ v', read out = some v' ∧ Reshapes v v' := by
  unfold normalizeNonstandardReasoningFields at hout
  split at hout
  · rw [h, Option.bind_some, Option.bind_eq_some_iff] at hout
    obtain ⟨choice, hchoice, hout⟩ := hout
    rw [Option.bind_eq_some_iff] at hout
    obtain ⟨delta, hdelta, hout⟩ := hout
    rw [Option.map_eq_some_iff] at hout
    obtain ⟨obj, hobj, rfl⟩ := hout
    refine ⟨_, read_write _, ?_⟩
    obtain ⟨hget, hdepth⟩ := applyReasoningFields_spec obj
    cases delta with
    | object fields =>
      cases hobj
      have hinner := depth_lt_of_get hdelta
      have houter := depth_firstChoice hchoice
      refine reshapes_setFirstChoice hchoice ?_ (follows_setDelta hdelta ?_)
      · have hset := depth_setField_le Key.delta (object (applyReasoningFields obj)) choice
        simp only [depth] at hset hinner ⊢
        omega
      · rw [@carries_congr (object obj) (object (applyReasoningFields obj)) hget]
        exact id
    | null | bool b | number n | string s | array items => cases hobj
  · cases hout

end OpenProxy.Streaming
