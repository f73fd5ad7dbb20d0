import OpenProxy.Streaming.Restoration

/-!
# Sanitized chunks

The model of `sanitize_streaming_chunk` of `response_sanitizer.rs`: the chunk is given the name of the requested model, and
loses what tells of the upstream and its reasoning.
-/

namespace OpenProxy.Streaming

open Json

def Key.model : Text := "model".toList

def Key.systemFingerprint : Text := "system_fingerprint".toList

def Key.serviceTier : Text := "service_tier".toList

/-- `is_reasoning_or_internal_key`. -/
def isReasoningOrInternalKey (k : Text) : Bool :=
  "reasoning".toList.isPrefixOf k || k == "thought".toList || k == "thinking".toList || k == Key.systemFingerprint ||
    k == Key.serviceTier

/-- A choice without the reasoning in its delta, if the client has a use for it. -/
def sanitizeChoice (choice : Json) : Option Json :=
  match deltaFields choice with
  | none => some choice
  | some fields =>
    let fields := fields.filter fun field => !isReasoningOrInternalKey field.1
    let hasUseful := (getField fields Key.content).isSome || (getField fields Key.toolCalls).isSome ||
      (getField fields Key.role).isSome
    if !hasUseful && !hasFinishReason choice then none
    else some (Streaming.setField Key.delta (object fields) choice)

/-- `sanitize_streaming_chunk`. -/
def sanitizeStreamingChunk (jsonStr requestedModel : Text) : Option Text :=
  match fromStr jsonStr with
  | some (object obj) =>
    let obj := insertField Key.model (string requestedModel) obj
    let obj := removeField Key.serviceTier (removeField Key.systemFingerprint obj)
    match choices (object obj) with
    | none => some (write (object obj))
    | some choicesArr =>
      let retained := choicesArr.filterMap sanitizeChoice
      if !choicesArr.isEmpty && retained.isEmpty then none
      else some (write (object (insertField Key.choices (array retained) obj)))
  | _ => some jsonStr

/-- The frame says nothing of the upstream: it names the requested model, if it names one, and its deltas have no key of
reasoning. -/
structure Sanitized (requestedModel : Text) (v : Json) : Prop where
  model : ∀ m, v.get Key.model = some m → m = string requestedModel
  systemFingerprint : v.get Key.systemFingerprint = none
  serviceTier : v.get Key.serviceTier = none
  delta : ∀ choice ∈ (choices v).getD [], ∀ fields, deltaFields choice = some fields →
    ∀ field ∈ fields, isReasoningOrInternalKey field.1 = false

private theorem chunkKeys_ne : Key.systemFingerprint ≠ Key.model ∧ Key.serviceTier ≠ Key.model ∧ Key.choices ≠ Key.model ∧
    Key.serviceTier ≠ Key.systemFingerprint ∧ Key.choices ≠ Key.systemFingerprint ∧ Key.choices ≠ Key.serviceTier := by
  decide

theorem deltaFields_sanitizeChoice {choice choice' : Json} (h : sanitizeChoice choice = some choice')
    {fields : List (Text × Json)} (hfields : deltaFields choice' = some fields) :
    ∀ field ∈ fields, isReasoningOrInternalKey field.1 = false := by
  unfold sanitizeChoice at h
  split at h
  · rename_i hnone
    cases h
    rw [hnone] at hfields
    cases hfields
  · rename_i old hold
    dsimp only at h
    split at h
    · cases h
    · cases h
      have hdelta := deltaFields_eq_some hold
      cases choice with
      | object outer =>
        rw [deltaFields, get_setField, Option.bind_some, asObject, Option.some.injEq] at hfields
        rw [← hfields]
        intro field hfield
        simpa using (List.mem_filter.mp hfield).2
      | null | bool b | number n | string s | array items => cases hdelta

/-- What is sent for a payload that can be read says nothing of the upstream. -/
theorem sanitized_of_sanitizeStreamingChunk {payload out model : Text} {obj : List (Text × Json)}
    (hread : fromStr payload = some (object obj)) (h : sanitizeStreamingChunk payload model = some out) :
    ∃ v, read out = some v ∧ Sanitized model v := by
  obtain ⟨hfm, htm, hcm, htf, hcf, hct⟩ := chunkKeys_ne
  unfold sanitizeStreamingChunk at h
  rw [hread] at h
  dsimp only at h
  generalize hedited : removeField Key.serviceTier (removeField Key.systemFingerprint
    (insertField Key.model (string model) obj)) = edited at h
  have hmodel : getField edited Key.model = some (string model) := by
    rw [← hedited, getField_removeField_of_ne htm, getField_removeField_of_ne hfm, getField_insertField]
  have hfingerprint : getField edited Key.systemFingerprint = none := by
    rw [← hedited, getField_removeField_of_ne htf, getField_removeField]
  have htier : getField edited Key.serviceTier = none := by rw [← hedited, getField_removeField]
  split at h
  · rename_i hnone
    cases h
    refine ⟨_, read_write _, ?_, hfingerprint, htier, by simp [hnone]⟩
    intro m hm
    rw [get_object, hmodel] at hm
    cases hm
    rfl
  · rename_i choicesArr _
    split at h
    · cases h
    · cases h
      refine ⟨_, read_write _, ?_, ?_, ?_, ?_⟩
      · intro m hm
        rw [get_object, getField_insertField_of_ne hcm, hmodel] at hm
        cases hm
        rfl
      · rw [get_object, getField_insertField_of_ne hcf, hfingerprint]
      · rw [get_object, getField_insertField_of_ne hct, htier]
      · rw [choices_object, getField_insertField]
        intro choice' hchoice' fields hfields
        obtain ⟨choice, -, hsome⟩ := List.mem_filterMap.mp hchoice'
        exact deltaFields_sanitizeChoice hsome hfields

/-! ### What is kept -/

theorem getField_filter {p : Text × Json → Bool} {key : Text} (h : ∀ v, p (key, v) = true) (fields : List (Text × Json)) :
    getField (fields.filter p) key = getField fields key := by
  have hsame : (fields.filter p).filter (fun field => field.1 == key) = fields.filter fun field => field.1 == key := by
    rw [List.filter_filter]
    refine List.filter_congr fun field _ => ?_
    by_cases hkey : field.1 = key
    · subst hkey
      simp [h]
    · simp [hkey]
  rw [getField_eq_getLast?, getField_eq_getLast?, hsame]

/-- What a delta carries is not taken from it. -/
theorem carries_filter (fields : List (Text × Json)) :
    carries (object (fields.filter fun field => !isReasoningOrInternalKey field.1)) = carries (object fields) := by
  have hkept : ∀ key, isReasoningOrInternalKey key = false →
      getField (fields.filter fun field => !isReasoningOrInternalKey field.1) key = getField fields key :=
    fun key hkey => getField_filter (by simp [hkey]) fields
  have hnames : isReasoningOrInternalKey Key.content = false ∧ isReasoningOrInternalKey Key.toolCalls = false ∧
      isReasoningOrInternalKey Key.role = false := by decide
  unfold carries
  simp only [get_object]
  rw [hkept _ hnames.1, hkept _ hnames.2.1, hkept _ hnames.2.2]

/-- A choice that is kept is as useful as it was. -/
theorem follows_sanitizeChoice {choice choice' : Json} (h : sanitizeChoice choice = some choice') :
    Follows choice choice' := by
  unfold sanitizeChoice at h
  split at h
  · cases h
    exact .refl _
  · rename_i fields hfields
    dsimp only at h
    split at h
    · cases h
    · cases h
      refine follows_setDelta (deltaFields_eq_some hfields) ?_
      rw [carries_filter]
      exact id

/-- A choice that has something for the client is kept. -/
theorem isSome_sanitizeChoice {choice : Json} (h : isUseful choice = true) : (sanitizeChoice choice).isSome = true := by
  unfold sanitizeChoice
  split
  · rfl
  · rename_i fields hfields
    have hcarries := carries_filter fields
    rw [isUseful, Bool.or_eq_true, deltaFields_eq_some hfields, Option.any_some, ← hcarries] at h
    dsimp only
    generalize fields.filter (fun field => !isReasoningOrInternalKey field.1) = kept at h ⊢
    split
    · rename_i hdropped
      rw [Bool.and_eq_true, Bool.not_eq_true', Bool.not_eq_true'] at hdropped
      simp only [Bool.or_eq_false_iff] at hdropped
      obtain ⟨⟨⟨hc, ht⟩, hr⟩, hfinish⟩ := hdropped
      rcases h with hcarries | hfin
      · simp only [carries, get_object, Bool.or_eq_true] at hcarries
        rcases hcarries with (hcontent | hcalls) | hrole
        · cases hget : getField kept Key.content with
          | none => simp [hget] at hcontent
          | some v => simp [hget] at hc
        · cases hget : getField kept Key.toolCalls with
          | none => simp [hget] at hcalls
          | some v => simp [hget] at ht
        · simp [hrole] at hr
      · simp [hfin] at hfinish
    · rfl

/-- A choice that has something for the client is in the chunk that is sent. -/
theorem exists_sanitizeStreamingChunk {payload : Text} {v choice : Json} (model : Text) (hread : fromStr payload = some v)
    (hchoice : choice ∈ (choices v).getD []) (huseful : isUseful choice = true) :
    ∃ out v' choice', sanitizeStreamingChunk payload model = some out ∧ read out = some v' ∧
      choice' ∈ (choices v').getD [] ∧ Follows choice choice' := by
  obtain ⟨hfm, htm, hcm, htf, hcf, hct⟩ := chunkKeys_ne
  unfold sanitizeStreamingChunk
  rw [hread]
  split
  · rename_i obj heq
    cases heq
    dsimp only
    have hsame : choices (object (removeField Key.serviceTier (removeField Key.systemFingerprint
        (insertField Key.model (string model) obj)))) = choices (object obj) := by
      rw [choices_object, getField_removeField_of_ne hct.symm, getField_removeField_of_ne hcf.symm,
        getField_insertField_of_ne hcm.symm, choices_object]
    rw [hsame]
    split
    · rename_i hnone
      rw [hnone] at hchoice
      cases hchoice
    · rename_i choicesArr harr
      rw [harr, Option.getD_some] at hchoice
      obtain ⟨choice', hchoice'⟩ := Option.isSome_iff_exists.mp (isSome_sanitizeChoice huseful)
      have hmem : choice' ∈ choicesArr.filterMap sanitizeChoice := List.mem_filterMap.mpr ⟨choice, hchoice, hchoice'⟩
      rw [if_neg]
      · refine ⟨_, _, choice', rfl, read_write _, ?_, follows_sanitizeChoice hchoice'⟩
        rw [choices_object, getField_insertField]
        exact hmem
      · simp only [Bool.and_eq_true, List.isEmpty_iff, not_and]
        intro _ hnil
        rw [hnil] at hmem
        cases hmem
  · rename_i hnot
    cases v with
    | object fields => exact absurd rfl (hnot fields)
    | null | bool b | number n | string s | array items => cases hchoice

end OpenProxy.Streaming
