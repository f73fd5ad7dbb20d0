import OpenProxy.Streaming.Reshape

/-!
# Chunks that are read as structures

The normalizer reads a chunk as a structure, changes the content and the tool calls of its first choice and writes the
structure.  To read and write alone is to reshape the chunk (`FastChunk.reshapes_encode`), and so are the changes
(`reshapes_normalizeChunk`).
-/

namespace OpenProxy.Streaming

open Json Inline Think

/-! ### Optional fields -/

theorem getField_encodeOptional {α : Type} (encode : α → Json) (key : Text) (value : Option α) :
    getField (encodeOptional encode key value) key = value.map encode := by
  cases value with
  | none => rfl
  | some a => simp [encodeOptional, getField_singleton]

theorem getField_encodeOptional_of_ne {α : Type} {key key' : Text} (h : key' ≠ key) (encode : α → Json)
    (value : Option α) : getField (encodeOptional encode key' value) key = none := by
  cases value with
  | none => rfl
  | some a => simp [encodeOptional, getField_singleton, h]

theorem mem_encodeOptional {α : Type} {encode : α → Json} {key : Text} {value : Option α} {field : Text × Json}
    (h : field ∈ encodeOptional encode key value) : ∃ a, value = some a ∧ field = (key, encode a) := by
  cases value with
  | none => cases h
  | some a => exact ⟨a, rfl, List.mem_singleton.mp h⟩

/-- A member that has been decoded was not deeper than the object. -/
theorem depth_of_getField_le {fields : List (Text × Json)} {key : Text} {v : Json} {d : Nat}
    (h : ∀ field ∈ fields, field.2.depth ≤ d) (hget : getField fields key = some v) : v.depth ≤ d :=
  h _ (mem_of_getField hget)

theorem depth_extraFields_le {known : List Text} {fields : List (Text × Json)} {d : Nat}
    (h : ∀ field ∈ fields, field.2.depth ≤ d) : ∀ field ∈ extraFields known fields, field.2.depth ≤ d := by
  intro field hfield
  obtain ⟨v, hv, heq⟩ := mem_extraFields hfield
  rw [heq]
  exact (depth_normal_le v).trans (h _ hv)

/-- The items of a list that has been decoded, written again. -/
theorem depth_decodeList_le {α : Type} {decode : Json → Option α} {encode : α → Json}
    (h : ∀ v a, decode v = some a → (encode a).depth ≤ v.depth) {v : Json} {as : List α}
    (hlist : decodeList decode v = some as) : (array (as.map encode)).depth ≤ v.depth := by
  rw [decodeList, Option.bind_eq_some_iff] at hlist
  obtain ⟨items, hitems, hmap⟩ := hlist
  cases v with
  | array _ =>
    cases hitems
    rw [depth, depth, Nat.add_le_add_iff_right]
    induction items generalizing as with
    | nil =>
      cases hmap
      exact le_rfl
    | cons item items ih =>
      simp only [List.mapM_cons, Option.bind_eq_bind, Option.bind_eq_some_iff] at hmap
      obtain ⟨a, ha, rest, hrest, hcons⟩ := hmap
      cases hcons
      rw [List.map_cons, itemsDepth, itemsDepth]
      exact max_le_max (h item a ha) (ih hrest)
  | null | bool b | number n | string s | object fields => cases hitems

/-! ### Reading and writing -/

theorem asObject_eq_some {v : Json} {fields : List (Text × Json)} (h : v.asObject = some fields) :
    v = object fields := by
  cases v with
  | object fields' =>
    cases h
    rfl
  | null | bool b | number n | string s | array items => cases h

/-- An object is as deep as its members make it. -/
private theorem depth_members {fields : List (Text × Json)} : ∀ field ∈ fields, field.2.depth ≤ fieldsDepth fields :=
  fieldsDepth_le.mp le_rfl

theorem FastFunction.depth_encode {v : Json} {f : FastFunction} (h : FastFunction.decode v = some f) :
    f.encode.depth ≤ v.depth := by
  simp only [FastFunction.decode, Option.bind_eq_bind, Option.bind_eq_some_iff] at h
  obtain ⟨fields, hfields, arguments, -, h⟩ := h
  cases h
  rw [asObject_eq_some hfields, depth, encode, depth_object_le]
  intro field hfield
  rcases List.mem_append.mp hfield with hfield | hfield
  · obtain ⟨a, -, rfl⟩ := mem_encodeOptional hfield
    simp [depth]
  · exact depth_extraFields_le depth_members field hfield

theorem FastToolCall.depth_encode (v : Json) (t : FastToolCall) (h : FastToolCall.decode v = some t) :
    t.encode.depth ≤ v.depth := by
  simp only [FastToolCall.decode, Option.bind_eq_bind, Option.bind_eq_some_iff] at h
  obtain ⟨fields, hfields, index, -, function, hfunction, h⟩ := h
  cases h
  rw [asObject_eq_some hfields, depth, encode, depth_object_le]
  intro field hfield
  rcases List.mem_append.mp hfield with hfield | hfield
  · rcases List.mem_append.mp hfield with hfield | hfield
    · obtain ⟨a, -, rfl⟩ := mem_encodeOptional hfield
      simp [depth]
    · obtain ⟨f, hf, rfl⟩ := mem_encodeOptional hfield
      rcases optionalField_eq_some hfunction with ⟨hnone, -⟩ | ⟨w, f', hw, hdecode, hsome⟩
      · rw [hnone] at hf
        cases hf
      · rw [hsome, Option.some.injEq] at hf
        subst hf
        exact (FastFunction.depth_encode hdecode).trans (depth_of_getField_le depth_members hw)
  · exact depth_extraFields_le depth_members field hfield

theorem FastDelta.depth_encode_le {delta : FastDelta} {d : Nat} : delta.encode.depth ≤ d + 1 ↔
    (∀ calls, delta.toolCalls = some calls → (array (calls.map FastToolCall.encode)).depth ≤ d) ∧
      ∀ field ∈ delta.extra, field.2.depth ≤ d := by
  rw [encode, depth_object_le]
  constructor
  · intro h
    refine ⟨fun calls hcalls => ?_, fun field hfield => h field (List.mem_append_right _ hfield)⟩
    refine h (Key.toolCalls, array (calls.map FastToolCall.encode)) ?_
    simp [hcalls, encodeOptional]
  · rintro ⟨hcalls, hextra⟩ field hfield
    rcases List.mem_append.mp hfield with hfield | hfield
    · rcases List.mem_append.mp hfield with hfield | hfield
      · rcases List.mem_append.mp hfield with hfield | hfield
        · obtain ⟨a, -, rfl⟩ := mem_encodeOptional hfield
          simp [depth]
        · obtain ⟨a, -, rfl⟩ := mem_encodeOptional hfield
          simp [depth]
      · obtain ⟨calls, heq, rfl⟩ := mem_encodeOptional hfield
        exact hcalls calls heq
    · exact hextra field hfield

private theorem keys_ne : Key.content ≠ Key.reasoningContent ∧ Key.content ≠ Key.toolCalls ∧
    Key.toolCalls ≠ Key.reasoningContent ∧ Key.role ∉ [Key.content, Key.reasoningContent, Key.toolCalls] := by decide

/-- The members without a field of their own do not have the name of a field. -/
structure FastDelta.Proper (delta : FastDelta) : Prop where
  content : getField delta.extra Key.content = none
  toolCalls : getField delta.extra Key.toolCalls = none

/-- What a delta carries when it is written. -/
theorem FastDelta.carries_encode {delta : FastDelta} (h : delta.Proper) :
    carries delta.encode = (delta.content.isSome || delta.toolCalls.isSome || (getField delta.extra Key.role).isSome) := by
  obtain ⟨hcr, hct, htr, hrole⟩ := keys_ne
  simp only [List.mem_cons, List.not_mem_nil, or_false, not_or] at hrole
  have hcontent : delta.encode.get Key.content = delta.content.map string := by
    rw [encode, get_object, getField_append, getField_append, getField_append, h.content, getField_encodeOptional,
      getField_encodeOptional_of_ne hcr.symm, getField_encodeOptional_of_ne hct.symm]
    simp
  have hcalls : delta.encode.get Key.toolCalls =
      delta.toolCalls.map fun calls => array (calls.map FastToolCall.encode) := by
    rw [encode, get_object, getField_append, getField_append, getField_append, h.toolCalls, getField_encodeOptional,
      getField_encodeOptional_of_ne htr.symm, getField_encodeOptional_of_ne hct]
    simp
  have hrole' : delta.encode.get Key.role = getField delta.extra Key.role := by
    rw [encode, get_object, getField_append, getField_append, getField_append,
      getField_encodeOptional_of_ne (Ne.symm hrole.1), getField_encodeOptional_of_ne (Ne.symm hrole.2.1),
      getField_encodeOptional_of_ne (Ne.symm hrole.2.2)]
    simp
  unfold carries
  rw [hcontent, hcalls, hrole']
  congr 2
  · cases delta.content <;> rfl
  · cases delta.toolCalls <;> rfl

theorem FastDelta.decode_spec {v : Json} {delta : FastDelta} (h : FastDelta.decode v = some delta) :
    delta.Proper ∧ delta.encode.depth ≤ v.depth ∧ (carries v = true → carries delta.encode = true) := by
  simp only [FastDelta.decode, Option.bind_eq_bind, Option.bind_eq_some_iff] at h
  obtain ⟨fields, hfields, content, hcontent, reasoning, -, calls, hcalls, h⟩ := h
  cases h
  rw [asObject_eq_some hfields]
  have hproper : FastDelta.Proper ⟨content, reasoning, calls,
      extraFields [Key.content, Key.reasoningContent, Key.toolCalls] fields⟩ :=
    ⟨getField_extraFields (by simp) fields, getField_extraFields (by simp) fields⟩
  refine ⟨hproper, ?_, ?_⟩
  · rw [depth, FastDelta.depth_encode_le]
    refine ⟨fun tcs htcs => ?_, depth_extraFields_le depth_members⟩
    rcases optionalField_eq_some hcalls with ⟨hnone, -⟩ | ⟨w, tcs', hw, hdecode, hsome⟩
    · rw [hnone] at htcs
      cases htcs
    · rw [hsome, Option.some.injEq] at htcs
      subst htcs
      exact (depth_decodeList_le FastToolCall.depth_encode hdecode).trans (depth_of_getField_le depth_members hw)
  · rw [FastDelta.carries_encode hproper]
    unfold carries
    simp only [get_object, Bool.or_eq_true]
    rintro ((hc | ht) | hr)
    · -- the content is a text
      refine Or.inl (Or.inl ?_)
      rcases optionalField_eq_some hcontent with ⟨-, hnone | hnull⟩ | ⟨w, c, -, -, hsome⟩
      · simp [hnone] at hc
      · simp [hnull, asStr] at hc
      · simp [hsome]
    · -- the tool calls are a list
      refine Or.inl (Or.inr ?_)
      rcases optionalField_eq_some hcalls with ⟨-, hnone | hnull⟩ | ⟨w, c, -, -, hsome⟩
      · simp [hnone] at ht
      · simp [hnull, asArray] at ht
      · simp [hsome]
    · refine Or.inr ?_
      rw [getField_extraFields_of_not_mem keys_ne.2.2.2, Option.isSome_map]
      exact hr

/-- What a choice is when it is written. -/
theorem FastChoice.get_encode {choice : FastChoice} (h : getField choice.extra Key.delta = none) (key : Text) :
    choice.encode.get key =
      if key = Key.delta then choice.delta.map FastDelta.encode else getField choice.extra key := by
  rw [encode, get_object, getField_append]
  split
  · rename_i heq
    rw [heq, h, getField_encodeOptional, Option.none_or]
  · rename_i hne
    rw [getField_encodeOptional_of_ne (Ne.symm hne), Option.or_none]

theorem FastChoice.decode_spec {v : Json} {choice : FastChoice} (h : FastChoice.decode v = some choice) :
    getField choice.extra Key.delta = none ∧ (∀ delta, choice.delta = some delta → delta.Proper) ∧
      choice.encode.depth ≤ v.depth ∧ Follows v choice.encode := by
  simp only [FastChoice.decode, Option.bind_eq_bind, Option.bind_eq_some_iff] at h
  obtain ⟨fields, hfields, delta, hdelta, h⟩ := h
  cases h
  rw [asObject_eq_some hfields]
  have hextra : getField (extraFields [Key.delta] fields) Key.delta = none := getField_extraFields (by simp) fields
  have hother : ∀ key, key ≠ Key.delta →
      (FastChoice.encode ⟨delta, extraFields [Key.delta] fields⟩).get key = ((object fields).get key).map normal := by
    intro key hkey
    rw [FastChoice.get_encode hextra, if_neg hkey, getField_extraFields_of_not_mem (by simpa using hkey)]
    rfl
  have hnames : Key.index ≠ Key.delta ∧ Key.finishReason ≠ Key.delta := by decide
  refine ⟨hextra, ?_, ?_, ?_, ?_⟩
  · rintro d hd
    obtain rfl : delta = some d := hd
    rcases optionalField_eq_some hdelta with ⟨hnone, -⟩ | ⟨w, d', -, hdecode, hsome⟩
    · cases hnone
    · cases hsome
      exact (FastDelta.decode_spec hdecode).1
  · rw [depth, FastChoice.encode, depth_object_le]
    intro field hfield
    rcases List.mem_append.mp hfield with hfield | hfield
    · obtain ⟨d, hd, rfl⟩ := mem_encodeOptional hfield
      obtain rfl : delta = some d := hd
      rcases optionalField_eq_some hdelta with ⟨hnone, -⟩ | ⟨w, d', hw, hdecode, hsome⟩
      · cases hnone
      · cases hsome
        exact (FastDelta.decode_spec hdecode).2.1.trans (depth_of_getField_le depth_members hw)
    · exact depth_extraFields_le depth_members field hfield
  · unfold choiceIndex
    rw [hother _ hnames.1]
    cases (object fields).get Key.index with
    | none => rfl
    | some u => exact decodeU64_normal u
  · have hfinish : hasFinishReason (FastChoice.encode ⟨delta, extraFields [Key.delta] fields⟩) =
        hasFinishReason (object fields) := by
      rw [← hasFinishReason_normal (object fields)]
      unfold hasFinishReason
      rw [hother _ hnames.2, get_normal]
    unfold isUseful
    rw [hfinish, FastChoice.get_encode hextra, if_pos rfl, Bool.or_eq_true, Bool.or_eq_true]
    refine Or.imp_left ?_
    rcases optionalField_eq_some hdelta with ⟨-, hnone | hnull⟩ | ⟨w, d, hw, hdecode, rfl⟩
    · simp [get_object, hnone]
    · rw [get_object, hnull]
      intro hnever
      simp [carries, Json.get, asObject] at hnever
    · rw [get_object, hw]
      exact (FastDelta.decode_spec hdecode).2.2

/-! ### Changes -/

/-- A delta with other texts: nothing else is different. -/
structure FastDelta.Retexts (delta delta' : FastDelta) : Prop where
  content : delta'.content.isSome = delta.content.isSome
  toolCalls : delta'.toolCalls.isSome = delta.toolCalls.isSome
  calls : ∀ calls', delta'.toolCalls = some calls' → ∃ calls, delta.toolCalls = some calls ∧
    calls'.map (fun call => call.encode.depth) = calls.map fun call => call.encode.depth
  extra : delta'.extra = delta.extra

theorem FastDelta.Retexts.refl (delta : FastDelta) : delta.Retexts delta :=
  ⟨rfl, rfl, fun calls h => ⟨calls, h, rfl⟩, rfl⟩

theorem FastDelta.Retexts.trans {a b c : FastDelta} (h : a.Retexts b) (h' : b.Retexts c) : a.Retexts c where
  content := h'.content.trans h.content
  toolCalls := h'.toolCalls.trans h.toolCalls
  calls := fun calls hcalls => by
    obtain ⟨middle, hmiddle, heq⟩ := h'.calls calls hcalls
    obtain ⟨first, hfirst, heq'⟩ := h.calls middle hmiddle
    exact ⟨first, hfirst, heq.trans heq'⟩
  extra := h'.extra.trans h.extra

theorem FastDelta.retexts_withReasoning (delta : FastDelta) (reasoning : Text) :
    delta.Retexts (delta.withReasoning reasoning).1 := by
  unfold FastDelta.withReasoning
  split
  · exact .refl _
  · exact ⟨rfl, rfl, fun calls h => ⟨calls, h, rfl⟩, rfl⟩

theorem retexts_normalizeChoiceContent (delta : FastDelta) (x : ThinkStreamExtractor) :
    delta.Retexts (normalizeChoiceContent delta x).1.1 := by
  unfold normalizeChoiceContent
  cases hc : delta.content with
  | none => exact .refl _
  | some c =>
    have hset : ∀ (c' : Text) {delta' : FastDelta}, delta.Retexts delta' →
        delta.Retexts { delta' with content := some c' } :=
      fun c' delta' h => ⟨by simp [hc], h.toolCalls, h.calls, h.extra⟩
    dsimp only
    split
    · exact hset [] (.refl _)
    · -- the delta with the reasoning of the nested frame, if that has some
      split
      · refine hset [] ?_
        split
        · exact FastDelta.retexts_withReasoning _ _
        · exact .refl _
      · dsimp only
        refine hset _ ?_
        split
        · split
          · exact FastDelta.retexts_withReasoning _ _
          · exact .refl _
        · refine .trans ?_ (FastDelta.retexts_withReasoning _ _)
          split
          · exact FastDelta.retexts_withReasoning _ _
          · exact .refl _

theorem depth_normalizeToolCall (tc : FastToolCall) (acc : ToolCallAccumulator) :
    (normalizeToolCall tc acc).1.1.encode.depth = tc.encode.depth := by
  unfold normalizeToolCall
  cases hf : tc.function with
  | none => rfl
  | some func =>
    dsimp only
    cases ha : func.arguments with
    | none => rfl
    | some arguments =>
      dsimp only
      split
      · have hstring : ∀ s : Text, (string s).depth = 0 := fun s => by simp [depth]
        have hfunc : ∀ s : Text, (FastFunction.encode { func with arguments := some s }).depth = func.encode.depth := by
          intro s
          simp [FastFunction.encode, encodeOptional, depth, fieldsDepth, ha]
        unfold FastToolCall.encode
        rw [hf]
        cases tc.index <;> simp [encodeOptional, depth, fieldsDepth, hfunc]
      · rfl

theorem depth_normalizeToolCalls (tcs : List FastToolCall) (acc : ToolCallAccumulator) :
    (normalizeToolCalls tcs acc).1.1.map (fun call => call.encode.depth) = tcs.map fun call => call.encode.depth := by
  induction tcs generalizing acc with
  | nil => rfl
  | cons tc tcs ih =>
    unfold normalizeToolCalls
    dsimp only
    rw [List.map_cons, List.map_cons, depth_normalizeToolCall, ih]

theorem retexts_normalizeChoiceToolCalls (delta : FastDelta) (acc : ToolCallAccumulator) :
    delta.Retexts (normalizeChoiceToolCalls delta acc).1.1 := by
  unfold normalizeChoiceToolCalls
  split
  · exact .refl _
  · rename_i tcs htcs
    refine ⟨rfl, by simp [htcs], fun calls hcalls => ?_, rfl⟩
    cases hcalls
    exact ⟨tcs, htcs, depth_normalizeToolCalls tcs acc⟩

private theorem itemsDepth_eq {items items' : List Json} (h : items'.map depth = items.map depth) :
    itemsDepth items' = itemsDepth items := by
  have hmax : ∀ items : List Json, itemsDepth items = (items.map depth).foldr max 0 := by
    intro items
    induction items with
    | nil => rfl
    | cons item items ih => rw [itemsDepth, ih, List.map_cons, List.foldr_cons]
  rw [hmax, hmax, h]

/-- A choice whose delta has other texts. -/
theorem follows_retexts {choice : FastChoice} {delta delta' : FastDelta} (hextra : getField choice.extra Key.delta = none)
    (hdelta : choice.delta = some delta) (hproper : delta.Proper) (h : delta.Retexts delta') :
    Follows choice.encode (FastChoice.encode { choice with delta := some delta' }) ∧
      (FastChoice.encode { choice with delta := some delta' }).depth ≤ choice.encode.depth := by
  have hproper' : delta'.Proper := ⟨by rw [h.extra]; exact hproper.content, by rw [h.extra]; exact hproper.toolCalls⟩
  have hget := FastChoice.get_encode hextra
  have hget' := @FastChoice.get_encode { choice with delta := some delta' } hextra
  have hnames : Key.index ≠ Key.delta ∧ Key.finishReason ≠ Key.delta := by decide
  refine ⟨⟨?_, ?_⟩, ?_⟩
  · unfold choiceIndex
    rw [hget, hget', if_neg hnames.1, if_neg hnames.1]
  · unfold isUseful hasFinishReason
    rw [hget, hget', hget, hget', if_neg hnames.2, if_neg hnames.2, if_pos rfl, if_pos rfl, hdelta, Option.map_some,
      Option.any_some, Option.map_some, Option.any_some, FastDelta.carries_encode hproper,
      FastDelta.carries_encode hproper', h.content, h.toolCalls, h.extra]
    exact id
  · have hdepth : delta'.encode.depth ≤ delta.encode.depth := by
      obtain ⟨d, hd⟩ : ∃ d, delta.encode.depth = d + 1 := ⟨_, by rw [FastDelta.encode, depth]⟩
      obtain ⟨hcalls, hrest⟩ := FastDelta.depth_encode_le.mp hd.le
      rw [hd, FastDelta.depth_encode_le]
      refine ⟨fun calls' hcalls' => ?_, by rw [h.extra]; exact hrest⟩
      obtain ⟨calls, hsome, heq⟩ := h.calls calls' hcalls'
      have hitems : itemsDepth (calls'.map FastToolCall.encode) = itemsDepth (calls.map FastToolCall.encode) := by
        apply itemsDepth_eq
        rw [List.map_map, List.map_map]
        exact heq
      have hold := hcalls calls hsome
      rw [depth] at hold ⊢
      rwa [hitems]
    simp only [FastChoice.encode, encodeOptional, depth, fieldsDepth, hdelta, List.cons_append, List.nil_append]
    omega

/-! ### Chunks -/

theorem choices_encode {fc : FastChunk} (h : getField fc.extra Key.choices = none) :
    choices fc.encode = fc.choices.map fun cs => cs.map FastChoice.encode := by
  rw [FastChunk.encode, choices_object, getField_append, h, getField_encodeOptional, Option.none_or]
  cases fc.choices <;> rfl

theorem forall₂_exists_of_mem_right {α β : Type} {R : α → β → Prop} {as : List α} {bs : List β} (h : List.Forall₂ R as bs)
    {b : β} (hb : b ∈ bs) : ∃ a ∈ as, R a b := by
  induction h with
  | nil => cases hb
  | cons hab _ ih =>
    rcases List.mem_cons.mp hb with rfl | hb
    · exact ⟨_, List.mem_cons_self, hab⟩
    · obtain ⟨a, ha, hr⟩ := ih hb
      exact ⟨a, List.mem_cons_of_mem _ ha, hr⟩

/-- The items of a list that has been decoded, one by one. -/
theorem forall₂_of_decodeList {α : Type} {decode : Json → Option α} {v : Json} {as : List α}
    (h : decodeList decode v = some as) : ∃ items, v = array items ∧ List.Forall₂ (fun item a => decode item = some a) items as := by
  rw [decodeList, Option.bind_eq_some_iff] at h
  obtain ⟨items, hitems, hmap⟩ := h
  refine ⟨items, ?_, ?_⟩
  · cases v with
    | array _ =>
      cases hitems
      rfl
    | null | bool b | number n | string s | object fields => cases hitems
  · clear hitems
    induction items generalizing as with
    | nil =>
      cases hmap
      exact .nil
    | cons item items ih =>
      simp only [List.mapM_cons, Option.bind_eq_bind, Option.bind_eq_some_iff] at hmap
      obtain ⟨a, ha, rest, hrest, hcons⟩ := hmap
      cases hcons
      exact .cons ha (ih hrest)

/-- A chunk that has been read is the payload up to its shape. -/
theorem FastChunk.fromStr_spec {payload : Text} {fc : FastChunk} (h : FastChunk.fromStr payload = some fc) :
    (∃ u, read payload = some u ∧ Reshapes u fc.encode) ∧ getField fc.extra Key.choices = none ∧
      ∀ cs, fc.choices = some cs → ∀ choice ∈ cs, getField choice.extra Key.delta = none ∧
        ∀ delta, choice.delta = some delta → delta.Proper := by
  have hextra := FastChunk.getField_extra h
  simp only [FastChunk.fromStr, Option.bind_eq_bind, Option.bind_eq_some_iff] at h
  obtain ⟨v, hread, fields, hfields, found, hchoices, h⟩ := h
  cases h
  split at hfields
  · rw [asObject_eq_some hfields] at hread
    have hmax : ∀ fc : FastChunk, fc.encode.depth =
        max (fieldsDepth (encodeOptional (fun cs => array (cs.map FastChoice.encode)) Key.choices fc.choices))
          (fieldsDepth fc.extra) + 1 := by
      intro fc
      cases hfc : fc.choices <;> simp [FastChunk.encode, encodeOptional, depth, fieldsDepth, hfc]
    have hrest : fieldsDepth (extraFields [Key.choices] fields) ≤ fieldsDepth fields :=
      fieldsDepth_le.mpr (depth_extraFields_le depth_members)
    rcases optionalField_eq_some hchoices with ⟨rfl, hmissing⟩ | ⟨w, cs, hw, hdecode, rfl⟩
    · refine ⟨⟨_, hread, ?_, fun _ => rfl, ?_⟩, hextra, fun cs hcs => by cases hcs⟩
      · rw [hmax, depth]
        simp only [encodeOptional, fieldsDepth]
        omega
      · rw [choices_encode hextra, choices_object]
        rcases hmissing with hmissing | hmissing
        · rw [hmissing]
          exact .nil
        · rw [hmissing]
          exact .nil
    · obtain ⟨items, rfl, hitems⟩ := forall₂_of_decodeList hdecode
      refine ⟨⟨_, hread, ?_, fun _ => rfl, ?_⟩, hextra, ?_⟩
      · have hle := depth_decodeList_le (fun v c hc => (FastChoice.decode_spec (v := v) hc).2.2.1) hdecode
        have hold := depth_le_of_getField hw
        rw [hmax, depth]
        simp only [encodeOptional, fieldsDepth]
        omega
      · rw [choices_encode hextra, choices_object, hw]
        simp only [Option.bind_some, asArray, Option.getD_some, Option.map_some]
        rw [List.forall₂_map_right_iff]
        exact hitems.imp fun _ _ hc => (FastChoice.decode_spec hc).2.2.2
      · rintro cs' hcs' choice hchoice
        cases hcs'
        obtain ⟨item, -, hitem⟩ := forall₂_exists_of_mem_right hitems hchoice
        exact ⟨(FastChoice.decode_spec hitem).1, (FastChoice.decode_spec hitem).2.1⟩
  · cases hfields

/-- A chunk with another first choice. -/
theorem FastChunk.reshapes_setFirst {fc : FastChunk} {choice choice' : FastChoice} {rest : List FastChoice}
    (hextra : getField fc.extra Key.choices = none) (hchoices : fc.choices = some (choice :: rest))
    (hfollows : Follows choice.encode choice'.encode) (hdepth : choice'.encode.depth ≤ choice.encode.depth) :
    Reshapes fc.encode (FastChunk.encode { fc with choices := some (choice' :: rest) }) where
  depth := by
    simp only [FastChunk.encode, encodeOptional, hchoices, depth, fieldsDepth, itemsDepth, List.map_cons,
      List.cons_append, List.nil_append]
    omega
  isObject := id
  choices := by
    rw [choices_encode hextra, @choices_encode { fc with choices := some (choice' :: rest) } hextra,
      hchoices]
    exact .cons hfollows (forall₂_follows_refl _)

theorem reshapes_normalizeChunk (s : ReasoningNormalizer) {payload : Text} {fc : FastChunk}
    (h : FastChunk.fromStr payload = some fc) :
    ∃ u, read payload = some u ∧ Reshapes u (s.normalizeChunk fc).1.1.encode := by
  obtain ⟨⟨u, hu, hreshapes⟩, hextra, hproper⟩ := FastChunk.fromStr_spec h
  refine ⟨u, hu, ?_⟩
  unfold ReasoningNormalizer.normalizeChunk
  split
  · rename_i choice rest hchoices
    split
    · rename_i delta hdelta
      obtain ⟨hnone, hdeltas⟩ := hproper _ hchoices choice List.mem_cons_self
      have hretexts := (retexts_normalizeChoiceContent delta s.thinkExtractor).trans
        (retexts_normalizeChoiceToolCalls (normalizeChoiceContent delta s.thinkExtractor).1.1 s.toolCallAcc)
      obtain ⟨hfollows, hdepth⟩ := follows_retexts hnone hdelta (hdeltas delta hdelta) hretexts
      exact hreshapes.trans (FastChunk.reshapes_setFirst hextra hchoices hfollows hdepth)
    · exact hreshapes
  · exact hreshapes

end OpenProxy.Streaming
