import OpenProxy.Data.KeepFirst
import OpenProxy.Kiro.Stream

/-!
# The tool calls of a Kiro body

What the two readers make of the tool uses of a body.  The response has the calls in the order of their ids, each with its
first name and with all of its input (`unaryCalls_perm`).  The stream has them in the order of their arrival
(`streamCalls_eq`): a call has a name there only if its first use has one, and of a use that starts a call the input is
left out.
-/

namespace OpenProxy.Kiro

open Upstream hiding OpenAIResponse
open Upstream.Responses hiding CoreError

/-- The uses that are the first ones of their calls. -/
abbrev firstUses (uses : List ToolUse) : List ToolUse := firsts ToolUse.toolUseId uses

/-- The uses of a call. -/
abbrev usesOf (uses : List ToolUse) (id : Text) : List ToolUse := ofKey ToolUse.toolUseId uses id

/-- The input of some uses. -/
def inputOf (uses : List ToolUse) : Text := uses.flatMap ToolUse.input

/-- The first name that some uses give. -/
def nameOf (uses : List ToolUse) : Text := ((uses.map ToolUse.name).find? fun name => !name.isEmpty).getD []

/-! ### The response -/

/-- The map of the calls. -/
def unaryCalls (uses : List ToolUse) : SortedMap Text (Text × Text) :=
  uses.foldl (fun calls use => calls.upsert use.toolUseId use.entry) .empty

/-- A call of the response. -/
def unaryCall (uses : List ToolUse) (id : Text) : Text × Text := (nameOf (usesOf uses id), inputOf (usesOf uses id))

theorem nameOf_concat (uses : List ToolUse) (use : ToolUse) :
    nameOf (uses ++ [use]) =
      if (!use.name.isEmpty && (nameOf uses).isEmpty) = true then use.name else nameOf uses := by
  unfold nameOf
  rw [List.map_append, List.find?_append, List.map_singleton, List.find?_singleton]
  cases hfind : (uses.map ToolUse.name).find? fun name => !name.isEmpty with
  | some name =>
    have hname := List.find?_some hfind
    rw [Bool.not_eq_true'] at hname
    rw [Option.some_or, Option.getD_some, hname, Bool.and_false, if_neg (by simp)]
  | none =>
    rw [Option.none_or, Option.getD_none, List.isEmpty_nil, Bool.and_true]
    split <;> rfl

theorem inputOf_concat (uses : List ToolUse) (use : ToolUse) : inputOf (uses ++ [use]) = inputOf uses ++ use.input := by
  unfold inputOf
  rw [List.flatMap_append, List.flatMap_singleton]

/-- The first use of a call makes its entry. -/
theorem unaryCall_new {uses : List ToolUse} {use : ToolUse} (h : use.toolUseId ∉ (firstUses uses).map ToolUse.toolUseId) :
    unaryCall (uses ++ [use]) use.toolUseId = use.entry none := by
  unfold unaryCall usesOf
  rw [ofKey_concat, if_pos rfl, ofKey_eq_nil _ h, nameOf_concat, inputOf_concat]
  simp only [ToolUse.entry, nameOf, inputOf, List.map_nil, List.find?_nil, Option.getD_none, List.flatMap_nil,
    List.isEmpty_nil, Bool.and_true, List.nil_append, Prod.mk.injEq, and_true]
  cases use.name <;> rfl

/-- A later use changes it. -/
theorem unaryCall_known (uses : List ToolUse) (use : ToolUse) :
    unaryCall (uses ++ [use]) use.toolUseId = use.entry (some (unaryCall uses use.toolUseId)) := by
  unfold unaryCall usesOf
  rw [ofKey_concat, if_pos rfl, nameOf_concat, inputOf_concat]
  rfl

/-- The other calls stay as they are. -/
theorem unaryCall_other (uses : List ToolUse) {use : ToolUse} {id : Text} (h : use.toolUseId ≠ id) :
    unaryCall (uses ++ [use]) id = unaryCall uses id := by
  unfold unaryCall usesOf
  rw [ofKey_concat, if_neg h]

/-- The entries of the map are the calls of the uses, in some order. -/
theorem unaryCalls_perm (uses : List ToolUse) :
    (unaryCalls uses).entries.Perm ((firstUses uses).map fun use => (use.toolUseId, unaryCall uses use.toolUseId)) := by
  induction uses using List.reverseRecOn with
  | nil => exact List.Perm.refl _
  | append_singleton uses use ih =>
    have hkeys : use.toolUseId ∈ (unaryCalls uses).keys ↔ use.toolUseId ∈ (firstUses uses).map ToolUse.toolUseId := by
      have hperm := ih.map Prod.fst
      rw [List.map_map] at hperm
      exact hperm.mem_iff
    have hstep : unaryCalls (uses ++ [use]) = (unaryCalls uses).upsert use.toolUseId use.entry := by
      unfold unaryCalls
      rw [List.foldl_append, List.foldl_cons, List.foldl_nil]
    rw [hstep, firstUses, firsts_concat]
    by_cases hmem : use.toolUseId ∈ (firstUses uses).map ToolUse.toolUseId
    · rw [SortedMap.upsert_of_mem (hkeys.mpr hmem), if_pos hmem]
      refine (ih.map _).trans (List.Perm.of_eq ?_)
      rw [List.map_map]
      refine List.map_congr_left fun use' _ => ?_
      dsimp only [Function.comp_apply]
      split
      · rename_i heq
        rw [heq, unaryCall_known]
      · rename_i hne
        rw [unaryCall_other uses fun h => hne h.symm]
    · rw [if_neg hmem, List.map_append, List.map_singleton, unaryCall_new hmem]
      refine (SortedMap.upsert_perm (fun h => hmem (hkeys.mp h)) use.entry).trans ?_
      refine ((ih.cons _).trans (List.perm_append_singleton _ _).symm).trans (List.Perm.of_eq ?_)
      refine congrArg (· ++ _) (List.map_congr_left fun use' huse' => ?_)
      have hne : use.toolUseId ≠ use'.toolUseId := by
        intro heq
        refine hmem ?_
        rw [heq]
        exact List.mem_map_of_mem huse'
      rw [unaryCall_other uses hne]

/-! ### The stream -/

/-- What a use does to the calls that a client has put together. -/
def advanceUse (x : KiroStreamState × List (Nat × OpenAIToolCall)) (use : ToolUse) :
    KiroStreamState × List (Nat × OpenAIToolCall) :=
  let (chunk, state) := toolUseToChunk x.1 use
  (state, (((chunk.bind (·.payload)).map (·.delta.toolCalls)).getD []).foldl addToolCall x.2)

/-- The calls of the stream. -/
def streamCalls (uses : List ToolUse) : KiroStreamState × List (Nat × OpenAIToolCall) := uses.foldl advanceUse (.new, [])

/-- A fragment that may be empty. -/
def addFragment (calls : List (Nat × OpenAIToolCall)) (idx : Nat) (input : Text) : List (Nat × OpenAIToolCall) :=
  if input.isEmpty then calls else addToolCall calls ⟨some idx, none, none, input⟩

section

variable {x : KiroStreamState × List (Nat × OpenAIToolCall)} {use : ToolUse}

/-- A later use of a call. -/
theorem advanceUse_known {idx : Nat} (h : x.1.toolIndexById.lookup use.toolUseId = some idx) :
    advanceUse x use = ({ x.1 with sawToolCalls := true }, addFragment x.2 idx use.input) := by
  simp only [advanceUse, toolUseToChunk, KiroStreamState.getOrCreateToolIndex, h, addFragment]
  cases use.input <;> rfl

/-- The first use of a call. -/
theorem advanceUse_new (h : x.1.toolIndexById.lookup use.toolUseId = none) :
    advanceUse x use =
      (⟨x.1.toolIndexById.insert use.toolUseId x.1.nextToolIndex, add32 x.1.nextToolIndex 1, true⟩,
        if use.name.isEmpty then addFragment x.2 x.1.nextToolIndex use.input
        else addToolCall x.2 ⟨some x.1.nextToolIndex, some use.toolUseId, some use.name, []⟩) := by
  simp only [advanceUse, toolUseToChunk, KiroStreamState.getOrCreateToolIndex, h, addFragment]
  cases use.name with
  | nil => cases use.input <;> rfl
  | cons c name => rfl

end

theorem streamCalls_concat (uses : List ToolUse) (use : ToolUse) :
    streamCalls (uses ++ [use]) = advanceUse (streamCalls uses) use := by
  unfold streamCalls
  rw [List.foldl_append, List.foldl_cons, List.foldl_nil]

/-! ### Whose the calls of the stream are -/

theorem indices_addToolCall (calls : List (Nat × OpenAIToolCall)) (idx : Nat) (id name : Option Text) (arguments : Text) :
    (addToolCall calls ⟨some idx, id, name, arguments⟩).map Prod.fst =
      if idx ∈ calls.map Prod.fst then calls.map Prod.fst else calls.map Prod.fst ++ [idx] := by
  have hany : (calls.any fun call => call.1 == idx) = true ↔ idx ∈ calls.map Prod.fst := by
    simp only [List.any_eq_true, beq_iff_eq, List.mem_map]
  simp only [addToolCall, Option.getD_some]
  by_cases h : idx ∈ calls.map Prod.fst
  · rw [if_pos (hany.mpr h), if_pos h, List.map_map]
    refine List.map_congr_left fun call _ => ?_
    dsimp only [Function.comp_apply]
    split <;> rfl
  · rw [if_neg (fun ht => h (hany.mp ht)), if_neg h, List.map_append, List.map_singleton]

/-- A call that is there afterwards was there with its id, or has the id of the fragment. -/
theorem mem_addToolCall {calls : List (Nat × OpenAIToolCall)} {d : ToolCallDelta} {call : Nat × OpenAIToolCall}
    (h : call ∈ addToolCall calls d) : (∃ old ∈ calls, call.2.id = old.2.id) ∨ call.2.id = d.id.getD [] := by
  unfold addToolCall at h
  dsimp only at h
  split at h
  · obtain ⟨old, hold, rfl⟩ := List.mem_map.mp h
    refine Or.inl ⟨old, hold, ?_⟩
    split <;> rfl
  · rcases List.mem_append.mp h with h | h
    · exact Or.inl ⟨call, h, rfl⟩
    · rw [List.mem_singleton] at h
      exact Or.inr (by rw [h])

/-- What is known of the calls of a stream whatever the uses are. -/
structure Tracks (uses : List ToolUse) (x : KiroStreamState × List (Nat × OpenAIToolCall)) : Prop where
  known : ∀ id, (x.1.toolIndexById.lookup id).isSome = true ↔ id ∈ (firstUses uses).map ToolUse.toolUseId
  next : x.1.nextToolIndex < 2 ^ 32
  index : ∀ id idx, x.1.toolIndexById.lookup id = some idx → idx < 2 ^ 32
  saw : x.1.sawToolCalls = !uses.isEmpty
  ids : ∀ call ∈ x.2, call.2.id = [] ∨ ∃ use ∈ firstUses uses, use.name ≠ [] ∧ call.2.id = use.toolUseId
  distinct : (x.2.map Prod.fst).Nodup
  bounded : ∀ idx ∈ x.2.map Prod.fst, idx < 2 ^ 32

namespace Tracks

variable {uses : List ToolUse} {x : KiroStreamState × List (Nat × OpenAIToolCall)} {use : ToolUse}

/-- The indices of the calls after a fragment. -/
theorem indices (h : Tracks uses x) {idx : Nat} (hidx : idx < 2 ^ 32) (id name : Option Text) (arguments : Text) :
    ((addToolCall x.2 ⟨some idx, id, name, arguments⟩).map Prod.fst).Nodup ∧
      ∀ i ∈ (addToolCall x.2 ⟨some idx, id, name, arguments⟩).map Prod.fst, i < 2 ^ 32 := by
  rw [indices_addToolCall]
  split
  · exact ⟨h.distinct, h.bounded⟩
  · rename_i hnew
    constructor
    · rw [List.nodup_append]
      refine ⟨h.distinct, List.nodup_singleton _, ?_⟩
      intro i hi j hj hij
      rw [List.mem_singleton] at hj
      exact hnew (by rw [← hj, ← hij]; exact hi)
    · intro i hi
      rcases List.mem_append.mp hi with hi | hi
      · exact h.bounded i hi
      · rw [List.mem_singleton] at hi
        rw [hi]
        exact hidx

theorem ids_concat (h : Tracks uses x) (use : ToolUse) {call : Nat × OpenAIToolCall} (hcall : call ∈ x.2) :
    call.2.id = [] ∨ ∃ use' ∈ firstUses (uses ++ [use]), use'.name ≠ [] ∧ call.2.id = use'.toolUseId := by
  refine (h.ids call hcall).imp_right ?_
  rintro ⟨use', huse', hname, hid⟩
  exact ⟨use', mem_firsts_concat _ use huse', hname, hid⟩

/-- A fragment that has no id. -/
theorem addFragment (h : Tracks uses x) (use : ToolUse) {idx : Nat} (hidx : idx < 2 ^ 32) (input : Text) :
    (∀ call ∈ addFragment x.2 idx input, call.2.id = [] ∨
      ∃ use' ∈ firstUses (uses ++ [use]), use'.name ≠ [] ∧ call.2.id = use'.toolUseId) ∧
    ((Kiro.addFragment x.2 idx input).map Prod.fst).Nodup ∧
    ∀ i ∈ (Kiro.addFragment x.2 idx input).map Prod.fst, i < 2 ^ 32 := by
  unfold Kiro.addFragment
  split
  · exact ⟨fun call hcall => h.ids_concat use hcall, h.distinct, h.bounded⟩
  · refine ⟨?_, h.indices hidx _ _ _⟩
    intro call hcall
    rcases mem_addToolCall hcall with ⟨old, hold, heq⟩ | heq
    · rw [heq]
      exact h.ids_concat use hold
    · exact Or.inl heq

theorem advanceUse (h : Tracks uses x) (use : ToolUse) : Tracks (uses ++ [use]) (advanceUse x use) := by
  have hsaw : true = !(uses ++ [use]).isEmpty := by
    cases uses <;> rfl
  cases hlookup : x.1.toolIndexById.lookup use.toolUseId with
  | some idx =>
    have hmem : use.toolUseId ∈ (firstUses uses).map ToolUse.toolUseId := by
      rw [← h.known, hlookup]
      rfl
    have hfirsts : firstUses (uses ++ [use]) = firstUses uses := by
      rw [firstUses, firsts_concat, if_pos hmem]
    obtain ⟨hids, hdistinct, hbounded⟩ := h.addFragment use (h.index _ _ hlookup) use.input
    rw [advanceUse_known hlookup]
    exact ⟨by rw [hfirsts]; exact h.known, h.next, h.index, hsaw, hids, hdistinct, hbounded⟩
  | none =>
    have hmem : use.toolUseId ∉ (firstUses uses).map ToolUse.toolUseId := by
      rw [← h.known, hlookup]
      exact Bool.false_ne_true
    have hfirsts : firstUses (uses ++ [use]) = firstUses uses ++ [use] := by
      rw [firstUses, firsts_concat, if_neg hmem]
    have huse : use ∈ firstUses (uses ++ [use]) := by
      rw [hfirsts]
      exact List.mem_append_right _ (List.mem_singleton.mpr rfl)
    have hknown : ∀ id, ((x.1.toolIndexById.insert use.toolUseId x.1.nextToolIndex).lookup id).isSome = true ↔
        id ∈ (firstUses (uses ++ [use])).map ToolUse.toolUseId := by
      intro id
      rw [Table.lookup_insert_eq, hfirsts, List.map_append, List.mem_append, List.map_singleton, List.mem_singleton,
        ← h.known]
      split
      · rename_i heq
        simp [heq]
      · rename_i hne
        simp [hne]
    have hindex : ∀ id idx, (x.1.toolIndexById.insert use.toolUseId x.1.nextToolIndex).lookup id = some idx →
        idx < 2 ^ 32 := by
      intro id idx hid
      rw [Table.lookup_insert_eq] at hid
      split at hid
      · rw [← Option.some.inj hid]
        exact h.next
      · exact h.index _ _ hid
    have hnext : add32 x.1.nextToolIndex 1 < 2 ^ 32 := Nat.mod_lt _ (by decide)
    rw [advanceUse_new hlookup]
    by_cases hname : use.name = []
    · obtain ⟨hids, hdistinct, hbounded⟩ := h.addFragment use h.next use.input
      rw [hname, List.isEmpty_nil, if_pos rfl]
      exact ⟨hknown, hnext, hindex, hsaw, hids, hdistinct, hbounded⟩
    · obtain ⟨hdistinct, hbounded⟩ := h.indices h.next (some use.toolUseId) (some use.name) []
      rw [if_neg (by rw [List.isEmpty_iff]; exact hname)]
      refine ⟨hknown, hnext, hindex, hsaw, ?_, hdistinct, hbounded⟩
      intro call hcall
      rcases mem_addToolCall hcall with ⟨old, hold, heq⟩ | heq
      · rw [heq]
        exact h.ids_concat use hold
      · exact Or.inr ⟨use, huse, hname, heq⟩

end Tracks

theorem tracks (uses : List ToolUse) : Tracks uses (streamCalls uses) := by
  induction uses using List.reverseRecOn with
  | nil =>
    refine ⟨fun id => ?_, by decide, fun id idx h => ?_, rfl, fun call h => ?_, List.nodup_nil, fun idx h => ?_⟩
    · exact ⟨fun h => absurd h Bool.false_ne_true, fun h => absurd h List.not_mem_nil⟩
    · cases h
    · cases h
    · cases h
  | append_singleton uses use ih =>
    rw [streamCalls_concat]
    exact ih.advanceUse use

/-- There are no more calls than indices. -/
theorem length_streamCalls_le (uses : List ToolUse) : (streamCalls uses).2.length ≤ 2 ^ 32 := by
  have h := tracks uses
  have hsub : (streamCalls uses).2.map Prod.fst ⊆ List.range (2 ^ 32) := by
    intro idx hidx
    exact List.mem_range.mpr (h.bounded idx hidx)
  have hle := (List.subperm_of_subset h.distinct hsub).length_le
  rwa [List.length_map, List.length_range] at hle

/-! ### The calls of the stream, where every call begins with its name -/

/-- The fragments of the call with an index. -/
theorem addFragment_numbered {calls : List OpenAIToolCall} (hnodup : (calls.map OpenAIToolCall.id).Nodup) {idx : Nat}
    {call : OpenAIToolCall} (h : calls[idx]? = some call) (input : Text) :
    addFragment (numbered calls) idx input =
      numbered (calls.map fun c => if c.id = call.id then { c with arguments := c.arguments ++ input } else c) := by
  have hlt := (List.getElem?_eq_some_iff.mp h).1
  have hget : ∀ (calls : List OpenAIToolCall) (i : Nat), (numbered calls)[i]? = calls[i]?.map fun c => (i, c) := by
    intro calls i
    rw [numbered, List.getElem?_map, List.getElem?_zipIdx, Nat.zero_add, Option.map_map]
    rfl
  -- A call has the index if and only if it has the id.
  have hsame : ∀ (i : Nat) c, calls[i]? = some c → (i = idx ↔ c.id = call.id) := by
    intro i c hc
    have hci := (List.getElem?_eq_some_iff.mp hc).1
    constructor
    · rintro rfl
      rw [h] at hc
      rw [Option.some.inj hc]
    · intro hid
      refine (List.getElem?_inj (by rw [List.length_map]; exact hci) hnodup).mp ?_
      rw [List.getElem?_map, List.getElem?_map, hc, h, Option.map_some, Option.map_some, hid]
  unfold addFragment
  split
  · rename_i hempty
    rw [List.isEmpty_iff] at hempty
    have hid : (calls.map fun c => if c.id = call.id then { c with arguments := c.arguments ++ input } else c) =
        calls.map id := by
      refine List.map_congr_left fun c _ => ?_
      rw [hempty, List.append_nil, ite_self, id]
    rw [hid, List.map_id]
  · have hany : ((numbered calls).any fun c => c.1 == idx) = true := by
      rw [List.any_eq_true]
      refine ⟨(idx, call), List.mem_of_getElem? (i := idx) ?_, by simp⟩
      rw [hget, h, Option.map_some]
    simp only [addToolCall, Option.getD_some]
    rw [if_pos hany]
    refine List.ext_getElem? fun i => ?_
    rw [List.getElem?_map, hget, hget, List.getElem?_map]
    cases hc : calls[i]? with
    | none => rfl
    | some c =>
      simp only [Option.map_some]
      by_cases hi : i = idx
      · rw [if_pos hi, if_pos ((hsame i c hc).mp hi)]
      · rw [if_neg hi, if_neg fun hid => hi ((hsame i c hc).mpr hid)]

/-- The input of a call without the one of its first use. -/
def laterInput (uses : List ToolUse) (id : Text) : Text := inputOf (usesOf uses id).tail

/-- A call of the stream. -/
def streamedCall (uses : List ToolUse) (use : ToolUse) : OpenAIToolCall :=
  ⟨use.toolUseId, use.name, laterInput uses use.toolUseId⟩

/-- A later use adds its input. -/
theorem streamedCall_known {uses : List ToolUse} {use use' : ToolUse} (hmem : use' ∈ firstUses uses)
    (h : use'.toolUseId = use.toolUseId) :
    streamedCall (uses ++ [use]) use' =
      { streamedCall uses use' with arguments := (streamedCall uses use').arguments ++ use.input } := by
  unfold streamedCall laterInput usesOf
  rw [ofKey_concat, if_pos h.symm, ofKey_firsts _ hmem, List.cons_append, List.tail_cons, List.tail_cons,
    inputOf_concat]

theorem streamedCall_other (uses : List ToolUse) {use use' : ToolUse} (h : use'.toolUseId ≠ use.toolUseId) :
    streamedCall (uses ++ [use]) use' = streamedCall uses use' := by
  unfold streamedCall laterInput usesOf
  rw [ofKey_concat, if_neg fun heq => h heq.symm]

theorem ids_streamedCalls (uses : List ToolUse) :
    ((firstUses uses).map (streamedCall uses)).map OpenAIToolCall.id = (firstUses uses).map ToolUse.toolUseId := by
  rw [List.map_map]
  rfl

/-- What the state and the calls are if the stream reports every call with its name. -/
structure InStep (uses : List ToolUse) (x : KiroStreamState × List (Nat × OpenAIToolCall)) : Prop where
  index : ∀ idx use, (firstUses uses)[idx]? = some use → x.1.toolIndexById.lookup use.toolUseId = some idx
  next : x.1.nextToolIndex = (firstUses uses).length % 2 ^ 32
  calls : x.2 = numbered ((firstUses uses).map (streamedCall uses))

/-- A later use of a call. -/
theorem InStep.known {uses : List ToolUse} {x : KiroStreamState × List (Nat × OpenAIToolCall)} (h : InStep uses x)
    {use : ToolUse} (hmem : use.toolUseId ∈ (firstUses uses).map ToolUse.toolUseId) :
    InStep (uses ++ [use]) (advanceUse x use) := by
  have hfirsts : firstUses (uses ++ [use]) = firstUses uses := by
    rw [firstUses, firsts_concat, if_pos hmem]
  obtain ⟨first, hfirst, hid⟩ := List.mem_map.mp hmem
  obtain ⟨idx, hidx⟩ := List.mem_iff_getElem?.mp hfirst
  have hlookup := h.index idx first hidx
  rw [hid] at hlookup
  rw [advanceUse_known hlookup]
  refine ⟨?_, ?_, ?_⟩
  · rw [hfirsts]
    exact h.index
  · rw [hfirsts]
    exact h.next
  · have hnodup : (((firstUses uses).map (streamedCall uses)).map OpenAIToolCall.id).Nodup := by
      rw [ids_streamedCalls]
      exact nodup_keys_firsts _ uses
    have hcall : ((firstUses uses).map (streamedCall uses))[idx]? = some (streamedCall uses first) := by
      rw [List.getElem?_map, hidx, Option.map_some]
    have hcalls := addFragment_numbered hnodup hcall use.input
    rw [← h.calls] at hcalls
    rw [hfirsts]
    refine hcalls.trans (congrArg numbered ?_)
    rw [List.map_map]
    refine List.map_congr_left fun use' huse' => ?_
    have hids : (streamedCall uses use').id = (streamedCall uses first).id ↔ use'.toolUseId = use.toolUseId := by
      rw [← hid]
      rfl
    rw [Function.comp_apply]
    by_cases heq : use'.toolUseId = use.toolUseId
    · rw [if_pos (hids.mpr heq), streamedCall_known huse' heq]
    · rw [if_neg fun h => heq (hids.mp h), streamedCall_other uses heq]

/-- The first use of a call. -/
theorem InStep.new {uses : List ToolUse} {x : KiroStreamState × List (Nat × OpenAIToolCall)} (h : InStep uses x)
    {use : ToolUse} (hmem : use.toolUseId ∉ (firstUses uses).map ToolUse.toolUseId)
    (hlookup : x.1.toolIndexById.lookup use.toolUseId = none) (hname : use.name ≠ [])
    (hfew : (firstUses uses).length < 2 ^ 32) : InStep (uses ++ [use]) (advanceUse x use) := by
  have hfirsts : firstUses (uses ++ [use]) = firstUses uses ++ [use] := by
    rw [firstUses, firsts_concat, if_neg hmem]
  have hnext : x.1.nextToolIndex = (firstUses uses).length := h.next.trans (Nat.mod_eq_of_lt hfew)
  have hother : ∀ use' ∈ firstUses uses, use'.toolUseId ≠ use.toolUseId := by
    intro use' huse' heq
    refine hmem ?_
    rw [← heq]
    exact List.mem_map_of_mem huse'
  rw [advanceUse_new hlookup, if_neg (by rw [List.isEmpty_iff]; exact hname)]
  refine ⟨?_, ?_, ?_⟩
  · intro idx use' hidx
    rw [hfirsts] at hidx
    dsimp only
    rw [Table.lookup_insert_eq]
    rcases Nat.lt_or_ge idx (firstUses uses).length with hlt | hge
    · rw [List.getElem?_append_left hlt] at hidx
      rw [if_neg (hother use' (List.mem_of_getElem? hidx))]
      exact h.index idx use' hidx
    · rw [List.getElem?_append_right hge, List.getElem?_singleton] at hidx
      split at hidx
      · rename_i hzero
        rw [if_pos (by rw [Option.some.inj hidx]), hnext]
        exact congrArg some (by omega)
      · cases hidx
  · rw [hfirsts, List.length_append, List.length_singleton]
    exact congrArg (fun n => (n + 1) % 2 ^ 32) hnext
  · have hbelow : ∀ call ∈ x.2, call.1 < x.1.nextToolIndex := by
      intro call hcall
      rw [h.calls] at hcall
      have hlt := lt_of_mem_numbered hcall
      rw [List.length_map] at hlt
      rw [hnext]
      exact hlt
    have holds : (firstUses uses).map (streamedCall (uses ++ [use])) = (firstUses uses).map (streamedCall uses) := by
      exact List.map_congr_left fun use' huse' => streamedCall_other uses (hother use' huse')
    have hnew : streamedCall (uses ++ [use]) use = ⟨use.toolUseId, use.name, []⟩ := by
      rw [streamedCall, laterInput, usesOf, ofKey_concat, if_pos rfl, ofKey_eq_nil _ hmem]
      rfl
    dsimp only
    rw [addToolCall_new hbelow, hfirsts, List.map_append, List.map_singleton, numbered_append, List.length_map, holds,
      hnew, ← h.calls, hnext]

theorem streamCalls_eq {uses : List ToolUse} (hnamed : ∀ use ∈ firstUses uses, use.name ≠ [])
    (hfew : (firstUses uses).length ≤ 2 ^ 32) : InStep uses (streamCalls uses) := by
  induction uses using List.reverseRecOn with
  | nil =>
    refine ⟨fun idx use h => ?_, rfl, rfl⟩
    cases h
  | append_singleton uses use ih =>
    have hsub : ∀ use' ∈ firstUses uses, use' ∈ firstUses (uses ++ [use]) := fun use' h => mem_firsts_concat _ use h
    rw [streamCalls_concat]
    by_cases hmem : use.toolUseId ∈ (firstUses uses).map ToolUse.toolUseId
    · rw [firstUses, firsts_concat, if_pos hmem] at hfew
      exact (ih (fun use' h => hnamed use' (hsub use' h)) hfew).known hmem
    · have hlookup : (streamCalls uses).1.toolIndexById.lookup use.toolUseId = none := by
        rw [← Option.not_isSome_iff_eq_none]
        exact fun h => hmem (((tracks uses).known _).mp h)
      have hfirsts : firstUses (uses ++ [use]) = firstUses uses ++ [use] := by
        rw [firstUses, firsts_concat, if_neg hmem]
      rw [hfirsts] at hfew hnamed
      rw [List.length_append, List.length_singleton] at hfew
      have hname := hnamed use (List.mem_append_right _ (List.mem_singleton.mpr rfl))
      have hnamed' : ∀ use' ∈ firstUses uses, use'.name ≠ [] := fun use' h => hnamed use' (List.mem_append_left _ h)
      exact (ih hnamed' (by omega)).new hmem hlookup hname (by omega)

end OpenProxy.Kiro
