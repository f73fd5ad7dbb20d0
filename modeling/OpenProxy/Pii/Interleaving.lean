import OpenProxy.Pii.Isolation

/-!
# Interleaved channels

A stream carries the fragments of many channels in any order.  Along a run of `process_chunk` each channel is fed by its
own fragments only, and it is flushed once: with the finish of its choice, or by `finalize`.  So the channels are restored
as if each were alone.
-/

namespace OpenProxy.Pii

open StreamingWindowReplacer (flush_of_pending mem_new_pairs secretCalls)

/-- The choices of a payload. -/
def Parsed.choices : Parsed → List Choice
  | .object choices => choices.getD []
  | _ => []

/-- The choices that the client receives for a payload. -/
def StreamAction.choices (parsed : Parsed) : StreamAction → List Choice
  | .passthrough => parsed.choices
  | .mutateChoices choices => choices
  | _ => []

/-- The choices of the payloads, each with its position in its payload. -/
def inputEntries (parse : Text → Parsed) (payloads : List Text) : List (Choice × Nat) :=
  payloads.flatMap fun payload => (parse payload).choices.zipIdx

/-- The choices that the client receives for the payloads. -/
def emittedEntries (parse : Text → Parsed) (payloads : List Text) (actions : List StreamAction) : List (Choice × Nat) :=
  (payloads.zip actions).flatMap fun (payload, action) => (action.choices (parse payload)).zipIdx

/-- The choices of the chunk that `finalize` returns. -/
def residualEntries : Option PiiRestorationStage.Residual → List (Choice × Nat)
  | some (.choices choices) => choices.zipIdx
  | _ => []

/-- A finish reason stands only on the last occurrence of its choice. -/
def FinishLast (entries : List (Choice × Nat)) : Prop :=
  entries.Pairwise fun a b => a.1.hasFinishReason = true → a.1.choiceIdx a.2 ≠ b.1.choiceIdx b.2

instance (entries : List (Choice × Nat)) : Decidable (FinishLast entries) :=
  inferInstanceAs (Decidable (List.Pairwise _ entries))

/-- Where its choice is finished, a channel has at most one fragment: no two tool calls have the same index there. -/
def FinishOnce (ch : Channel) (entries : List (Choice × Nat)) : Prop :=
  ∀ entry ∈ entries, entry.1.hasFinishReason = true → (entry.1.fragments entry.2 ch).length ≤ 1

instance (ch : Channel) (entries : List (Choice × Nat)) : Decidable (FinishOnce ch entries) :=
  inferInstanceAs (Decidable (∀ _ ∈ _, _))

/-- Some entry finishes the choice of the channel. -/
def Finishes (ch : Channel) (entries : List (Choice × Nat)) : Prop :=
  ∃ entry ∈ entries, entry.1.hasFinishReason = true ∧ entry.1.choiceIdx entry.2 = ch.choiceIdx

/-- A string of a choice is one fragment at most. -/
theorem finishOnce_field (field : Field) (choiceIdx : Nat) (entries : List (Choice × Nat)) :
    FinishOnce (.field field choiceIdx) entries := by
  intro entry _ _
  unfold Choice.fragments
  dsimp only
  split
  · cases entry.1.get field <;> simp
  · simp

theorem fragments_append (ch : Channel) (xs ys : List (Choice × Nat)) :
    fragments ch (xs ++ ys) = fragments ch xs ++ fragments ch ys := by simp [fragments]

/-- After the finish of its choice a channel has no fragments. -/
theorem fragments_of_finishes {ch : Channel} {xs ys : List (Choice × Nat)} (h : FinishLast (xs ++ ys))
    (hfin : Finishes ch xs) : fragments ch ys = [] := by
  obtain ⟨a, ha, hfinish, hidx⟩ := hfin
  unfold fragments
  rw [List.flatMap_eq_nil_iff]
  intro b hb
  have hne := (List.pairwise_append.mp h).2.2 a ha b hb hfinish
  rw [hidx] at hne
  exact if_neg hne.symm

namespace PiiRestorationStage

variable {u : CharTables} {stage : PiiRestorationStage}

/-- What comes after the last fragment of a channel has no fragments of it; to flush it again is to do nothing. -/
theorem Fed.trans {stage₁ stage₂ stage₃ : PiiRestorationStage} {ch : Channel} {xs ys outs outs' : List Text} {P Q : Prop}
    (h : Fed u stage₁ stage₂ ch xs outs P) (h' : Fed u stage₂ stage₃ ch ys outs' Q) (hlast : P → ys = []) :
    Fed u stage₁ stage₃ ch (xs ++ ys) (outs ++ outs') (P ∨ Q) := by
  obtain ⟨finished, hfin, heq⟩ := h
  obtain ⟨finished', hfin', heq'⟩ := h'
  cases finished with
  | false =>
    refine ⟨finished', fun h => .inr (hfin' h), ?_⟩
    rw [StreamingWindowReplacer.after_append, heq, heq', List.flatten_append]
  | true =>
    refine ⟨true, fun _ => .inl (hfin rfl), ?_⟩
    obtain rfl := hlast (hfin rfl)
    have hpending : (stage₂.replacer ch).pending = [] := by
      have hflushed : stage₂.replacer ch = (((stage₁.replacer ch).processAll u xs).2.flush u).2 :=
        (congrArg Prod.snd heq).symm
      rw [hflushed]
      exact StreamingWindowReplacer.flush_pending _ _
    have hsame : (stage₂.replacer ch).after u [] finished' = ([], stage₂.replacer ch) := by
      cases finished' with
      | false => rfl
      | true => exact flush_of_pending hpending
    rw [hsame, Prod.mk.injEq] at heq'
    rw [List.append_nil, List.flatten_append, ← heq'.1, List.append_nil, ← heq'.2, heq]

/-- The loop over `choices`. -/
theorem processChoices_fed {ch : Channel} {choices : List Choice} {k : Nat} (hlast : FinishLast (choices.zipIdx k))
    (hone : FinishOnce ch (choices.zipIdx k)) :
    Fed u stage (processChoices u stage (choices.zipIdx k)).2 ch (fragments ch (choices.zipIdx k))
      (fragments ch ((processChoices u stage (choices.zipIdx k)).1.zipIdx k)) (Finishes ch (choices.zipIdx k)) := by
  induction choices generalizing stage k with
  | nil => exact fed_same rfl _
  | cons choice choices ih =>
    rw [List.zipIdx_cons] at hlast hone ⊢
    have hhead := @processChoice_fed u stage choice k ch (hone (choice, k) (by simp))
    have htail := @ih (stage.processChoice u choice k).2 (k + 1) (List.pairwise_cons.mp hlast).2
      fun e he => hone e (List.mem_cons_of_mem _ he)
    have hsplit : ∀ rest : List (Choice × Nat), (choice, k) :: rest = [(choice, k)] ++ rest := fun _ => rfl
    obtain ⟨finished, hfin, heq⟩ := hhead.trans htail fun hfin => by
      rw [hsplit] at hlast
      exact fragments_of_finishes hlast ⟨_, List.mem_singleton_self _, hfin⟩
    refine ⟨finished, fun h => ?_, ?_⟩
    · rcases hfin h with hfin | ⟨e, he, hfin⟩
      · exact ⟨_, List.mem_cons_self, hfin⟩
      · exact ⟨e, List.mem_cons_of_mem _ he, hfin⟩
    · unfold processChoices
      dsimp only
      rw [List.zipIdx_cons]
      exact heq

/-! ### What the choices leave alone -/

/-- The templates and the state of a raw stream are those of another stage. -/
structure Keeps (stage stage' : PiiRestorationStage) : Prop where
  contentTemplate : stage'.contentTemplate = stage.contentTemplate
  toolTemplate : stage'.toolTemplate = stage.toolTemplate
  rawReplacer : stage'.rawReplacer = stage.rawReplacer
  rawStream : stage'.rawStream = stage.rawStream
  bufferedJson : stage'.bufferedJson = stage.bufferedJson

theorem Keeps.refl (stage : PiiRestorationStage) : Keeps stage stage := ⟨rfl, rfl, rfl, rfl, rfl⟩

theorem Keeps.trans {stage₁ stage₂ stage₃ : PiiRestorationStage} (h : Keeps stage₁ stage₂) (h' : Keeps stage₂ stage₃) :
    Keeps stage₁ stage₃ :=
  ⟨h'.contentTemplate.trans h.contentTemplate, h'.toolTemplate.trans h.toolTemplate,
    h'.rawReplacer.trans h.rawReplacer, h'.rawStream.trans h.rawStream, h'.bufferedJson.trans h.bufferedJson⟩

theorem setReplacer_keeps (stage : PiiRestorationStage) (field : Field) (choiceIdx : Nat) (r : StreamingWindowReplacer) :
    Keeps stage (stage.setReplacer field choiceIdx r) := by
  cases field <;> exact ⟨rfl, rfl, rfl, rfl, rfl⟩

theorem processField_keeps (field : Field) (choiceIdx : Nat) (value : Option Text) (finish : Bool) :
    Keeps stage (stage.processField u field choiceIdx value finish).2 := by
  unfold processField
  cases value with
  | some fragment => exact setReplacer_keeps _ _ _ _
  | none =>
    dsimp only
    split
    · split
      · exact .refl _
      · exact setReplacer_keeps _ _ _ _
    · exact .refl _

theorem processToolCalls_keeps (choiceIdx : Nat) (finish : Bool) (tcs : List (ToolCall × Nat)) :
    Keeps stage (processToolCalls u choiceIdx finish stage tcs).2 := by
  induction tcs generalizing stage with
  | nil => exact .refl _
  | cons entry rest ih =>
    unfold processToolCalls
    cases entry.1.arguments with
    | none => exact ih
    | some args =>
      dsimp only
      refine .trans ?_ ih
      exact ⟨rfl, rfl, rfl, rfl, rfl⟩

theorem flushTools_keeps (choiceIdx : Nat) : Keeps stage (stage.flushTools u choiceIdx).2 := ⟨rfl, rfl, rfl, rfl, rfl⟩

theorem processTools_keeps (choiceIdx : Nat) (toolCalls : Option (List ToolCall)) (finish : Bool) :
    Keeps stage (stage.processTools u choiceIdx toolCalls finish).2 := by
  unfold processTools
  cases toolCalls with
  | some tcs => exact processToolCalls_keeps _ _ _
  | none =>
    dsimp only
    split
    · exact flushTools_keeps _
    · exact .refl _

theorem processChoice_keeps (choice : Choice) (arrIdx : Nat) : Keeps stage (stage.processChoice u choice arrIdx).2 := by
  unfold processChoice
  cases choice.delta with
  | some delta =>
    dsimp only
    refine .trans ?_ (processField_keeps _ _ _ _)
    refine .trans ?_ (processTools_keeps _ _ _)
    exact .trans (processField_keeps _ _ _ _) (processField_keeps _ _ _ _)
  | none =>
    cases choice.text with
    | some text => exact processField_keeps _ _ _ _
    | none => exact processField_keeps _ _ _ _

theorem processChoices_keeps (entries : List (Choice × Nat)) : Keeps stage (processChoices u stage entries).2 := by
  induction entries generalizing stage with
  | nil => exact .refl _
  | cons entry entries ih => exact .trans (processChoice_keeps _ _) ih

/-! ### Chunks -/

/-- A choice that is not changed has no fragments. -/
theorem fragments_of_not_changed {choice : Choice} (h : changed choice = false) (arrIdx : Nat) (ch : Channel) :
    choice.fragments arrIdx ch = [] := by
  unfold changed at h
  unfold Choice.fragments
  split
  · cases hdelta : choice.delta with
    | some delta =>
      rw [hdelta] at h
      simp only [Bool.or_eq_false_iff, Option.isSome_eq_false_iff, Option.isNone_iff_eq_none, List.any_eq_false] at h
      obtain ⟨⟨⟨hcontent, hreasoning⟩, htext⟩, htools⟩ := h
      cases ch with
      | field f c => cases f <;> simp [Choice.get, Delta.get, hdelta, hcontent, hreasoning, htext]
      | tool c t =>
        dsimp only [toolFragments]
        rw [List.filterMap_eq_nil_iff]
        rintro ⟨tc, i⟩ htc
        have hmem := htools tc (List.fst_mem_of_mem_zipIdx htc)
        split
        · simpa using hmem
        · rfl
    | none =>
      rw [hdelta] at h
      cases ch with
      | field f c => cases f <;> simp_all [Choice.get]
      | tool c t => rfl
  · rfl

private theorem processField_isSome {field : Field} {choiceIdx : Nat} {value : Option Text} {finish : Bool}
    (h : value.isSome = true) : (stage.processField u field choiceIdx value finish).1.isSome = true := by
  cases value with
  | some fragment => rfl
  | none => simp at h

private theorem processToolCalls_any {choiceIdx : Nat} {finish : Bool} {tcs : List (ToolCall × Nat)}
    (h : tcs.any (fun entry => entry.1.arguments.isSome) = true) :
    (processToolCalls u choiceIdx finish stage tcs).1.any (fun tc => tc.arguments.isSome) = true := by
  induction tcs generalizing stage with
  | nil => simp at h
  | cons entry rest ih =>
    obtain ⟨tc, i⟩ := entry
    unfold processToolCalls
    cases hargs : tc.arguments with
    | none =>
      have hrest : rest.any (fun entry => entry.1.arguments.isSome) = true := by simpa [hargs] using h
      simpa [hargs] using ih hrest
    | some args => simp

/-- A choice that is not changed by the stage has no fragments. -/
theorem fragments_of_processed_not_changed {choice : Choice} {arrIdx : Nat}
    (h : changed (stage.processChoice u choice arrIdx).1 = false) (ch : Channel) : choice.fragments arrIdx ch = [] := by
  refine fragments_of_not_changed ?_ arrIdx ch
  rw [← Bool.not_eq_true] at h ⊢
  intro hchanged
  refine h ?_
  unfold changed at hchanged
  cases hdelta : choice.delta with
  | some delta =>
    obtain ⟨p₁, p₂, p₃, p₄, h₁, h₂, h₃, h₄, heq⟩ := @processChoice_delta u stage choice delta arrIdx hdelta
    rw [hdelta] at hchanged
    rw [heq]
    simp only [Bool.or_eq_true] at hchanged
    simp only [changed, Bool.or_eq_true]
    rcases hchanged with ((hc | hr) | ht) | htools
    · exact .inl (.inl (.inl (h₁ ▸ processField_isSome hc)))
    · exact .inl (.inl (.inr (h₂ ▸ processField_isSome hr)))
    · exact .inl (.inr (h₄ ▸ processField_isSome ht))
    · refine .inr ?_
      cases htcs : delta.toolCalls with
      | none => simp [htcs] at htools
      | some tcs =>
        rw [htcs] at htools
        rw [← h₃, htcs]
        refine processToolCalls_any ?_
        rw [Option.getD_some, List.any_eq_true] at htools
        obtain ⟨tc, htc, hargs⟩ := htools
        obtain ⟨i, hi⟩ := List.mem_iff_getElem?.mp htc
        rw [List.any_eq_true]
        exact ⟨(tc, i), List.mem_zipIdx_iff_getElem?.mpr hi, hargs⟩
  | none =>
    rw [hdelta] at hchanged
    unfold processChoice
    cases htext : choice.text with
    | none => simp [htext] at hchanged
    | some text => simp [hdelta, changed, processField]

theorem fragments_of_processChoices_not_changed {choices : List Choice} {k : Nat}
    (h : (processChoices u stage (choices.zipIdx k)).1.any changed = false) (ch : Channel) :
    fragments ch (choices.zipIdx k) = [] ∧
      fragments ch ((processChoices u stage (choices.zipIdx k)).1.zipIdx k) = [] := by
  induction choices generalizing stage k with
  | nil => exact ⟨rfl, rfl⟩
  | cons choice choices ih =>
    rw [List.zipIdx_cons] at h ⊢
    unfold processChoices at h ⊢
    dsimp only at h ⊢
    rw [List.any_cons, Bool.or_eq_false_iff] at h
    obtain ⟨hrest, hrest'⟩ := ih h.2
    unfold fragments at hrest hrest' ⊢
    rw [List.zipIdx_cons, List.flatMap_cons, List.flatMap_cons, hrest, hrest', List.append_nil, List.append_nil]
    exact ⟨fragments_of_processed_not_changed h.1 ch, fragments_of_not_changed h.1 k ch⟩

/-- A stage that reads every payload as JSON. -/
structure Ready (stage : PiiRestorationStage) : Prop where
  nonempty : stage.isEmpty = false
  rawStream : stage.rawStream = false
  bufferedJson : stage.bufferedJson = []

theorem Keeps.ready {stage' : PiiRestorationStage} (h : Keeps stage stage') (hready : stage.Ready) : stage'.Ready where
  nonempty := by
    unfold isEmpty
    rw [h.contentTemplate]
    exact hready.nonempty
  rawStream := h.rawStream.trans hready.rawStream
  bufferedJson := h.bufferedJson.trans hready.bufferedJson

/-- The payload of a chunk is a JSON object. -/
theorem processChunk_object {parse : Text → Parsed} {payload : Text} {choices : Option (List Choice)}
    (hready : stage.Ready) (hparse : parse payload = .object choices) :
    stage.processChunk u parse payload =
      (if (processChoices u stage (choices.getD []).zipIdx).1.any changed then
        .mutateChoices (processChoices u stage (choices.getD []).zipIdx).1 else .passthrough,
        (processChoices u stage (choices.getD []).zipIdx).2) := by
  have hsame : ({ stage with bufferedJson := [] } : PiiRestorationStage) = stage := by
    rw [← hready.bufferedJson]
  unfold processChunk
  rw [if_neg (by simp [hready.nonempty]), if_neg (by simp [hready.rawStream])]
  simp only [hready.bufferedJson, List.nil_append, hsame, hparse, List.isEmpty_nil, Bool.not_true, Bool.false_eq_true,
    ↓reduceIte]
  split <;> rfl

theorem processChunk_fed {parse : Text → Parsed} {payload : Text} {choices : Option (List Choice)} {ch : Channel}
    (hready : stage.Ready) (hparse : parse payload = .object choices) (hlast : FinishLast (choices.getD []).zipIdx)
    (hone : FinishOnce ch (choices.getD []).zipIdx) :
    Keeps stage (stage.processChunk u parse payload).2 ∧
      Fed u stage (stage.processChunk u parse payload).2 ch (fragments ch (choices.getD []).zipIdx)
        (fragments ch ((stage.processChunk u parse payload).1.choices (.object choices)).zipIdx)
        (Finishes ch (choices.getD []).zipIdx) := by
  have hfed := @processChoices_fed u stage ch (choices.getD []) 0 hlast hone
  rw [processChunk_object hready hparse]
  refine ⟨processChoices_keeps _, ?_⟩
  dsimp only
  split
  · exact hfed
  · rename_i hchanged
    rw [Bool.not_eq_true] at hchanged
    obtain ⟨hin, hout⟩ := fragments_of_processChoices_not_changed hchanged ch
    show Fed _ _ _ _ _ (fragments ch (choices.getD []).zipIdx) _
    rw [hout, hin] at hfed
    rw [hin]
    exact hfed

theorem processChunks_fed {parse : Text → Parsed} {payloads : List Text} {ch : Channel} (hready : stage.Ready)
    (hparse : ∀ payload ∈ payloads, ∃ choices, parse payload = .object choices)
    (hlast : FinishLast (inputEntries parse payloads)) (hone : FinishOnce ch (inputEntries parse payloads)) :
    Keeps stage (processChunks u parse stage payloads).2 ∧
      Fed u stage (processChunks u parse stage payloads).2 ch (fragments ch (inputEntries parse payloads))
        (fragments ch (emittedEntries parse payloads (processChunks u parse stage payloads).1))
        (Finishes ch (inputEntries parse payloads)) := by
  induction payloads generalizing stage with
  | nil => exact ⟨.refl _, fed_same rfl _⟩
  | cons payload payloads ih =>
    obtain ⟨choices, hobject⟩ := hparse payload List.mem_cons_self
    have hin : inputEntries parse (payload :: payloads) = (choices.getD []).zipIdx ++ inputEntries parse payloads := by
      simp [inputEntries, hobject, Parsed.choices]
    rw [hin] at hlast hone ⊢
    obtain ⟨hkeeps, hhead⟩ := @processChunk_fed u stage parse payload choices ch hready hobject
      (List.pairwise_append.mp hlast).1 fun e he => hone e (List.mem_append_left _ he)
    obtain ⟨hkeeps', htail⟩ := ih (hkeeps.ready hready) (fun p hp => hparse p (List.mem_cons_of_mem _ hp))
      (List.pairwise_append.mp hlast).2.1 fun e he => hone e (List.mem_append_right _ he)
    refine ⟨hkeeps.trans hkeeps', ?_⟩
    obtain ⟨finished, hfin, heq⟩ := hhead.trans htail fun hfin => fragments_of_finishes hlast hfin
    refine ⟨finished, fun h => ?_, ?_⟩
    · rcases hfin h with ⟨e, he, hfin⟩ | ⟨e, he, hfin⟩
      · exact ⟨e, List.mem_append_left _ he, hfin⟩
      · exact ⟨e, List.mem_append_right _ he, hfin⟩
    · rw [fragments_append, heq, ← hobject, ← fragments_append]
      rfl

theorem processChunks_append (parse : Text → Parsed) (payloads payloads' : List Text) :
    processChunks u parse stage (payloads ++ payloads') =
      ((processChunks u parse stage payloads).1 ++
        (processChunks u parse (processChunks u parse stage payloads).2 payloads').1,
        (processChunks u parse (processChunks u parse stage payloads).2 payloads').2) := by
  induction payloads generalizing stage with
  | nil => rfl
  | cons payload payloads ih =>
    rw [List.cons_append, processChunks, processChunks]
    dsimp only
    rw [ih]
    rfl

theorem length_processChunks (parse : Text → Parsed) (payloads : List Text) :
    (processChunks u parse stage payloads).1.length = payloads.length := by
  induction payloads generalizing stage with
  | nil => rfl
  | cons payload payloads ih =>
    rw [processChunks]
    dsimp only
    rw [List.length_cons, List.length_cons, ih]

theorem emittedEntries_append (parse : Text → Parsed) {payloads payloads' : List Text} {actions actions' : List StreamAction}
    (h : actions.length = payloads.length) :
    emittedEntries parse (payloads ++ payloads') (actions ++ actions') =
      emittedEntries parse payloads actions ++ emittedEntries parse payloads' actions' := by
  unfold emittedEntries
  rw [List.zip_append h.symm, List.flatMap_append]

/-! ### The end of the stream -/

/-- The templates hold nothing back. -/
structure Fresh (stage : PiiRestorationStage) : Prop where
  content : stage.contentTemplate.pending = []
  tool : stage.toolTemplate.pending = []
  raw : stage.rawReplacer.pending = []

theorem Keeps.fresh {stage' : PiiRestorationStage} (h : Keeps stage stage') (hfresh : stage.Fresh) : stage'.Fresh where
  content := by rw [h.contentTemplate, hfresh.content]
  tool := by rw [h.toolTemplate, hfresh.tool]
  raw := by rw [h.rawReplacer, hfresh.raw]

theorem processField_flush (hfresh : stage.Fresh) (field : Field) (choiceIdx : Nat) :
    ((stage.processField u field choiceIdx none true).1.toList.flatten,
      (stage.processField u field choiceIdx none true).2.replacer (.field field choiceIdx)) =
      (stage.replacer (.field field choiceIdx)).flush u := by
  unfold processField
  simp only [↓reduceIte]
  cases hr : (stage.replacers field).lookup choiceIdx with
  | none =>
    have hrep : stage.replacer (.field field choiceIdx) = stage.contentTemplate := by simp [replacer, fieldReplacer, hr]
    rw [hrep, flush_of_pending hfresh.content]
    simp
  | some r =>
    have hrep : stage.replacer (.field field choiceIdx) = r := by simp [replacer, fieldReplacer, hr]
    rw [hrep]
    simp only [replacer_setReplacer, ↓reduceIte]
    split
    · rename_i hempty
      rw [List.isEmpty_iff] at hempty
      simp [Prod.ext_iff, hempty]
    · simp

theorem flushTools_flush (hfresh : stage.Fresh) (choiceIdx toolIdx : Nat) :
    ((toolFragments toolIdx ((stage.flushTools u choiceIdx).1.getD []).zipIdx).flatten,
      (stage.flushTools u choiceIdx).2.replacer (.tool choiceIdx toolIdx)) =
      (stage.replacer (.tool choiceIdx toolIdx)).flush u := by
  rw [flushTools_fragments, replacer_flushTools]
  cases hr : stage.toolReplacers.lookup (choiceIdx, toolIdx) with
  | none =>
    have hrep : stage.replacer (.tool choiceIdx toolIdx) = stage.toolTemplate := by simp [replacer, toolReplacer, hr]
    rw [hrep, flush_of_pending hfresh.tool]
    rfl
  | some r =>
    have hrep : stage.replacer (.tool choiceIdx toolIdx) = r := by simp [replacer, toolReplacer, hr]
    rw [hrep, Option.bind_some, residue_toList]
    rfl

/-- The four steps of `finalize` for a choice. -/
private theorem finalizeChoices_cons (u : CharTables) (stage : PiiRestorationStage) (choiceIdx : Nat) (rest : List Nat) :
    ∃ p₁ p₂ p₃ p₄,
      stage.processField u .content choiceIdx none true = p₁ ∧
      p₁.2.processField u .reasoningContent choiceIdx none true = p₂ ∧
      p₂.2.processField u .text choiceIdx none true = p₃ ∧ p₃.2.flushTools u choiceIdx = p₄ ∧
      finalizeChoices u stage (choiceIdx :: rest) =
        (if (⟨p₁.1, p₂.1, p₄.1, p₃.1⟩ : Delta) = Delta.empty then (finalizeChoices u p₄.2 rest).1 else
          ⟨some choiceIdx, false, some ⟨p₁.1, p₂.1, p₄.1, p₃.1⟩, none⟩ :: (finalizeChoices u p₄.2 rest).1,
          (finalizeChoices u p₄.2 rest).2) :=
  ⟨_, _, _, _, rfl, rfl, rfl, rfl, rfl⟩

/-- Every channel of a choice is flushed. -/
theorem finalizeChoices_flush (hfresh : stage.Fresh) (choiceIndices : List Nat) (ch : Channel) (k : Nat) :
    (fragments ch ((finalizeChoices u stage choiceIndices).1.zipIdx k)).flatten =
      if ch.choiceIdx ∈ choiceIndices then ((stage.replacer ch).flush u).1 else [] := by
  induction choiceIndices generalizing stage k with
  | nil => rfl
  | cons i rest ih =>
    obtain ⟨p₁, p₂, p₃, p₄, h₁, h₂, h₃, h₄, heq⟩ := finalizeChoices_cons u stage i rest
    have hkeeps₁ : Keeps stage p₁.2 := h₁ ▸ processField_keeps _ _ _ _
    have hkeeps₂ : Keeps stage p₂.2 := hkeeps₁.trans (h₂ ▸ processField_keeps _ _ _ _)
    have hkeeps₃ : Keeps stage p₃.2 := hkeeps₂.trans (h₃ ▸ processField_keeps _ _ _ _)
    have hkeeps : Keeps stage p₄.2 := hkeeps₃.trans (h₄ ▸ flushTools_keeps _)
    have htail := fun k => @ih p₄.2 (hkeeps.fresh hfresh) k
    -- the delta of the choice, also if it is left out because it is empty
    have hhead : fragments ch ((finalizeChoices u stage (i :: rest)).1.zipIdx k) =
        (⟨some i, false, some ⟨p₁.1, p₂.1, p₄.1, p₃.1⟩, none⟩ : Choice).fragments k ch ++
          fragments ch ((finalizeChoices u p₄.2 rest).1.zipIdx
            (if (⟨p₁.1, p₂.1, p₄.1, p₃.1⟩ : Delta) = Delta.empty then k else k + 1)) := by
      rw [heq]
      dsimp only
      split
      · rename_i hempty
        rw [hempty, fragments_of_not_changed (show changed ⟨some i, false, some Delta.empty, none⟩ = false from rfl)]
        rfl
      · rw [List.zipIdx_cons]
        rfl
    rw [hhead, List.flatten_append, htail]
    by_cases hidx : i = ch.choiceIdx
    · have hflush : (((⟨some i, false, some ⟨p₁.1, p₂.1, p₄.1, p₃.1⟩, none⟩ : Choice).fragments k ch).flatten,
          p₄.2.replacer ch) = (stage.replacer ch).flush u := by
        unfold Choice.fragments
        rw [if_pos (show Choice.choiceIdx ⟨some i, _, _, _⟩ k = ch.choiceIdx from hidx)]
        cases ch with
        | field f c =>
          obtain rfl : i = c := hidx
          have hlast : ∀ stage : PiiRestorationStage,
              (stage.flushTools u i).2.replacer (.field f i) = stage.replacer (.field f i) :=
            fun stage => flushTools_other (by simp)
          cases f with
          | content =>
            rw [← processField_flush hfresh, h₁, ← h₄, hlast, ← h₃, processField_other (by simp), ← h₂,
              processField_other (by simp)]
            rfl
          | reasoningContent =>
            have hbefore : p₁.2.replacer (.field .reasoningContent i) = stage.replacer (.field .reasoningContent i) := by
              rw [← h₁, processField_other (by simp)]
            rw [← hbefore, ← processField_flush (hkeeps₁.fresh hfresh), h₂, ← h₄, hlast, ← h₃,
              processField_other (by simp)]
            rfl
          | text =>
            have hbefore : p₂.2.replacer (.field .text i) = stage.replacer (.field .text i) := by
              rw [← h₂, processField_other (by simp), ← h₁, processField_other (by simp)]
            rw [← hbefore, ← processField_flush (hkeeps₂.fresh hfresh), h₃, ← h₄, hlast]
            rfl
        | tool c t =>
          obtain rfl : i = c := hidx
          have hbefore : p₃.2.replacer (.tool i t) = stage.replacer (.tool i t) := by
            rw [← h₃, processField_other (by simp), ← h₂, processField_other (by simp), ← h₁,
              processField_other (by simp)]
          rw [← hbefore, ← flushTools_flush (hkeeps₃.fresh hfresh), h₄]
      obtain ⟨hout, hrep⟩ := Prod.ext_iff.mp hflush
      dsimp only at hout hrep
      have hagain : ((p₄.2.replacer ch).flush u).1 = [] := by
        rw [hrep, flush_of_pending]
        exact StreamingWindowReplacer.flush_pending _ _
      rw [hout, hagain, ite_self, List.append_nil, if_pos (by simp [hidx])]
    · have hnone : (⟨some i, false, some ⟨p₁.1, p₂.1, p₄.1, p₃.1⟩, none⟩ : Choice).fragments k ch = [] :=
        if_neg hidx
      have hsame : p₄.2.replacer ch = stage.replacer ch := by
        have hfield : ∀ f, ch ≠ .field f i := by
          rintro f rfl
          exact hidx rfl
        have htool : ∀ t, ch ≠ .tool i t := by
          rintro t rfl
          exact hidx rfl
        rw [← h₄, flushTools_other htool, ← h₃, processField_other (hfield _), ← h₂, processField_other (hfield _),
          ← h₁, processField_other (hfield _)]
      have hmem : ch.choiceIdx ∈ i :: rest ↔ ch.choiceIdx ∈ rest := by
        rw [List.mem_cons]
        exact or_iff_right (Ne.symm hidx)
      simp only [hnone, hsame, hmem, List.flatten_nil, List.nil_append]

/-- A channel that has not been fed has the replacer of its template. -/
theorem flush_of_not_mem (hfresh : stage.Fresh) {ch : Channel} (h : ch.choiceIdx ∉ stage.choiceIndices) :
    ((stage.replacer ch).flush u).1 = [] := by
  unfold choiceIndices at h
  rw [(List.perm_insertionSort _ _).mem_iff, List.mem_dedup] at h
  simp only [List.mem_append, not_or, List.mem_map, not_exists, not_and] at h
  obtain ⟨⟨⟨hcontent, hreasoning⟩, htext⟩, htool⟩ := h
  cases ch with
  | field f c =>
    have hnone : (stage.replacers f).lookup c = none := by
      rw [AList.lookup_eq_none]
      cases f with
      | content => exact hcontent
      | reasoningContent => exact hreasoning
      | text => exact htext
    have hrep : stage.replacer (.field f c) = stage.contentTemplate := by simp [replacer, fieldReplacer, hnone]
    rw [hrep, flush_of_pending hfresh.content]
  | tool c t =>
    have hnone : stage.toolReplacers.lookup (c, t) = none := by
      rw [AList.lookup_eq_none]
      exact fun hmem => htool (c, t) hmem rfl
    have hrep : stage.replacer (.tool c t) = stage.toolTemplate := by simp [replacer, toolReplacer, hnone]
    rw [hrep, flush_of_pending hfresh.tool]

/-- What `finalize` returns of a channel is what its replacer still holds. -/
theorem finalize_flush (hfresh : stage.Fresh) (ch : Channel) :
    (fragments ch (residualEntries (stage.finalize u).1)).flatten = ((stage.replacer ch).flush u).1 := by
  unfold finalize
  split
  · rename_i hempty
    simp only [Bool.and_eq_true, List.isEmpty_iff] at hempty
    obtain ⟨⟨⟨hcontent, hreasoning⟩, htext⟩, htool⟩ := hempty
    rw [flush_of_pending hfresh.raw]
    have hnone : ch.choiceIdx ∉ stage.choiceIndices := by
      simp [choiceIndices, AList.keys, hcontent, hreasoning, htext, htool]
    rw [flush_of_not_mem hfresh hnone]
    rfl
  · dsimp only
    have hentries : ∀ choices : List Choice, residualEntries (if choices.isEmpty then none else some (.choices choices)) =
        choices.zipIdx := by
      intro choices
      cases choices <;> rfl
    rw [hentries, finalizeChoices_flush hfresh]
    split
    · rfl
    · rename_i hnone
      rw [flush_of_not_mem hfresh hnone]

/-! ### The stage of a session -/

/-- The replacer with which a channel begins. -/
def template (stage : PiiRestorationStage) : Channel → StreamingWindowReplacer
  | .field _ _ => stage.contentTemplate
  | .tool _ _ => stage.toolTemplate

theorem template_new (s : PiiSession) (order order' : HashOrder) (ch : Channel) :
    ∃ mapping, (new s order order').template ch = .new mapping order' ∧
      ∀ a, (mapping.lookup a).isSome = ((s.restorationMapping order).lookup a).isSome := by
  have hmapping : (if s.reversible then s.restorationMapping order else ∅) = s.restorationMapping order := by
    unfold PiiSession.restorationMapping
    split <;> rfl
  cases ch with
  | field f c => exact ⟨_, rfl, fun a => by rw [hmapping]⟩
  | tool c t =>
    refine ⟨_, rfl, fun a => ?_⟩
    rw [hmapping, Table.lookup_mapValues, Option.isSome_map]

theorem patEndsToken_template (u : CharTables) {s : PiiSession} (h : s.WellSpelled) {order order' : HashOrder}
    {ch : Channel} {pair : Text × Text} (hpair : pair ∈ ((new s order order').template ch).pairs) :
    StreamingWindowReplacer.patEndsToken u pair.1 = true := by
  obtain ⟨mapping, hnew, hkeys⟩ := template_new s order order' ch
  rw [hnew, mem_new_pairs] at hpair
  have hsome := hkeys pair.1
  rw [hpair] at hsome
  obtain ⟨o, ho⟩ := Option.isSome_iff_exists.mp hsome.symm
  exact patEndsToken_of_endsInWord u (h.restorationMapping ho)

/-- The templates have the same patterns. -/
theorem template_pairs_eq_nil {s : PiiSession} {order order' : HashOrder} (ch ch' : Channel)
    (h : ((new s order order').template ch).pairs = []) : ((new s order order').template ch').pairs = [] := by
  obtain ⟨mapping, hnew, hkeys⟩ := template_new s order order' ch
  obtain ⟨mapping', hnew', hkeys'⟩ := template_new s order order' ch'
  rw [hnew] at h
  rw [hnew', List.eq_nil_iff_forall_not_mem]
  intro pair hpair
  rw [mem_new_pairs] at hpair
  have hsome : (mapping.lookup pair.1).isSome = true := by rw [hkeys, ← hkeys', hpair, Option.isSome_some]
  obtain ⟨o, ho⟩ := Option.isSome_iff_exists.mp hsome
  have hmem : (pair.1, o) ∈ (StreamingWindowReplacer.new mapping order').pairs :=
    mem_new_pairs.mpr ho
  rw [h] at hmem
  exact List.not_mem_nil hmem

/-- Without patterns every chunk is passed through. -/
theorem processChunks_of_isEmpty {parse : Text → Parsed} (h : stage.isEmpty = true) (payloads : List Text) :
    processChunks u parse stage payloads = (payloads.map fun _ => .passthrough, stage) := by
  induction payloads with
  | nil => rfl
  | cons payload payloads ih =>
    have hchunk : stage.processChunk u parse payload = (.passthrough, stage) := if_pos h
    rw [processChunks, hchunk]
    simp [ih]

theorem emittedEntries_passthrough (parse : Text → Parsed) (payloads : List Text) :
    emittedEntries parse payloads (payloads.map fun _ => .passthrough) = inputEntries parse payloads := by
  induction payloads with
  | nil => rfl
  | cons payload payloads ih =>
    unfold emittedEntries inputEntries at ih ⊢
    rw [List.map_cons, List.zip_cons_cons, List.flatMap_cons, List.flatMap_cons, ih]
    rfl

/-- What the client receives on a channel of the stage of a session. -/
theorem fragments_of_wellSpelled (u : CharTables) {s : PiiSession} (hspelled : s.WellSpelled) (order order' : HashOrder)
    (parse : Text → Parsed) (payloads : List Text)
    (hparse : ∀ payload ∈ payloads, ∃ choices, parse payload = .object choices)
    (hlast : FinishLast (inputEntries parse payloads)) (ch : Channel)
    (hone : FinishOnce ch (inputEntries parse payloads))
    (hsafe : ChunksSafe u ((new s order order').template ch).pairs none
      (fragments ch (inputEntries parse payloads))) :
    (fragments ch (emittedEntries parse payloads (processChunks u parse (new s order order') payloads).1 ++
      residualEntries ((processChunks u parse (new s order order') payloads).2.finalize u).1)).flatten =
      ((new s order order').template ch).restoreChunks u [(fragments ch (inputEntries parse payloads)).flatten] := by
  have hfresh : (new s order order').Fresh := ⟨rfl, rfl, rfl⟩
  have hstart : (new s order order').replacer ch = (new s order order').template ch := by
    cases ch with
    | field f c => cases f <;> rfl
    | tool c t => rfl
  have hpending : ((new s order order').template ch).pending = [] ∧
      ((new s order order').template ch).lastChar = none := by
    cases ch <;> exact ⟨rfl, rfl⟩
  have hends : ∀ pair ∈ ((new s order order').template ch).pairs,
      StreamingWindowReplacer.patEndsToken u pair.1 = true := fun pair hpair => patEndsToken_template u hspelled hpair
  have hraw : (new s order order').rawStream = false ∧ (new s order order').bufferedJson = [] := ⟨rfl, rfl⟩
  have hempty : (new s order order').isEmpty = true → ((new s order order').template ch).pairs = [] := by
    intro h
    exact template_pairs_eq_nil (.field .content 0) ch (List.isEmpty_iff.mp h)
  generalize new s order order' = stage at *
  generalize hfrags : fragments ch (inputEntries parse payloads) = frags at *
  by_cases hnone : stage.isEmpty = true
  · -- nothing is restored
    rw [processChunks_of_isEmpty hnone, emittedEntries_passthrough, fragments_append, List.flatten_append,
      finalize_flush hfresh, hfrags, hstart, flush_of_pending hpending.1,
      StreamingWindowReplacer.restoreChunks_nil (hempty hnone) hpending.1]
    simp
  · have hready : stage.Ready := ⟨by simpa using hnone, hraw.1, hraw.2⟩
    obtain ⟨hkeeps, finished, -, hfed⟩ := @processChunks_fed u stage parse payloads ch hready hparse hlast hone
    have hall := StreamingWindowReplacer.after_flush u (stage.replacer ch) frags finished
    rw [hfrags] at hfed
    rw [hfed, hstart] at hall
    rw [fragments_append, List.flatten_append, finalize_flush (hkeeps.fresh hfresh), hall,
      StreamingWindowReplacer.restoreChunks_whole hends hpending.1 hpending.2 hsafe]

/-- Isolation of the channels: for every session that a run of calls leads to and every sequence of JSON objects, what
the client receives on a channel whose fragments end at safe offsets is the restoration of what the provider sent on this
channel, in one piece. -/
theorem channel_restored (u : CharTables) (reversible : Bool) (calls : List Call) (s : PiiSession)
    (registered : Table Text PiiEntity) (hrun : PiiSession.run u reversible calls = some (s, registered))
    (order order' : HashOrder) (parse : Text → Parsed) (payloads : List Text)
    (hparse : ∀ payload ∈ payloads, ∃ choices, parse payload = .object choices)
    (hlast : FinishLast (inputEntries parse payloads)) (ch : Channel)
    (hone : FinishOnce ch (inputEntries parse payloads))
    (hsafe : ChunksSafe u ((new s order order').template ch).pairs none
      (fragments ch (inputEntries parse payloads))) :
    (fragments ch (emittedEntries parse payloads (processChunks u parse (new s order order') payloads).1 ++
      residualEntries ((processChunks u parse (new s order order') payloads).2.finalize u).1)).flatten =
      ((new s order order').template ch).restoreChunks u [(fragments ch (inputEntries parse payloads)).flatten] :=
  fragments_of_wellSpelled u ((PiiSession.new_wellSpelled reversible).runFrom hrun) order order' parse payloads hparse hlast
    ch hone hsafe

/-- A payload with one choice that carries content. -/
def contentPayload (content finishReason : Text) : Text :=
  "\x7b\"choices\":[\x7b\"index\":0,\"delta\":\x7b\"content\":\"".toList ++ content ++
    "\"\x7d,\"finish_reason\":".toList ++ finishReason ++ "\x7d]\x7d".toList

/-- A payload in which another choice comes first. -/
def secondChoicePayload (content : Text) : Text :=
  "\x7b\"choices\":[\x7b\"index\":1,\"delta\":\x7b\"content\":\"Al\"\x7d\x7d,".toList ++
    "\x7b\"index\":0,\"delta\":\x7b\"content\":\"".toList ++ content ++ "\"\x7d\x7d]\x7d".toList

def contentChoice (index : Nat) (content : Text) (finish : Bool) : Choice :=
  ⟨some index, finish, some { Delta.empty with content := some content }, none⟩

def namePayloads : List Text :=
  [secondChoicePayload "met Al".toList, contentPayload "ex Vance.".toList "\"stop\"".toList]

/-- The JSON of these payloads. -/
def parseName (payload : Text) : Parsed :=
  if payload = secondChoicePayload "met Al".toList then
    .object (some [contentChoice 1 "Al".toList false, contentChoice 0 "met Al".toList false])
  else if payload = contentPayload "ex Vance.".toList "\"stop\"".toList then
    .object (some [contentChoice 0 "ex Vance.".toList true])
  else .error

/-- A name that is cut, while another choice holds the beginning of a name too. -/
theorem channel_restored_name :
    ∃ s registered, PiiSession.run .ascii true secretCalls = some (s, registered) ∧
      (fragments (.field .content 0) (emittedEntries parseName namePayloads
        (processChunks .ascii parseName (new s .latestFirst .latestFirst) namePayloads).1 ++
        residualEntries ((processChunks .ascii parseName (new s .latestFirst .latestFirst) namePayloads).2.finalize
          .ascii).1)).flatten =
        ((new s .latestFirst .latestFirst).template (.field .content 0)).restoreChunks .ascii
          ["met Alex Vance.".toList] := by
  have hread : (PiiSession.run .ascii true secretCalls).map (fun r => decide
      (ChunksSafe .ascii ((new r.1 .latestFirst .latestFirst).template (.field .content 0)).pairs none
        ["met Al".toList, "ex Vance.".toList])) = some true := by decide +kernel
  have hinput : fragments (.field .content 0) (inputEntries parseName namePayloads) =
      ["met Al".toList, "ex Vance.".toList] := by decide +kernel
  have hwhole : ["met Al".toList, "ex Vance.".toList].flatten = "met Alex Vance.".toList := by decide
  have hobjects : ∀ payload ∈ namePayloads, ∃ choices, parseName payload = .object choices := by
    intro payload hpayload
    simp only [namePayloads, List.mem_cons, List.not_mem_nil, or_false] at hpayload
    rcases hpayload with rfl | rfl
    · exact ⟨_, rfl⟩
    · exact ⟨some [contentChoice 0 "ex Vance.".toList true], by decide +kernel⟩
  simp only [Option.map_eq_some_iff] at hread
  obtain ⟨⟨s, registered⟩, hrun, hsafe⟩ := hread
  refine ⟨s, registered, hrun, ?_⟩
  have := channel_restored .ascii true secretCalls s registered hrun .latestFirst .latestFirst
    parseName namePayloads hobjects (by decide +kernel) (.field .content 0) (by decide +kernel)
    (hinput ▸ of_decide_eq_true hsafe)
  rwa [hinput, hwhole] at this

/-- The payloads of a channel that is not safe to cut. -/
def secretPayloads : List Text :=
  [contentPayload "xsec_5694189al".toList "null".toList, contentPayload "ex vance.".toList "\"stop\"".toList]

/-- The JSON of these payloads. -/
def parseSecret (payload : Text) : Parsed :=
  if payload = contentPayload "xsec_5694189al".toList "null".toList then
    .object (some [contentChoice 0 "xsec_5694189al".toList false])
  else if payload = contentPayload "ex vance.".toList "\"stop\"".toList then
    .object (some [contentChoice 0 "ex vance.".toList true])
  else .error

/-- The pending text of the channel begins inside a match that was rejected. -/
theorem channel_inside_rejected :
    ∃ s registered, PiiSession.run .ascii true secretCalls = some (s, registered) ∧
      FinishLast (inputEntries parseSecret secretPayloads) ∧
      fragments (.field .content 0) (inputEntries parseSecret secretPayloads) =
        ["xsec_5694189al".toList, "ex vance.".toList] ∧
      (fragments (.field .content 0) (emittedEntries parseSecret secretPayloads
        (processChunks .ascii parseSecret (new s .latestFirst .latestFirst) secretPayloads).1 ++
        residualEntries ((processChunks .ascii parseSecret (new s .latestFirst .latestFirst) secretPayloads).2.finalize
          .ascii).1)).flatten = "xsec_5694189alex vance.".toList ∧
      ((new s .latestFirst .latestFirst).template (.field .content 0)).restoreChunks .ascii
        ["xsec_5694189alex vance.".toList] = "xsec_5694189alex Smith.".toList := by
  have hread : (PiiSession.run .ascii true secretCalls).map (fun r =>
      ((fragments (.field .content 0) (emittedEntries parseSecret secretPayloads
        (processChunks .ascii parseSecret (new r.1 .latestFirst .latestFirst) secretPayloads).1 ++
        residualEntries ((processChunks .ascii parseSecret (new r.1 .latestFirst .latestFirst) secretPayloads).2.finalize
          .ascii).1)).flatten,
      ((new r.1 .latestFirst .latestFirst).template (.field .content 0)).restoreChunks .ascii
        ["xsec_5694189alex vance.".toList])) =
      some ("xsec_5694189alex vance.".toList, "xsec_5694189alex Smith.".toList) := by decide +kernel
  simp only [Option.map_eq_some_iff, Prod.mk.injEq] at hread
  obtain ⟨⟨s, registered⟩, hrun, hout, hwhole⟩ := hread
  exact ⟨s, registered, hrun, by decide +kernel, by decide +kernel, hout, hwhole⟩

end PiiRestorationStage

end OpenProxy.Pii
