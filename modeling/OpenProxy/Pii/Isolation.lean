import OpenProxy.Pii.Stage
import OpenProxy.Pii.Chunks

/-!
# The channels of the restoration stage

A channel is a string field of a choice, or the arguments of one of its tool calls.  What the stage does to the fragments
of a channel is what the replacer of the channel does to them alone: it processes them in their order and is flushed
once, whatever the other channels carry.
-/

namespace OpenProxy.Pii

/-- A string field of a choice, or the arguments of one of its tool calls. -/
inductive Channel
  | field (field : Field) (choiceIdx : Nat)
  | tool (choiceIdx toolIdx : Nat)
  deriving DecidableEq, Repr

/-- The choice of a channel. -/
def Channel.choiceIdx : Channel → Nat
  | .field _ choiceIdx => choiceIdx
  | .tool choiceIdx _ => choiceIdx

/-- The string of a field. -/
def Choice.get (choice : Choice) (field : Field) : Option Text :=
  match choice.delta with
  | some delta => delta.get field
  | none => if field = .text then choice.text else none

/-- The arguments of the tool calls with an index. -/
def toolFragments (toolIdx : Nat) (tcs : List (ToolCall × Nat)) : List Text :=
  tcs.filterMap fun (tc, tcArrIdx) => if tc.toolIdx tcArrIdx = toolIdx then tc.arguments else none

/-- The fragments of a channel that a choice carries. -/
def Choice.fragments (choice : Choice) (arrIdx : Nat) (ch : Channel) : List Text :=
  if choice.choiceIdx arrIdx = ch.choiceIdx then
    match ch with
    | .field field _ => (choice.get field).toList
    | .tool _ toolIdx =>
      match choice.delta with
      | some delta => toolFragments toolIdx (delta.toolCalls.getD []).zipIdx
      | none => []
  else []

/-- The fragments of a channel in a list of choices, each with its position. -/
def fragments (ch : Channel) (choices : List (Choice × Nat)) : List Text :=
  choices.flatMap fun (choice, arrIdx) => choice.fragments arrIdx ch

/-! ### One replacer -/

namespace StreamingWindowReplacer

variable {u : CharTables} {r : StreamingWindowReplacer}

/-- The fragments are processed, and the replacer is flushed if they are the last ones. -/
def after (u : CharTables) (r : StreamingWindowReplacer) (fragments : List Text) (finished : Bool) :
    Text × StreamingWindowReplacer :=
  let (out, r) := r.processAll u fragments
  if finished then (out ++ (r.flush u).1, (r.flush u).2) else (out, r)

@[simp] theorem after_nil : r.after u [] false = ([], r) := rfl

@[simp] theorem after_nil_true : r.after u [] true = r.flush u := rfl

theorem processAll_append (u : CharTables) (r : StreamingWindowReplacer) (xs ys : List Text) :
    r.processAll u (xs ++ ys) =
      ((r.processAll u xs).1 ++ ((r.processAll u xs).2.processAll u ys).1, ((r.processAll u xs).2.processAll u ys).2) := by
  induction xs generalizing r with
  | nil => rfl
  | cons x xs ih => simp only [List.cons_append, processAll, ih, List.append_assoc]

theorem after_append (u : CharTables) (r : StreamingWindowReplacer) (xs ys : List Text) (finished : Bool) :
    r.after u (xs ++ ys) finished =
      ((r.after u xs false).1 ++ ((r.after u xs false).2.after u ys finished).1,
        ((r.after u xs false).2.after u ys finished).2) := by
  unfold after
  cases finished <;> simp [processAll_append]

theorem feed_eq (u : CharTables) (r : StreamingWindowReplacer) (fragment : Text) (finished : Bool) :
    PiiRestorationStage.feed u r fragment finished = r.after u [fragment] finished := by
  unfold PiiRestorationStage.feed after
  cases finished <;> simp [processAll]

private theorem rightBoundary_eof (input : Text) (m : Match Text) : r.rightBoundary u input m true ≠ .undecided := by
  have hright : ∀ kind tail, extendsContactRight u kind tail true ≠ none := by
    intro kind tail
    unfold extendsContactRight
    cases tail with
    | nil => simp
    | cons first rest =>
      dsimp only
      split
      · simp
      · split
        · simp
        · split
          · cases rest <;> simp
          · simp
  unfold rightBoundary
  split
  · simp
  · split
    · simp
    · cases contactKind m.pattern with
      | none => simp
      | some kind =>
        have := hright kind (input.drop m.stop)
        cases hext : extendsContactRight u kind (input.drop m.stop) true with
        | none => exact absurd hext this
        | some b => cases b <;> simp [hext]

private theorem emitMatches_eof {input : Text} {undecidable : Option Nat} {ms : List (Match Text)} {out : Text}
    {lastEnd : Nat} {lastChar : Option Char} :
    (r.emitMatches u input true undecidable ms out lastEnd lastChar).pendingAt = none := by
  induction ms generalizing out lastEnd lastChar with
  | nil => rfl
  | cons m ms ih =>
    unfold emitMatches
    split
    · rfl
    · split
      · exact ih
      · dsimp only
        generalize (if m.start > 0 then (input.take m.start).getLast? else lastChar) = prevChar
        split
        · exact ih
        · cases hb : r.rightBoundary u input m true with
          | larger => exact ih
          | undecided => exact absurd hb (rightBoundary_eof input m)
          | delimiter => exact ih

/-- A replacer that has been flushed has nothing pending. -/
theorem flush_pending (u : CharTables) (r : StreamingWindowReplacer) : (r.flush u).2.pending = [] := by
  unfold flush
  split
  · rename_i h
    exact List.isEmpty_iff.mp h
  · unfold processInternal processInput
    dsimp only
    split
    · rfl
    · split
      · rfl
      · simp only [emitMatches_eof, emitTrailing, Bool.true_or, ↓reduceIte]
        split <;> rfl

theorem flush_of_pending (h : r.pending = []) : r.flush u = ([], r) := by simp [flush, h]

/-- In the end it does not matter whether the replacer had been flushed before. -/
theorem after_flush (u : CharTables) (r : StreamingWindowReplacer) (fragments : List Text) (finished : Bool) :
    (r.after u fragments finished).1 ++ ((r.after u fragments finished).2.flush u).1 = r.restoreChunks u fragments := by
  cases finished with
  | false => rfl
  | true =>
    have hagain : ((r.after u fragments true).2.flush u).1 = [] := by
      rw [flush_of_pending]
      exact flush_pending u _
    rw [hagain, List.append_nil]
    rfl

end StreamingWindowReplacer

namespace PiiRestorationStage

variable {u : CharTables} {stage : PiiRestorationStage}

/-- The replacer of a channel. -/
def replacer (stage : PiiRestorationStage) : Channel → StreamingWindowReplacer
  | .field field choiceIdx => stage.fieldReplacer field choiceIdx
  | .tool choiceIdx toolIdx => stage.toolReplacer choiceIdx toolIdx

/-- The fragments of a channel are processed by its replacer, which is flushed if `mayFlush` allows it. -/
def Fed (u : CharTables) (stage stage' : PiiRestorationStage) (ch : Channel) (frags outs : List Text)
    (mayFlush : Prop) : Prop :=
  ∃ finished : Bool, (finished = true → mayFlush) ∧
    (stage.replacer ch).after u frags finished = (outs.flatten, stage'.replacer ch)

theorem fed_same {stage' : PiiRestorationStage} {ch : Channel} (h : stage'.replacer ch = stage.replacer ch)
    (mayFlush : Prop) : Fed u stage stage' ch [] [] mayFlush :=
  ⟨false, by simp, by simp [h]⟩

/-- Before and after steps that do not concern the channel. -/
theorem Fed.frame {stage₁ stage₂ stage₃ : PiiRestorationStage} {ch : Channel} {frags outs : List Text} {mayFlush : Prop}
    (h : Fed u stage₁ stage₂ ch frags outs mayFlush) (h₁ : stage₁.replacer ch = stage.replacer ch)
    (h₃ : stage₃.replacer ch = stage₂.replacer ch) : Fed u stage stage₃ ch frags outs mayFlush := by
  obtain ⟨finished, hfin, heq⟩ := h
  exact ⟨finished, hfin, by rw [← h₁, heq, h₃]⟩

/-! ### Fields -/

theorem replacer_setReplacer (stage : PiiRestorationStage) (field : Field) (choiceIdx : Nat) (r : StreamingWindowReplacer)
    (ch : Channel) :
    (stage.setReplacer field choiceIdx r).replacer ch = if ch = .field field choiceIdx then r else stage.replacer ch := by
  cases ch with
  | tool c t => cases field <;> rfl
  | field f c =>
    by_cases hc : c = choiceIdx
    · subst hc
      cases f <;> cases field <;>
        simp [replacer, fieldReplacer, setReplacer, replacers, AList.lookup_insert]
    · cases f <;> cases field <;>
        simp [replacer, fieldReplacer, setReplacer, replacers, AList.lookup_insert_ne, hc]

theorem processField_other {field : Field} {choiceIdx : Nat} {value : Option Text} {finish : Bool} {ch : Channel}
    (h : ch ≠ .field field choiceIdx) :
    (stage.processField u field choiceIdx value finish).2.replacer ch = stage.replacer ch := by
  unfold processField
  cases value with
  | some fragment => simp only [replacer_setReplacer, if_neg h]
  | none =>
    dsimp only
    split
    · split
      · rfl
      · simp only [replacer_setReplacer, if_neg h]
    · rfl

theorem processField_fed (field : Field) (choiceIdx : Nat) (value : Option Text) (finish : Bool) :
    Fed u stage (stage.processField u field choiceIdx value finish).2 (.field field choiceIdx) value.toList
      (stage.processField u field choiceIdx value finish).1.toList (finish = true) := by
  unfold processField
  cases value with
  | some fragment =>
    refine ⟨finish, id, ?_⟩
    simp only [StreamingWindowReplacer.feed_eq, replacer_setReplacer, ↓reduceIte, Option.toList_some,
      List.flatten_singleton]
    rfl
  | none =>
    dsimp only
    split
    · rename_i hfin
      split
      · exact fed_same rfl _
      · rename_i r hr
        refine ⟨true, fun _ => hfin, ?_⟩
        have hrep : stage.replacer (.field field choiceIdx) = r := by simp [replacer, fieldReplacer, hr]
        rw [hrep]
        simp only [Option.toList_none, StreamingWindowReplacer.after_nil_true, replacer_setReplacer, ↓reduceIte]
        split
        · rename_i hempty
          rw [List.isEmpty_iff] at hempty
          simp [Prod.ext_iff, hempty]
        · simp
    · exact fed_same rfl _

/-! ### Tool calls -/

theorem replacer_setTool (stage : PiiRestorationStage) (choiceIdx toolIdx : Nat) (r : StreamingWindowReplacer)
    (ch : Channel) :
    ({ stage with toolReplacers := stage.toolReplacers.insert (choiceIdx, toolIdx) r } : PiiRestorationStage).replacer ch =
      if ch = .tool choiceIdx toolIdx then r else stage.replacer ch := by
  cases ch with
  | field f c => cases f <;> rfl
  | tool c t =>
    by_cases h : (c, t) = (choiceIdx, toolIdx)
    · cases h
      simp [replacer, toolReplacer, AList.lookup_insert]
    · have h' : ¬ Channel.tool c t = .tool choiceIdx toolIdx := by
        intro heq
        cases heq
        exact h rfl
      rw [if_neg h']
      simp [replacer, toolReplacer, AList.lookup_insert_ne h]

theorem processToolCalls_other {choiceIdx : Nat} {finish : Bool} {tcs : List (ToolCall × Nat)} {ch : Channel}
    (h : ∀ t, ch = .tool choiceIdx t → toolFragments t tcs = []) :
    (processToolCalls u choiceIdx finish stage tcs).2.replacer ch = stage.replacer ch := by
  induction tcs generalizing stage with
  | nil => rfl
  | cons entry rest ih =>
    obtain ⟨tc, i⟩ := entry
    unfold processToolCalls
    cases hargs : tc.arguments with
    | none =>
      refine ih fun t ht => ?_
      have := h t ht
      simpa [toolFragments, hargs] using this
    | some args =>
      dsimp only
      have hne : ch ≠ .tool choiceIdx (tc.toolIdx i) := by
        intro heq
        have := h _ heq
        simp [toolFragments, hargs] at this
      rw [ih, replacer_setTool, if_neg hne]
      intro t ht
      have := h t ht
      have htc : tc.toolIdx i ≠ t := by
        rintro rfl
        exact hne ht
      simpa [toolFragments, htc] using this

private theorem toolFragments_skip {toolIdx k : Nat} {tc : ToolCall} {rest : List (ToolCall × Nat)}
    (h : tc.arguments = none ∨ tc.toolIdx k ≠ toolIdx) :
    toolFragments toolIdx ((tc, k) :: rest) = toolFragments toolIdx rest := by
  rcases h with h | h <;> simp [toolFragments, h]

private theorem toolFragments_take {toolIdx k : Nat} {tc : ToolCall} {args : Text} {rest : List (ToolCall × Nat)}
    (hargs : tc.arguments = some args) (h : tc.toolIdx k = toolIdx) :
    toolFragments toolIdx ((tc, k) :: rest) = args :: toolFragments toolIdx rest := by
  simp [toolFragments, h, hargs]

/-- The arguments of a tool call are replaced by others. -/
private theorem toolFragments_set {toolIdx k : Nat} {tc : ToolCall} (x : Text) {rest : List (ToolCall × Nat)} :
    toolFragments toolIdx (({ tc with arguments := some x }, k) :: rest) =
      if tc.toolIdx k = toolIdx then x :: toolFragments toolIdx rest else toolFragments toolIdx rest := by
  have hidx : ({ tc with arguments := some x } : ToolCall).toolIdx k = tc.toolIdx k := rfl
  split
  · rename_i h
    exact toolFragments_take rfl (hidx.trans h)
  · rename_i h
    exact toolFragments_skip (.inr fun heq => h (hidx.symm.trans heq))

theorem toolFragments_processToolCalls_length (u : CharTables) (choiceIdx toolIdx : Nat) (finish : Bool)
    (stage : PiiRestorationStage) (tcs : List ToolCall) (k : Nat) :
    (toolFragments toolIdx ((processToolCalls u choiceIdx finish stage (tcs.zipIdx k)).1.zipIdx k)).length =
      (toolFragments toolIdx (tcs.zipIdx k)).length := by
  induction tcs generalizing stage k with
  | nil => rfl
  | cons tc tcs ih =>
    rw [List.zipIdx_cons]
    unfold processToolCalls
    cases hargs : tc.arguments with
    | none =>
      dsimp only
      rw [List.zipIdx_cons, toolFragments_skip (.inl hargs), toolFragments_skip (.inl hargs), ih]
    | some args =>
      dsimp only
      rw [List.zipIdx_cons]
      by_cases htc : tc.toolIdx k = toolIdx
      · rw [toolFragments_take hargs htc, toolFragments_set, if_pos htc, List.length_cons, List.length_cons, ih]
      · rw [toolFragments_skip (.inr htc), toolFragments_set, if_neg htc, ih]

/-- The fragments of one tool call; if the choice is finished, it has at most one. -/
theorem processToolCalls_fed {choiceIdx toolIdx : Nat} {finish : Bool} {tcs : List ToolCall} {k : Nat}
    (h : finish = true → (toolFragments toolIdx (tcs.zipIdx k)).length ≤ 1) :
    Fed u stage (processToolCalls u choiceIdx finish stage (tcs.zipIdx k)).2 (.tool choiceIdx toolIdx)
      (toolFragments toolIdx (tcs.zipIdx k))
      (toolFragments toolIdx ((processToolCalls u choiceIdx finish stage (tcs.zipIdx k)).1.zipIdx k))
      (finish = true) := by
  induction tcs generalizing stage k with
  | nil => exact fed_same rfl _
  | cons tc tcs ih =>
    rw [List.zipIdx_cons] at h ⊢
    unfold processToolCalls
    cases hargs : tc.arguments with
    | none =>
      dsimp only
      rw [List.zipIdx_cons, toolFragments_skip (.inl hargs), toolFragments_skip (.inl hargs)]
      rw [toolFragments_skip (.inl hargs)] at h
      exact ih h
    | some args =>
      dsimp only
      rw [List.zipIdx_cons]
      by_cases htc : tc.toolIdx k = toolIdx
      · rw [toolFragments_take hargs htc, toolFragments_set, if_pos htc, htc, StreamingWindowReplacer.feed_eq]
        rw [toolFragments_take hargs htc] at h
        generalize hafter : (stage.toolReplacer choiceIdx toolIdx).after u [args] finish = fed
        generalize hstage : ({ stage with
          toolReplacers := stage.toolReplacers.insert (choiceIdx, toolIdx) fed.2 } : PiiRestorationStage) = stage'
        have hrep : stage'.replacer (.tool choiceIdx toolIdx) = fed.2 := by
          rw [← hstage, replacer_setTool, if_pos rfl]
        cases finish with
        | false =>
          obtain ⟨finished, hfin, heq⟩ := @ih stage' (k + 1) (by simp)
          refine ⟨finished, hfin, ?_⟩
          have hhead := StreamingWindowReplacer.after_append u (stage.toolReplacer choiceIdx toolIdx) [args]
            (toolFragments toolIdx (tcs.zipIdx (k + 1))) finished
          rw [hafter, ← hrep, heq] at hhead
          rw [List.flatten_cons]
          exact hhead
        | true =>
          -- the replacer is flushed after the first fragment, and there is no other
          have hnone : toolFragments toolIdx (tcs.zipIdx (k + 1)) = [] := by
            have := h rfl
            rw [List.length_cons] at this
            exact List.eq_nil_of_length_eq_zero (by omega)
          have hnone' := toolFragments_processToolCalls_length u choiceIdx toolIdx true stage' tcs (k + 1)
          rw [hnone, List.length_nil] at hnone'
          rw [hnone, List.eq_nil_of_length_eq_zero hnone']
          refine ⟨true, id, ?_⟩
          rw [processToolCalls_other, hrep, List.flatten_singleton]
          · exact hafter
          · intro t ht
            cases ht
            exact hnone
      · rw [toolFragments_skip (.inr htc), toolFragments_set, if_neg htc]
        rw [toolFragments_skip (.inr htc)] at h
        refine Fed.frame (ih h) ?_ rfl
        rw [replacer_setTool, if_neg]
        intro heq
        cases heq
        exact htc rfl

/-- Tool calls that carry their index. -/
private theorem toolFragments_indexed (toolIdx : Nat) (l : List (Nat × Text)) (k : Nat) :
    toolFragments toolIdx ((l.map fun e => (⟨some e.1, some e.2⟩ : ToolCall)).zipIdx k) =
      l.filterMap fun e => if e.1 = toolIdx then some e.2 else none := by
  induction l generalizing k with
  | nil => rfl
  | cons e l ih =>
    rw [List.map_cons, List.zipIdx_cons, List.filterMap_cons]
    by_cases h : e.1 = toolIdx
    · rw [toolFragments_take rfl (show (⟨some e.1, some e.2⟩ : ToolCall).toolIdx k = toolIdx from h), ih]
      simp [h]
    · rw [toolFragments_skip (.inr (show ¬ (⟨some e.1, some e.2⟩ : ToolCall).toolIdx k = toolIdx from h)), ih]
      simp [h]

/-- The residue of a replacer, if it is not empty. -/
def residue (u : CharTables) (r : StreamingWindowReplacer) : Option Text :=
  if (r.flush u).1.isEmpty then none else some (r.flush u).1

theorem residue_toList (u : CharTables) (r : StreamingWindowReplacer) :
    (residue u r).toList.flatten = (r.flush u).1 := by
  unfold residue
  split
  · rename_i h
    rw [List.isEmpty_iff] at h
    rw [h]
    rfl
  · simp

theorem flushTools_fragments (u : CharTables) (stage : PiiRestorationStage) (choiceIdx toolIdx : Nat) :
    toolFragments toolIdx ((stage.flushTools u choiceIdx).1.getD []).zipIdx =
      ((stage.toolReplacers.lookup (choiceIdx, toolIdx)).bind (residue u)).toList := by
  rw [← Table.filterMap_entries]
  unfold flushTools
  dsimp only
  generalize hres : stage.toolReplacers.entries.filterMap (fun e =>
    if e.1.1 = choiceIdx then
      if (e.2.flush u).1.isEmpty then none else some (e.1.2, (e.2.flush u).1)
    else none) = residuals
  have hone : residuals.filterMap (fun e => if e.1 = toolIdx then some e.2 else none) =
      stage.toolReplacers.entries.filterMap fun e => if e.1 = (choiceIdx, toolIdx) then residue u e.2 else none := by
    rw [← hres, List.filterMap_filterMap]
    refine List.filterMap_congr fun e _ => ?_
    obtain ⟨⟨c, t⟩, r⟩ := e
    unfold residue
    by_cases hc : c = choiceIdx <;> by_cases ht : t = toolIdx <;> by_cases hr : (r.flush u).1.isEmpty <;>
      simp [hc, ht, hr]
  rw [← hone]
  split
  · rename_i hempty
    rw [List.isEmpty_iff] at hempty
    simp [hempty, toolFragments]
  · rw [Option.getD_some, toolFragments_indexed]
    have hperm := (List.perm_insertionSort (fun a b : Nat × Text => a.1 ≤ b.1) residuals).filterMap
      fun e => if e.1 = toolIdx then some e.2 else none
    -- at most one of the residuals is of this tool call, so that their order does not matter
    rw [hone, Table.filterMap_entries] at hperm ⊢
    cases h : (stage.toolReplacers.lookup (choiceIdx, toolIdx)).bind (residue u) with
    | none =>
      rw [h] at hperm
      exact List.perm_nil.mp hperm
    | some x =>
      rw [h] at hperm
      exact List.perm_singleton.mp hperm

theorem replacer_flushTools (u : CharTables) (stage : PiiRestorationStage) (choiceIdx toolIdx : Nat) :
    (stage.flushTools u choiceIdx).2.replacer (.tool choiceIdx toolIdx) =
      ((stage.toolReplacers.lookup (choiceIdx, toolIdx)).map fun r => (r.flush u).2).getD stage.toolTemplate := by
  simp [flushTools, replacer, toolReplacer, Table.lookup_mapValues]

theorem flushTools_other {choiceIdx : Nat} {ch : Channel} (h : ∀ t, ch ≠ .tool choiceIdx t) :
    (stage.flushTools u choiceIdx).2.replacer ch = stage.replacer ch := by
  cases ch with
  | field f c => cases f <;> rfl
  | tool c t =>
    have hc : c ≠ choiceIdx := by
      rintro rfl
      exact h t rfl
    simp [flushTools, replacer, toolReplacer, Table.lookup_mapValues, hc]

theorem flushTools_fed (choiceIdx toolIdx : Nat) {mayFlush : Prop} (hmay : mayFlush) :
    Fed u stage (stage.flushTools u choiceIdx).2 (.tool choiceIdx toolIdx) []
      (toolFragments toolIdx ((stage.flushTools u choiceIdx).1.getD []).zipIdx) mayFlush := by
  rw [flushTools_fragments]
  cases hr : stage.toolReplacers.lookup (choiceIdx, toolIdx) with
  | none =>
    refine fed_same ?_ _
    rw [replacer_flushTools, hr]
    simp [replacer, toolReplacer, hr]
  | some r =>
    refine ⟨true, fun _ => hmay, ?_⟩
    have hrep : stage.replacer (.tool choiceIdx toolIdx) = r := by simp [replacer, toolReplacer, hr]
    rw [hrep, replacer_flushTools, hr, StreamingWindowReplacer.after_nil_true, Option.bind_some, residue_toList]
    rfl

/-! ### Choices -/

theorem processTools_other {choiceIdx : Nat} {toolCalls : Option (List ToolCall)} {finish : Bool} {ch : Channel}
    (h : ∀ t, ch ≠ .tool choiceIdx t) :
    (processTools u stage choiceIdx toolCalls finish).2.replacer ch = stage.replacer ch := by
  unfold processTools
  cases toolCalls with
  | some tcs => exact processToolCalls_other fun t ht => absurd ht (h t)
  | none =>
    dsimp only
    split
    · exact flushTools_other h
    · rfl

theorem processTools_fed {choiceIdx toolIdx : Nat} {toolCalls : Option (List ToolCall)} {finish : Bool}
    (h : finish = true → (toolFragments toolIdx (toolCalls.getD []).zipIdx).length ≤ 1) :
    Fed u stage (processTools u stage choiceIdx toolCalls finish).2 (.tool choiceIdx toolIdx)
      (toolFragments toolIdx (toolCalls.getD []).zipIdx)
      (toolFragments toolIdx ((processTools u stage choiceIdx toolCalls finish).1.getD []).zipIdx) (finish = true) := by
  unfold processTools
  cases toolCalls with
  | some tcs => exact processToolCalls_fed h
  | none =>
    dsimp only
    split
    · rename_i hfin
      exact flushTools_fed choiceIdx toolIdx hfin
    · exact fed_same rfl _

/-- A choice with another index. -/
theorem processChoice_other {choice : Choice} {arrIdx : Nat} {ch : Channel}
    (h : choice.choiceIdx arrIdx ≠ ch.choiceIdx) :
    (stage.processChoice u choice arrIdx).2.replacer ch = stage.replacer ch := by
  have hfield : ∀ f, ch ≠ .field f (choice.choiceIdx arrIdx) := by
    rintro f rfl
    exact h rfl
  have htool : ∀ t, ch ≠ .tool (choice.choiceIdx arrIdx) t := by
    rintro t rfl
    exact h rfl
  unfold processChoice
  cases choice.delta with
  | some delta =>
    dsimp only
    rw [processField_other (hfield _), processTools_other htool, processField_other (hfield _),
      processField_other (hfield _)]
  | none =>
    cases choice.text with
    | some text => exact processField_other (hfield _)
    | none => exact processField_other (hfield _)

/-- The four steps of a choice with a delta. -/
theorem processChoice_delta {choice : Choice} {delta : Delta} {arrIdx : Nat} (h : choice.delta = some delta) :
    ∃ p₁ p₂ p₃ p₄,
      stage.processField u .content (choice.choiceIdx arrIdx) delta.content choice.hasFinishReason = p₁ ∧
      p₁.2.processField u .reasoningContent (choice.choiceIdx arrIdx) delta.reasoningContent choice.hasFinishReason = p₂ ∧
      p₂.2.processTools u (choice.choiceIdx arrIdx) delta.toolCalls choice.hasFinishReason = p₃ ∧
      p₃.2.processField u .text (choice.choiceIdx arrIdx) delta.text choice.hasFinishReason = p₄ ∧
      stage.processChoice u choice arrIdx = ({ choice with delta := some ⟨p₁.1, p₂.1, p₃.1, p₄.1⟩ }, p₄.2) := by
  refine ⟨_, _, _, _, rfl, rfl, rfl, rfl, ?_⟩
  unfold processChoice
  rw [h]

private theorem processChoice_fed_delta {choice : Choice} {delta : Delta} {arrIdx : Nat} {ch : Channel}
    (h : choice.delta = some delta) (hidx : choice.choiceIdx arrIdx = ch.choiceIdx)
    (hone : choice.hasFinishReason = true → (choice.fragments arrIdx ch).length ≤ 1) :
    Fed u stage (stage.processChoice u choice arrIdx).2 ch (choice.fragments arrIdx ch)
      ((stage.processChoice u choice arrIdx).1.fragments arrIdx ch) (choice.hasFinishReason = true) := by
  obtain ⟨p₁, p₂, p₃, p₄, h₁, h₂, h₃, h₄, heq⟩ := @processChoice_delta u stage choice delta arrIdx h
  have hout : ({ choice with delta := some ⟨p₁.1, p₂.1, p₃.1, p₄.1⟩ } : Choice).choiceIdx arrIdx = ch.choiceIdx := hidx
  unfold Choice.fragments at hone ⊢
  rw [heq, if_pos hout]
  rw [if_pos hidx, h] at hone
  rw [if_pos hidx, h]
  generalize choice.choiceIdx arrIdx = c at hidx h₁ h₂ h₃ h₄
  cases ch with
  | field f c' =>
    obtain rfl : c = c' := hidx
    have hget : choice.get f = delta.get f := by simp [Choice.get, h]
    dsimp only
    rw [hget]
    cases f with
    | content =>
      have hfed := @processField_fed u stage .content c delta.content choice.hasFinishReason
      rw [h₁] at hfed
      refine hfed.frame rfl ?_
      rw [← h₄, processField_other (by simp), ← h₃, processTools_other (by simp), ← h₂, processField_other (by simp)]
    | reasoningContent =>
      have hfed := @processField_fed u p₁.2 .reasoningContent c delta.reasoningContent choice.hasFinishReason
      rw [h₂] at hfed
      refine hfed.frame ?_ ?_
      · rw [← h₁, processField_other (by simp)]
      · rw [← h₄, processField_other (by simp), ← h₃, processTools_other (by simp)]
    | text =>
      have hfed := @processField_fed u p₃.2 .text c delta.text choice.hasFinishReason
      rw [h₄] at hfed
      refine hfed.frame ?_ rfl
      rw [← h₃, processTools_other (by simp), ← h₂, processField_other (by simp), ← h₁, processField_other (by simp)]
  | tool c' t =>
    obtain rfl : c = c' := hidx
    have hfed := @processTools_fed u p₂.2 c t delta.toolCalls choice.hasFinishReason hone
    rw [h₃] at hfed
    refine hfed.frame ?_ ?_
    · rw [← h₂, processField_other (by simp), ← h₁, processField_other (by simp)]
    · rw [← h₄, processField_other (by simp)]

/-- A choice without a delta: its own text is processed, or its content is flushed. -/
private theorem processChoice_fed_bare {choice : Choice} {arrIdx : Nat} {ch : Channel} (h : choice.delta = none)
    (hidx : choice.choiceIdx arrIdx = ch.choiceIdx) :
    Fed u stage (stage.processChoice u choice arrIdx).2 ch (choice.fragments arrIdx ch)
      ((stage.processChoice u choice arrIdx).1.fragments arrIdx ch) (choice.hasFinishReason = true) := by
  cases htext : choice.text with
  | some text =>
    have hfed := @processField_fed u stage .text (choice.choiceIdx arrIdx) (some text) choice.hasFinishReason
    have hother := @processField_other u stage .text (choice.choiceIdx arrIdx) (some text) choice.hasFinishReason ch
    have heq : ∃ p, stage.processField u .text (choice.choiceIdx arrIdx) (some text) choice.hasFinishReason = p ∧
        stage.processChoice u choice arrIdx = ({ choice with text := p.1 }, p.2) := by
      refine ⟨_, rfl, ?_⟩
      unfold processChoice
      rw [h, htext]
    obtain ⟨p, hp, heq⟩ := heq
    rw [hp] at hfed hother
    have hout : ({ choice with text := p.1 } : Choice).choiceIdx arrIdx = ch.choiceIdx := hidx
    unfold Choice.fragments
    rw [heq, if_pos hout, if_pos hidx]
    generalize choice.choiceIdx arrIdx = c at hidx hfed hother
    cases ch with
    | field f c' =>
      obtain rfl : c = c' := hidx
      by_cases hf : f = .text
      · subst hf
        simpa [Choice.get, h, htext] using hfed
      · simpa [Choice.get, h, htext, hf] using fed_same (hother (by simp [hf])) _
    | tool c' t =>
      simpa [h] using fed_same (hother (by simp)) _
  | none =>
    have hfed := @processField_fed u stage .content (choice.choiceIdx arrIdx) none choice.hasFinishReason
    have hother := @processField_other u stage .content (choice.choiceIdx arrIdx) none choice.hasFinishReason ch
    have heq : ∃ p, stage.processField u .content (choice.choiceIdx arrIdx) none choice.hasFinishReason = p ∧
        stage.processChoice u choice arrIdx =
          ({ choice with delta := p.1.map fun flushed => { Delta.empty with content := some flushed } }, p.2) := by
      refine ⟨_, rfl, ?_⟩
      unfold processChoice
      rw [h, htext]
    obtain ⟨p, hp, heq⟩ := heq
    rw [hp] at hfed hother
    have hout : ({ choice with delta := p.1.map fun flushed => { Delta.empty with content := some flushed } } :
      Choice).choiceIdx arrIdx = ch.choiceIdx := hidx
    unfold Choice.fragments
    rw [heq, if_pos hout, if_pos hidx]
    generalize choice.choiceIdx arrIdx = c at hidx hfed hother
    cases ch with
    | field f c' =>
      obtain rfl : c = c' := hidx
      cases f with
      | content => cases hp₁ : p.1 <;> simpa [Choice.get, Delta.get, h, hp₁] using hfed
      | reasoningContent =>
        have := fed_same (u := u) (hother (by simp)) (choice.hasFinishReason = true)
        cases hp₁ : p.1 <;> simpa [Choice.get, Delta.get, Delta.empty, h] using this
      | text =>
        have := fed_same (u := u) (hother (by simp)) (choice.hasFinishReason = true)
        cases hp₁ : p.1 <;> simpa [Choice.get, Delta.get, Delta.empty, h, htext] using this
    | tool c' t =>
      have := fed_same (u := u) (hother (by simp)) (choice.hasFinishReason = true)
      cases hp₁ : p.1 <;> simpa [Delta.empty, h, toolFragments] using this

/-- What the stage does to a channel in one choice: the fragments of the channel go through its replacer, in their
order, and the replacer is flushed only if the choice is finished. -/
theorem processChoice_fed {choice : Choice} {arrIdx : Nat} {ch : Channel}
    (hone : choice.hasFinishReason = true → (choice.fragments arrIdx ch).length ≤ 1) :
    Fed u stage (stage.processChoice u choice arrIdx).2 ch (choice.fragments arrIdx ch)
      ((stage.processChoice u choice arrIdx).1.fragments arrIdx ch)
      (choice.hasFinishReason = true ∧ choice.choiceIdx arrIdx = ch.choiceIdx) := by
  have hkeep : (stage.processChoice u choice arrIdx).1.choiceIdx arrIdx = choice.choiceIdx arrIdx := by
    unfold processChoice
    cases choice.delta with
    | some delta => rfl
    | none => cases choice.text <;> rfl
  by_cases hidx : choice.choiceIdx arrIdx = ch.choiceIdx
  · have hmay : (choice.hasFinishReason = true ∧ choice.choiceIdx arrIdx = ch.choiceIdx) =
        (choice.hasFinishReason = true) := by simp [hidx]
    rw [hmay]
    cases hdelta : choice.delta with
    | some delta => exact processChoice_fed_delta hdelta hidx hone
    | none => exact processChoice_fed_bare hdelta hidx
  · unfold Choice.fragments
    rw [if_neg hidx, if_neg (hkeep ▸ hidx)]
    exact fed_same (processChoice_other hidx) _

end PiiRestorationStage

end OpenProxy.Pii
