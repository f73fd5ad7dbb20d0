import OpenProxy.Upstream.CommandCodeCalls

/-!
# The identity of tool calls

Which indices the ids of a Command Code stream get, and what is written for them, for tool events in any order.  The first
ids get a place, as many as there are places, and what the events of such an id lead to stands under its place only
(`keepsPlaces_logged`).  Its name is announced if a start event has it or if the whole call opens the call, and its
arguments are the pieces, or the input of the whole call, unless what arrives first of the two is not what counts.
-/

namespace OpenProxy.Upstream.CommandCode

open Json

/-! ### What is kept -/

/-- Every id keeps its own index, name and arguments. -/
structure KeepsIdentity (es : List ToolEvent) (log : Log) (state : CommandCodeSseState) : Prop where
  nodup : state.toolCallIds.Nodup
  length : state.toolCallsStreamed.length = state.toolCallIds.length
  apart : ∀ p ∈ log, ∀ p' ∈ log, ∀ d ∈ p.2, ∀ d' ∈ p'.2, d.arguments ≠ [] → d'.arguments ≠ [] → d.index = d'.index →
    p.1.map ToolEvent.id = p'.1.map ToolEvent.id
  named : ∀ i id, state.toolCallIds[i]? = some id → (∃ e ∈ es, e.id = id ∧ e.name ≠ []) →
    ∃ d ∈ log.items, d.index = some i ∧ d.id = some id ∧ ∃ name, d.name = some name ∧ name ≠ []
  arguments : ∀ e ∈ es, e.IsCall → log.sentFor e.id = argumentsOf es e.id

/-- Every id that has a place keeps it, with the name that is announced for it and the arguments that come from one
source, and whole calls and start events of other ids lead to nothing. -/
structure KeepsPlaces (es : List ToolEvent) (log : Log) (state : CommandCodeSseState) : Prop where
  nodup : state.toolCallIds.Nodup
  length : state.toolCallsStreamed.length = state.toolCallIds.length
  apart : ∀ p ∈ log, ∀ p' ∈ log, ∀ d ∈ p.2, ∀ d' ∈ p'.2, d.index = d'.index →
    (∀ e, p.1 = some e → e.id ∈ state.toolCallIds) → (∀ e, p'.1 = some e → e.id ∈ state.toolCallIds) →
      p.1.map ToolEvent.id = p'.1.map ToolEvent.id
  named : ∀ i id, state.toolCallIds[i]? = some id → Named es id →
    ∃ d ∈ log.items, d.index = some i ∧ d.id = some id ∧ ∃ name, d.name = some name ∧ name ≠ []
  arguments : ∀ e ∈ es, e.IsCall → ∀ i, state.toolCallIds[i]? = some e.id → Undisturbed es i →
    (inputOf es e.id = [] ∨ (CallFirst es e.id ↔ piecesOf es e.id = [])) → log.sentFor e.id = argumentsOf es e.id
  limit : ∀ p ∈ log, ∀ e, p.1 = some e → e.id ∉ state.toolCallIds → ¬ e.IsDelta → p.2 = []

/-! ### The invariant of a run -/

theorem sentFor_concat (log : Log) (e : ToolEvent) (ds : List ToolCallDelta) (id : Text) :
    Log.sentFor (log ++ [(some e, ds)]) id = log.sentFor id ++ if e.id = id then ds.flatMap (·.arguments) else [] := by
  unfold Log.sentFor
  rw [List.filter_append, List.flatMap_append]
  by_cases h : e.id = id
  · rw [if_pos h, List.filter_cons_of_pos (by simp [h])]
    simp
  · rw [if_neg h, List.filter_cons_of_neg (by simp [h])]
    simp

theorem items_concat (log : Log) (p : Option ToolEvent × List ToolCallDelta) :
    Log.items (log ++ [p]) = log.items ++ p.2 := by
  rw [Log.items, List.flatMap_append, List.flatMap_singleton]
  rfl

theorem forall_mem_concat {α : Type} {l : List α} {a : α} {holds : α → Prop} (h : ∀ b ∈ l, holds b) (hlast : holds a) :
    ∀ b ∈ l ++ [a], holds b :=
  List.forall_mem_append.mpr ⟨h, List.forall_mem_singleton.mpr hlast⟩

/-- What a run has written, and its state, after the tool events. -/
structure Tracks (es : List ToolEvent) (log : Log) (s : CommandCodeSseState) : Prop where
  ids : s.toolCallIds = knownIds es
  length : s.toolCallsStreamed.length = (knownIds es).length
  flags : ∀ i id, (knownIds es)[i]? = some id → Undisturbed es i → s.toolCallsStreamed[i]? = some (progress id es).1
  sent : ∀ i id, (knownIds es)[i]? = some id → Undisturbed es i → log.sentFor id = (progress id es).2
  absent : ∀ id, (∀ e ∈ es, e.id ≠ id) → log.sentFor id = []
  placed : ∀ p ∈ log, ∀ e, p.1 = some e → ∀ i, (knownIds es)[i]? = some e.id → ∀ d ∈ p.2, d.index = some i
  limit : ∀ p ∈ log, ∀ e, p.1 = some e → e.id ∉ knownIds es → ¬ e.IsDelta → p.2 = []
  silent : ∀ p ∈ log, p.1 = none → p.2 = []
  named : ∀ i id, (knownIds es)[i]? = some id → Named es id →
    ∃ d ∈ log.items, d.index = some i ∧ d.id = some id ∧ ∃ name, d.name = some name ∧ name ≠ []
  logged : ∀ p ∈ log, ∀ e, p.1 = some e → e ∈ es

namespace Tracks

variable {es : List ToolEvent} {e : ToolEvent} {log : Log} {s : CommandCodeSseState}

theorem absent_concat (h : Tracks es log s) {id : Text} (hid : ∀ e' ∈ es ++ [e], e'.id ≠ id)
    (items : List ToolCallDelta) : Log.sentFor (log ++ [(some e, items)]) id = [] := by
  rw [sentFor_concat, h.absent id fun e' he' => hid e' (List.mem_append_left _ he'), if_neg (hid e (by simp)),
    List.nil_append]

theorem logged_concat (h : Tracks es log s) (items : List ToolCallDelta) :
    ∀ p ∈ log ++ [(some e, items)], ∀ e', p.1 = some e' → e' ∈ es ++ [e] := by
  refine forall_mem_concat (fun p hp e' hpe => List.mem_append_left _ (h.logged p hp e' hpe)) ?_
  rintro e' ⟨⟩
  simp

/-- An event of an id that has a place. -/
theorem known (h : Tracks es log s) (he : e.id ∈ knownIds es) :
    Tracks (es ++ [e]) (log ++ [(some e, toolDeltas (e.handle s).1)]) (e.handle s).2 := by
  obtain ⟨hnodup, -, hevents⟩ := knownIds_spec es
  obtain ⟨k, hk⟩ := List.mem_iff_getElem?.mp he
  have hsame : knownIds (es ++ [e]) = knownIds es := knownIds_known he
  have hindex : ∀ i, (knownIds es)[i]? = some e.id → i = k := fun i hi =>
    (List.getElem?_inj (List.getElem?_eq_some_iff.mp hi).1 hnodup).mp (hi.trans hk.symm)
  have hlt : k < s.toolCallsStreamed.length := by
    rw [h.length]
    exact (List.getElem?_eq_some_iff.mp hk).1
  have hflag := List.getElem?_eq_getElem hlt
  obtain ⟨hitems, hids, hstreamed⟩ := ToolEvent.handle_known (h.ids ▸ hnodup) (h.ids ▸ hk) hflag
  rw [hitems]
  refine ⟨hids.trans (h.ids.trans hsame.symm), ?_, fun i id hi hund => ?_, fun i id hi hund => ?_, fun id hid => ?_, ?_, ?_,
    ?_, fun i id hi hnamed => ?_, ?_⟩
  · rw [hstreamed, List.length_set, hsame, h.length]
  · rw [hsame] at hi
    rw [hstreamed]
    by_cases hid : e.id = id
    · subst hid
      obtain rfl := hindex i hi
      have hold := h.flags i e.id hi hund.init
      rw [hflag, Option.some.injEq] at hold
      rw [List.getElem?_set_self hlt, progress_own, hold]
    · have hne : k ≠ i := by
        rintro rfl
        rw [hk, Option.some.injEq] at hi
        exact hid hi
      rw [List.getElem?_set_ne hne, progress_other es hid]
      exact h.flags i id hi hund.init
  · rw [hsame] at hi
    rw [sentFor_concat, h.sent i id hi hund.init]
    by_cases hid : e.id = id
    · subst hid
      obtain rfl := hindex i hi
      have hold := h.flags i e.id hi hund.init
      rw [hflag, Option.some.injEq] at hold
      rw [if_pos rfl, ToolEvent.arguments_knownItems, progress_own, hold]
    · rw [if_neg hid, List.append_nil, progress_other es hid]
  · exact h.absent_concat hid _
  · rw [hsame]
    refine forall_mem_concat h.placed ?_
    rintro e' ⟨⟩ i hi d hd
    obtain rfl := hindex i hi
    exact ToolEvent.index_of_mem_knownItems hd
  · rw [hsame]
    refine forall_mem_concat h.limit ?_
    rintro e' ⟨⟩ hnot
    exact absurd he hnot
  · exact forall_mem_concat h.silent fun hnone => by cases hnone
  · rw [hsame] at hi
    rw [items_concat]
    rcases hnamed.concat with hold | ⟨rfl, hname, hkind⟩
    · obtain ⟨d, hd, hrest⟩ := h.named i id hi hold
      exact ⟨d, List.mem_append_left _ hd, hrest⟩
    · obtain rfl := hindex i hi
      rcases hkind with hstart | ⟨-, hnone⟩
      · refine ⟨⟨some i, some e.id, some e.name, []⟩, List.mem_append_right _ ?_, rfl, rfl, e.name, rfl, hname⟩
        simp [ToolEvent.knownItems, hstart]
      · obtain ⟨e', he', heq⟩ := hevents e.id he
        exact absurd heq (hnone e' he')
  · exact h.logged_concat _

/-- An event that gives its id a place. -/
theorem fresh (h : Tracks es log s) (he : e.id ∉ knownIds es) (hroom : (knownIds es).length < maxCommandcodeToolCalls) :
    Tracks (es ++ [e]) (log ++ [(some e, toolDeltas (e.handle s).1)]) (e.handle s).2 := by
  have hnew : knownIds (es ++ [e]) = knownIds es ++ [e.id] := knownIds_fresh he hroom
  have hnone : ∀ e' ∈ es, e'.id ≠ e.id := forall_ne_of_fresh he hroom
  have hold : ∀ i id, (knownIds es ++ [e.id])[i]? = some id →
      (id ≠ e.id ∧ (knownIds es)[i]? = some id) ∨ (id = e.id ∧ i = (knownIds es).length) := by
    intro i id hi
    rcases Nat.lt_or_ge i (knownIds es).length with hlt | hge
    · rw [List.getElem?_append_left hlt] at hi
      exact Or.inl ⟨fun hbad => he (hbad ▸ List.mem_of_getElem? hi), hi⟩
    · have hlt := (List.getElem?_eq_some_iff.mp hi).1
      rw [List.length_append, List.length_singleton] at hlt
      obtain rfl : i = (knownIds es).length := by omega
      rw [List.getElem?_concat_length, Option.some.injEq] at hi
      exact Or.inr ⟨hi.symm, rfl⟩
  obtain ⟨hitems, hids, hstreamed⟩ := ToolEvent.handle_fresh (h.ids ▸ he) (h.ids ▸ hroom) (by rw [h.length, h.ids])
  rw [h.ids] at hitems hids
  rw [hitems]
  refine ⟨hids.trans hnew.symm, ?_, fun i id hi hund => ?_, fun i id hi hund => ?_, fun id hid => ?_, ?_, ?_, ?_,
    fun i id hi hnamed => ?_, ?_⟩
  · rw [hstreamed, hnew, List.length_append, List.length_append, h.length]
    rfl
  · rw [hnew] at hi
    rw [hstreamed]
    rcases hold i id hi with ⟨hid, hi⟩ | ⟨rfl, rfl⟩
    · rw [List.getElem?_append_left (by rw [h.length]; exact (List.getElem?_eq_some_iff.mp hi).1),
        progress_other es fun heq => hid heq.symm]
      exact h.flags i id hi hund.init
    · rw [← h.length, List.getElem?_concat_length, progress_own, progress_of_forall_ne hnone, Bool.false_or]
  · rw [hnew] at hi
    rw [sentFor_concat]
    rcases hold i id hi with ⟨hid, hi⟩ | ⟨rfl, rfl⟩
    · rw [h.sent i id hi hund.init, if_neg fun heq => hid heq.symm, List.append_nil,
        progress_other es fun heq => hid heq.symm]
    · rw [h.absent e.id hnone, if_pos rfl, ToolEvent.arguments_freshItems, progress_own, progress_of_forall_ne hnone]
  · exact h.absent_concat hid _
  · rw [hnew]
    refine forall_mem_concat (fun p hp e' hpe i hi d hd => ?_) ?_
    · rcases hold i e'.id hi with ⟨-, hi⟩ | ⟨hid, -⟩
      · exact h.placed p hp e' hpe i hi d hd
      · exact absurd hid (hnone e' (h.logged p hp e' hpe))
    · rintro e' ⟨⟩ i hi d hd
      rcases hold i e.id hi with ⟨hid, -⟩ | ⟨-, rfl⟩
      · exact absurd rfl hid
      · exact ToolEvent.index_of_mem_freshItems hd
  · rw [hnew]
    refine forall_mem_concat (fun p hp e' hpe hnot hdelta => ?_) ?_
    · exact h.limit p hp e' hpe (fun hbad => hnot (List.mem_append_left _ hbad)) hdelta
    · rintro e' ⟨⟩ hnot
      exact absurd (by simp) hnot
  · exact forall_mem_concat h.silent fun hnone => by cases hnone
  · rw [hnew] at hi
    rw [items_concat]
    rcases hold i id hi with ⟨hid, hi⟩ | ⟨rfl, rfl⟩
    · rcases hnamed.concat with hnamed | ⟨heq, -, -⟩
      · obtain ⟨d, hd, hrest⟩ := h.named i id hi hnamed
        exact ⟨d, List.mem_append_left _ hd, hrest⟩
      · exact absurd heq.symm hid
    · rcases hnamed.concat with ⟨e', he', heq, -, -⟩ | ⟨-, hname, hkind⟩
      · exact absurd heq (hnone e' he')
      · rcases hkind with hstart | ⟨⟨input, hcall⟩, -⟩
        · refine ⟨⟨some (knownIds es).length, some e.id, some e.name, []⟩, List.mem_append_right _ ?_, rfl, rfl, e.name, rfl,
            hname⟩
          simp [ToolEvent.freshItems, hstart]
        · refine ⟨⟨some (knownIds es).length, some e.id, some e.name, input⟩, List.mem_append_right _ ?_, rfl, rfl, e.name,
            rfl, hname⟩
          simp [ToolEvent.freshItems, hcall]
  · exact h.logged_concat _

/-- An event of an id for which there is no place. -/
theorem stray (h : Tracks es log s) (he : e.id ∉ knownIds es) (hfull : maxCommandcodeToolCalls ≤ (knownIds es).length) :
    Tracks (es ++ [e]) (log ++ [(some e, toolDeltas (e.handle s).1)]) (e.handle s).2 := by
  have hsame : knownIds (es ++ [e]) = knownIds es := knownIds_stray hfull
  have hne : ∀ i id, (knownIds es)[i]? = some id → e.id ≠ id := fun i id hi hbad => he (hbad ▸ List.mem_of_getElem? hi)
  obtain ⟨hitems, hids, hlength, hstreamed⟩ := ToolEvent.handle_stray (h.ids ▸ he) (h.ids ▸ hfull)
  rw [hitems]
  refine ⟨hids.trans (h.ids.trans hsame.symm), by rw [hlength, hsame, h.length], fun i id hi hund => ?_,
    fun i id hi hund => ?_, fun id hid => ?_, ?_, ?_, ?_, fun i id hi hnamed => ?_, ?_⟩
  · rw [hsame] at hi
    have hquiet : i = 0 → ¬ e.IsDelta := fun hzero hdelta => he (hsame ▸ hund hzero e (by simp) hdelta)
    rw [hstreamed i hquiet, progress_other es (hne i id hi)]
    exact h.flags i id hi hund.init
  · rw [hsame] at hi
    rw [sentFor_concat, h.sent i id hi hund.init, if_neg (hne i id hi), List.append_nil, progress_other es (hne i id hi)]
  · exact h.absent_concat hid _
  · rw [hsame]
    refine forall_mem_concat h.placed ?_
    rintro e' ⟨⟩ i hi
    exact absurd rfl (hne i e.id hi)
  · rw [hsame]
    refine forall_mem_concat h.limit ?_
    rintro e' ⟨⟩ - hdelta
    unfold ToolEvent.strayItems
    split
    · rename_i text hkind
      exact absurd ⟨text, hkind⟩ hdelta
    · rfl
  · exact forall_mem_concat h.silent fun hnone => by cases hnone
  · rw [hsame] at hi
    rw [items_concat]
    rcases hnamed.concat with hnamed | ⟨heq, -, -⟩
    · obtain ⟨d, hd, hrest⟩ := h.named i id hi hnamed
      exact ⟨d, List.mem_append_left _ hd, hrest⟩
    · exact absurd heq (hne i id hi)
  · exact h.logged_concat _

theorem concat (h : Tracks es log s) (e : ToolEvent) :
    Tracks (es ++ [e]) (log ++ [(some e, toolDeltas (e.handle s).1)]) (e.handle s).2 := by
  by_cases he : e.id ∈ knownIds es
  · exact h.known he
  · by_cases hfull : maxCommandcodeToolCalls ≤ (knownIds es).length
    · exact h.stray he hfull
    · exact h.fresh he (by omega)

end Tracks

/-- The lines lead to what their tool events lead to. -/
theorem tracks_logged (modelName : Text) {script : List (Option ToolEvent × Text)}
    (h : ∀ p ∈ script, LineCarries p.1 p.2) :
    Tracks (toolEvents script) (logged modelName script).1 (logged modelName script).2 := by
  induction script using List.reverseRecOn with
  | nil =>
    refine ⟨rfl, rfl, ?_, ?_, fun _ _ => rfl, ?_, ?_, ?_, ?_, ?_⟩ <;> simp [toolEvents, knownIds, logged]
  | append_singleton script p ih =>
    obtain ⟨label, line⟩ := p
    have hline : LineCarries label line := h (label, line) (by simp)
    have htracks := ih fun p hp => h p (by simp [hp])
    rw [logged, List.foldl_append, List.foldl_cons, List.foldl_nil, toolEvents, List.filterMap_append]
    show Tracks (toolEvents script ++ _) (advance modelName (logged modelName script) (label, line)).1
      (advance modelName (logged modelName script) (label, line)).2
    generalize logged modelName script = x at htracks
    obtain ⟨log, s⟩ := x
    cases label with
    | some e =>
      rw [advance_some hline]
      exact htracks.concat e
    | none =>
      obtain ⟨s', hadvance, hids, hstreamed⟩ := advance_none hline modelName log s
      rw [hadvance, List.filterMap_cons_none rfl, List.filterMap_nil, List.append_nil]
      have hsent : ∀ id, Log.sentFor (log ++ [(none, [])]) id = log.sentFor id := fun id => by simp [Log.sentFor]
      refine ⟨hids.trans htracks.ids, hstreamed ▸ htracks.length, hstreamed ▸ htracks.flags, fun i id hi hund => ?_,
        fun id hid => ?_, ?_, ?_, ?_, fun i id hi hnamed => ?_, ?_⟩
      · rw [hsent, htracks.sent i id hi hund]
      · rw [hsent, htracks.absent id hid]
      · exact forall_mem_concat htracks.placed fun e hlabel => by cases hlabel
      · exact forall_mem_concat htracks.limit fun e hlabel => by cases hlabel
      · exact forall_mem_concat htracks.silent fun _ => rfl
      · rw [items_concat, List.append_nil]
        exact htracks.named i id hi hnamed
      · exact forall_mem_concat htracks.logged fun e hlabel => by cases hlabel

/-! ### The arguments of an id -/

/-- Among events of which the first one with content is a whole call, this one has the input. -/
theorem findSome?_input {l : List ToolEvent} {e : ToolEvent} (h : l.find? ToolEvent.hasContent = some e) (hcall : e.IsCall) :
    l.findSome? ToolEvent.input? = e.input? := by
  obtain ⟨input, hkind⟩ := hcall
  have hinput : e.input? = some input := by
    unfold ToolEvent.input?
    rw [hkind]
  induction l with
  | nil => cases h
  | cons e' l ih =>
    by_cases hcontent : e'.hasContent = true
    · rw [List.find?_cons_of_pos hcontent, Option.some.injEq] at h
      subst h
      rw [List.findSome?_cons, hinput]
    · rw [List.find?_cons_of_neg hcontent] at h
      have hstart : e'.input? = none := by
        unfold ToolEvent.hasContent at hcontent
        unfold ToolEvent.input?
        have hkind' : e'.kind = .start := by simpa using hcontent
        rw [hkind']
      rw [List.findSome?_cons, hstart]
      exact ih h

theorem contribution_true (e : ToolEvent) : e.contribution true = e.piece := by
  unfold ToolEvent.contribution ToolEvent.piece
  cases e.kind <;> rfl

theorem contribution_false (e : ToolEvent) : e.contribution false = e.input?.getD [] ++ e.piece := by
  unfold ToolEvent.contribution ToolEvent.piece ToolEvent.input?
  cases e.kind <;> simp

/-- The first event of an id that may have arguments. -/
def firstContent (es : List ToolEvent) (id : Text) : Option ToolEvent :=
  (es.filter fun e => e.id = id).find? ToolEvent.hasContent

theorem piecesOf_of_none {es : List ToolEvent} {id : Text} (h : firstContent es id = none) : piecesOf es id = [] := by
  rw [firstContent, List.find?_eq_none] at h
  rw [piecesOf, List.flatMap_eq_nil_iff]
  intro e he
  have hkind : e.kind = .start := by simpa [ToolEvent.hasContent] using h e he
  rw [ToolEvent.piece, hkind]

/-- What has been written is the input of the first event, if this is a whole call, and all pieces. -/
theorem progress_eq (id : Text) (es : List ToolEvent) :
    progress id es =
      ((firstContent es id).isSome, ((firstContent es id).bind ToolEvent.input?).getD [] ++ piecesOf es id) := by
  induction es using List.reverseRecOn with
  | nil => rfl
  | append_singleton es e ih =>
    by_cases hid : e.id = id
    · subst hid
      have hfilter : (es ++ [e]).filter (fun e' => e'.id = e.id) = es.filter (fun e' => e'.id = e.id) ++ [e] := by
        simp [List.filter_append]
      have hfirst : firstContent (es ++ [e]) e.id = (firstContent es e.id).or ([e].find? ToolEvent.hasContent) := by
        rw [firstContent, hfilter, List.find?_append]
        rfl
      have hpieces : piecesOf (es ++ [e]) e.id = piecesOf es e.id ++ e.piece := by
        rw [piecesOf, hfilter, List.flatMap_append, List.flatMap_singleton]
        rfl
      rw [progress_own, ih, hfirst, hpieces]
      cases hold : firstContent es e.id with
      | some e₀ => simp [contribution_true]
      | none =>
        rw [piecesOf_of_none hold, Option.none_or]
        dsimp only
        rw [Option.isSome_none, contribution_false]
        cases hcontent : e.hasContent with
        | true => simp [hcontent]
        | false =>
          have hkind : e.kind = .start := by simpa [ToolEvent.hasContent] using hcontent
          simp [hcontent, ToolEvent.piece, ToolEvent.input?, hkind]
    · have hfilter : (es ++ [e]).filter (fun e' => e'.id = id) = es.filter (fun e' => e'.id = id) := by
        simp [List.filter_append, hid]
      rw [progress_other es hid, ih, firstContent, firstContent, piecesOf, piecesOf, hfilter]

/-- Arguments that come from one source. -/
theorem progress_eq_argumentsOf {es : List ToolEvent} {id : Text}
    (h : inputOf es id = [] ∨ (CallFirst es id ↔ piecesOf es id = [])) : (progress id es).2 = argumentsOf es id := by
  rw [progress_eq]
  dsimp only
  by_cases hfirst : CallFirst es id
  · obtain ⟨e, hfind, hcall⟩ := hfirst
    have hinput : ((firstContent es id).bind ToolEvent.input?).getD [] = inputOf es id := by
      rw [firstContent, hfind, inputOf, findSome?_input hfind hcall]
      rfl
    rw [hinput, argumentsOf]
    rcases h with hnil | hpieces
    · rw [hnil, List.nil_append]
      split
      · rfl
      · rename_i hempty
        exact not_not.mp hempty
    · have hempty := hpieces.mp ⟨e, hfind, hcall⟩
      rw [hempty, List.append_nil, if_neg (by simp)]
  · have hnone : ((firstContent es id).bind ToolEvent.input?).getD [] = [] := by
      cases hfind : firstContent es id with
      | none => rfl
      | some e =>
        rw [Option.bind_some]
        unfold ToolEvent.input?
        split
        · rename_i input hkind
          exact absurd ⟨e, hfind, input, hkind⟩ hfirst
        · rfl
    rw [hnone, List.nil_append, argumentsOf]
    split
    · rfl
    · rename_i hempty
      rw [not_not] at hempty
      rcases h with hnil | hpieces
      · rw [hempty, hnil]
      · exact absurd (hpieces.mpr hempty) hfirst

theorem keepsPlaces_logged (modelName : Text) {script : List (Option ToolEvent × Text)}
    (h : ∀ p ∈ script, LineCarries p.1 p.2) :
    KeepsPlaces (toolEvents script) (logged modelName script).1 (logged modelName script).2 := by
  have htracks := tracks_logged modelName h
  obtain ⟨hnodup, -, -⟩ := knownIds_spec (toolEvents script)
  refine ⟨htracks.ids ▸ hnodup, htracks.length.trans (congrArg List.length htracks.ids.symm), ?_, ?_, ?_, ?_⟩
  · intro p hp p' hp' d hd d' hd' hindex hown hown'
    rw [htracks.ids] at hown hown'
    cases hlabel : p.1 with
    | none => simp [htracks.silent p hp hlabel] at hd
    | some e =>
      cases hlabel' : p'.1 with
      | none => simp [htracks.silent p' hp' hlabel'] at hd'
      | some e' =>
        obtain ⟨i, hi⟩ := List.mem_iff_getElem?.mp (hown e hlabel)
        obtain ⟨i', hi'⟩ := List.mem_iff_getElem?.mp (hown' e' hlabel')
        have hplace := htracks.placed p hp e hlabel i hi d hd
        have hplace' := htracks.placed p' hp' e' hlabel' i' hi' d' hd'
        rw [hplace, hplace', Option.some.injEq] at hindex
        subst hindex
        rw [hi] at hi'
        exact congrArg some (Option.some.inj hi')
  · intro i id hi hnamed
    exact htracks.named i id (htracks.ids ▸ hi) hnamed
  · intro e he hcall i hi hund hsource
    rw [htracks.sent i e.id (htracks.ids ▸ hi) hund, progress_eq_argumentsOf hsource]
  · intro p hp e hlabel hnot hdelta
    exact htracks.limit p hp e hlabel (htracks.ids ▸ hnot) hdelta

/-! ### Concrete streams -/

/-- The members of the object of an event. -/
def eventFields (e : ToolEvent) : List (Text × Json) :=
  match e.kind with
  | .start =>
    [("id".toList, string e.id), ("name".toList, string e.name), ("type".toList, string "tool-input-start".toList)]
  | .delta text =>
    [("delta".toList, string text), ("id".toList, string e.id), ("name".toList, string e.name),
      ("type".toList, string "tool-input-delta".toList)]
  | .call input =>
    [("id".toList, string e.id), ("input".toList, string input), ("name".toList, string e.name),
      ("type".toList, string "tool-call".toList)]

/-- The stream of tool events. -/
def scriptOf (es : List ToolEvent) : List (Option ToolEvent × Text) :=
  es.map fun e => (some e, dataLine (object (eventFields e)))

theorem commandcodeData_dataLine (fields : List (Text × Json)) :
    commandcodeData (dataLine (object fields)) = .payload (write (object fields)) := by
  let body := '\x7b' :: (writeFields fields ++ ['\x7d'])
  have hwrite : write (object fields) = body := by rw [write]
  have hline : dataLine (object fields) = ['d', 'a', 't', 'a', ':', ' '] ++ body := by
    unfold dataLine
    rw [hwrite]
    rfl
  have htrim : trim (dataLine (object fields)) = dataLine (object fields) := by
    rw [trim, hline, List.cons_append, List.dropWhile_cons_of_neg (by decide)]
    rw [← List.cons_append, List.reverse_append,
      show body.reverse = '\x7d' :: ('\x7b' :: writeFields fields).reverse by simp [body], List.cons_append,
      List.dropWhile_cons_of_neg (by decide)]
    simp [body]
  have hprefix : "data:".toList.isPrefixOf (['d', 'a', 't', 'a', ':', ' '] ++ body) = true := rfl
  have hpayload : trimStart ((['d', 'a', 't', 'a', ':', ' '] ++ body).drop 5) = body := rfl
  have hne : body ≠ "[DONE]".toList := by
    intro heq
    have hhead : some '\x7b' = some '[' := congrArg List.head? heq
    cases hhead
  unfold commandcodeData
  rw [htrim, hline]
  dsimp only
  rw [if_neg (by simp), if_pos hprefix, hpayload, if_neg hne, hwrite]

theorem fromStr_eventFields (e : ToolEvent) :
    fromStr (write (object (eventFields e))) = some (object (eventFields e)) := by
  obtain ⟨id, name, kind⟩ := e
  cases kind with
  | start =>
    rw [fromStr, read_write, Option.bind_some, if_pos (Nat.le_of_ble_eq_true rfl)]
    rfl
  | delta text =>
    rw [fromStr, read_write, Option.bind_some, if_pos (Nat.le_of_ble_eq_true rfl)]
    rfl
  | call input =>
    rw [fromStr, read_write, Option.bind_some, if_pos (Nat.le_of_ble_eq_true rfl)]
    rfl

theorem not_isError {v : Json} {type : Text} (htype : eventType v = type) (hne : type ≠ "error".toList)
    (hnone : v.get "error".toList = none) : ¬ IsError v := by
  rintro (heq | hsome)
  · exact hne (htype ▸ heq)
  · rw [hnone] at hsome
    cases hsome

/-- The id stands under its second name. -/
theorem carriesId_of_id {v : Json} {id : Text} (hnone : v.get "toolCallId".toList = none)
    (hid : v.get "id".toList = some (string id)) : ToolEvent.CarriesId v id := by
  refine ⟨?_, "id", by simp, hid⟩
  simp only [List.mem_cons, List.not_mem_nil, or_false, forall_eq_or_imp, forall_eq]
  exact ⟨Or.inl hnone, Or.inr hid⟩

theorem lineCarries_eventFields (e : ToolEvent) : LineCarries (some e) (dataLine (object (eventFields e))) := by
  refine ⟨_, _, commandcodeData_dataLine _, fromStr_eventFields e, ?_⟩
  obtain ⟨id, name, kind⟩ := e
  cases kind with
  | start =>
    have htype : eventType (object (eventFields ⟨id, name, .start⟩)) = "tool-input-start".toList := rfl
    exact ⟨not_isError htype (by decide) rfl, carriesId_of_id rfl rfl, rfl, List.mem_cons_self⟩
  | delta text =>
    have htype : eventType (object (eventFields ⟨id, name, .delta text⟩)) = "tool-input-delta".toList := rfl
    exact ⟨not_isError htype (by decide) rfl, carriesId_of_id rfl rfl, rfl, rfl, rfl⟩
  | call input =>
    have htype : eventType (object (eventFields ⟨id, name, .call input⟩)) = "tool-call".toList := rfl
    exact ⟨not_isError htype (by decide) rfl, carriesId_of_id rfl rfl, rfl, rfl, rfl⟩

theorem lineCarries_scriptOf {es : List ToolEvent} : ∀ p ∈ scriptOf es, LineCarries p.1 p.2 := by
  intro p hp
  obtain ⟨e, -, rfl⟩ := List.mem_map.mp hp
  exact lineCarries_eventFields e

theorem toolEvents_scriptOf (es : List ToolEvent) : toolEvents (scriptOf es) = es := by
  rw [toolEvents, scriptOf, List.filterMap_map]
  exact List.filterMap_some

/-- What the handlers make of tool events. -/
def handled (es : List ToolEvent) : Log × CommandCodeSseState :=
  es.foldl (fun x e => (x.1 ++ [(some e, toolDeltas (e.handle x.2).1)], (e.handle x.2).2)) ([], .new)

theorem logged_scriptOf (modelName : Text) (es : List ToolEvent) : logged modelName (scriptOf es) = handled es := by
  rw [logged, scriptOf, List.foldl_map, handled]
  congr 1
  funext x e
  exact advance_some (lineCarries_eventFields e) modelName x.1 x.2

theorem tracks_handled (es : List ToolEvent) : Tracks es (handled es).1 (handled es).2 := by
  have hscript : ∀ p ∈ scriptOf es, LineCarries p.1 p.2 := lineCarries_scriptOf
  have htracks := tracks_logged [] hscript
  rwa [toolEvents_scriptOf, logged_scriptOf] at htracks

theorem handled_concat (es : List ToolEvent) (e : ToolEvent) :
    handled (es ++ [e]) =
      ((handled es).1 ++ [(some e, toolDeltas (e.handle (handled es).2).1)], (e.handle (handled es).2).2) := by
  rw [handled, List.foldl_append]
  rfl

theorem mem_handled_append {es : List ToolEvent} {x : Option ToolEvent × List ToolCallDelta} (hx : x ∈ (handled es).1)
    (es' : List ToolEvent) : x ∈ (handled (es ++ es')).1 := by
  induction es' using List.reverseRecOn with
  | nil => rwa [List.append_nil]
  | append_singleton es' e ih =>
    rw [← List.append_assoc, handled_concat]
    exact List.mem_append_left _ ih

/-- The start of a call, two pieces and the whole call, with another call between them. -/
def twoCalls : List ToolEvent :=
  [⟨['a'], ['f'], .start⟩, ⟨['a'], [], .delta ['4']⟩, ⟨['b'], ['g'], .call ['7']⟩, ⟨['a'], [], .delta ['2']⟩,
    ⟨['a'], ['f'], .call ['4', '2']⟩]

theorem keepsPlaces_twoCalls :
    KeepsPlaces (toolEvents (scriptOf twoCalls)) (logged [] (scriptOf twoCalls)).1 (logged [] (scriptOf twoCalls)).2 :=
  keepsPlaces_logged [] lineCarries_scriptOf

/-- Whole calls of different ids. -/
def callsUpTo (n : Nat) : List ToolEvent := (List.range n).map fun k => ⟨[Char.ofNat (k + 200)], ['f'], .call ['7']⟩

theorem callsUpTo_succ (n : Nat) :
    callsUpTo (n + 1) = callsUpTo n ++ [⟨[Char.ofNat (n + 200)], ['f'], .call ['7']⟩] := by
  rw [callsUpTo, List.range_succ, List.map_append, List.map_singleton]
  rfl

private theorem toNat_ofNat {n : Nat} (h : n < 0xd800) : (Char.ofNat n).toNat = n := by
  rw [Char.ofNat, dif_pos (Or.inl h)]
  rfl

/-- The ids of 128 calls are the characters from 200 to 327. -/
theorem id_ne_of_mem_callsUpTo {c : Char} (hc : c.toNat < 200 ∨ 328 ≤ c.toNat) : ∀ e ∈ callsUpTo 128, e.id ≠ [c] := by
  intro e he heq
  obtain ⟨k, hk, rfl⟩ := List.mem_map.mp he
  have hk' : k < 128 := List.mem_range.mp hk
  have hchar : (Char.ofNat (k + 200)).toNat = k + 200 := toNat_ofNat (by omega)
  rw [List.head_eq_of_cons_eq heq] at hchar
  omega

theorem length_knownIds_callsUpTo : maxCommandcodeToolCalls ≤ (knownIds (callsUpTo 128)).length := by
  by_contra hroom
  have hids : ((List.range 128).map fun k => [Char.ofNat (k + 200)]).Nodup := by
    refine List.Nodup.map_on (fun k hk k' hk' heq => ?_) List.nodup_range
    have hchar : (Char.ofNat (k + 200)).toNat = (Char.ofNat (k' + 200)).toNat := by rw [List.head_eq_of_cons_eq heq]
    rw [List.mem_range] at hk hk'
    rw [toNat_ofNat (by omega), toNat_ofNat (by omega)] at hchar
    omega
  have hsub : ((List.range 128).map fun k => [Char.ofNat (k + 200)]) ⊆ knownIds (callsUpTo 128) := by
    intro id hid
    obtain ⟨k, hk, rfl⟩ := List.mem_map.mp hid
    exact (mem_knownIds_or (List.mem_map_of_mem hk)).resolve_right hroom
  have hlength := (hids.subperm hsub).length_le
  rw [List.length_map, List.length_range] at hlength
  exact hroom hlength

/-- An event of another id behind 128 calls. -/
theorem handled_stray {e : ToolEvent} (hother : ∀ e' ∈ callsUpTo 128, e'.id ≠ e.id) :
    (handled (callsUpTo 128 ++ [e])).1 = (handled (callsUpTo 128)).1 ++ [(some e, e.strayItems)] := by
  have hids := (tracks_handled (callsUpTo 128)).ids
  have hnot : e.id ∉ knownIds (callsUpTo 128) := by
    intro hid
    obtain ⟨e', he', heq⟩ := (knownIds_spec _).2.2 e.id hid
    exact hother e' he' heq
  rw [handled_concat, (ToolEvent.handle_stray (hids ▸ hnot) (hids ▸ length_knownIds_callsUpTo)).1]

/-- A piece for an id without a place. -/
def strayPiece : List ToolEvent := callsUpTo 128 ++ [⟨['d'], [], .delta ['7']⟩]

/-- A piece, and then the whole call with the name. -/
def lateName : List ToolEvent := [⟨['a'], [], .delta ['7']⟩, ⟨['a'], ['f'], .call ['7']⟩]

/-- An empty piece before the whole call. -/
def emptyPiece : List ToolEvent := [⟨['a'], [], .delta []⟩, ⟨['a'], ['f'], .call ['7']⟩]

/-- A piece after the whole call. -/
def latePiece : List ToolEvent := [⟨['a'], ['f'], .call ['7']⟩, ⟨['a'], [], .delta ['7']⟩]

/-- The calls of a script keep their identity. -/
def ScriptKeeps (es : List ToolEvent) : Prop :=
  KeepsIdentity (toolEvents (scriptOf es)) (logged [] (scriptOf es)).1 (logged [] (scriptOf es)).2

/-- The 129th call gets no place and no arguments; a piece without a place goes to the first call; the name of a whole
call after a piece is lost; and an empty piece, or a piece that comes late, makes the arguments wrong. -/
theorem not_keepsIdentity :
    ¬ ScriptKeeps (callsUpTo 129) ∧ ¬ ScriptKeeps strayPiece ∧ ¬ ScriptKeeps lateName ∧ ¬ ScriptKeeps emptyPiece ∧
      ¬ ScriptKeeps latePiece := by
  unfold ScriptKeeps
  rw [toolEvents_scriptOf, logged_scriptOf, toolEvents_scriptOf, logged_scriptOf, toolEvents_scriptOf, logged_scriptOf,
    toolEvents_scriptOf, logged_scriptOf, toolEvents_scriptOf, logged_scriptOf]
  refine ⟨?_, ?_, ?_, ?_, ?_⟩
  · intro h
    have hother : ∀ e ∈ callsUpTo 128, e.id ≠ [Char.ofNat 328] := id_ne_of_mem_callsUpTo (by decide)
    have hcall := h.arguments ⟨[Char.ofNat 328], ['f'], .call ['7']⟩ (by simp [callsUpTo_succ 128]) ⟨_, rfl⟩
    have hnone : (handled (callsUpTo 129)).1.sentFor [Char.ofNat 328] = [] := by
      rw [callsUpTo_succ, handled_stray hother, sentFor_concat, (tracks_handled _).absent _ hother]
      rfl
    have hsome : argumentsOf (callsUpTo 129) [Char.ofNat 328] = ['7'] := by decide +kernel
    rw [hnone, hsome] at hcall
    cases hcall
  · intro h
    have hother : ∀ e ∈ callsUpTo 128, e.id ≠ ['d'] := id_ne_of_mem_callsUpTo (by decide)
    have hone : (some ⟨[Char.ofNat 200], ['f'], .call ['7']⟩, [⟨some 0, some [Char.ofNat 200], some ['f'], ['7']⟩]) ∈
        (handled (callsUpTo 1)).1 := by decide
    have hfirst := mem_handled_append (mem_handled_append hone ((callsUpTo 128).drop 1)) [⟨['d'], [], .delta ['7']⟩]
    have hsplit : callsUpTo 1 ++ (callsUpTo 128).drop 1 = callsUpTo 128 := rfl
    rw [hsplit] at hfirst
    have hstray : (some ⟨['d'], [], .delta ['7']⟩, [⟨some 0, none, none, ['7']⟩]) ∈ (handled strayPiece).1 := by
      rw [strayPiece, handled_stray hother]
      exact List.mem_append_right _ List.mem_cons_self
    have hsame := h.apart _ hfirst _ hstray _ List.mem_cons_self _ List.mem_cons_self (by simp) (by simp) rfl
    exact absurd hsame (by decide)
  · intro h
    obtain ⟨d, hd, -, hid, -⟩ := h.named 0 ['a'] rfl ⟨⟨['a'], ['f'], .call ['7']⟩, by decide, rfl, by simp⟩
    have hitems : (handled lateName).1.items = [⟨some 0, none, none, ['7']⟩] := rfl
    rw [hitems, List.mem_singleton] at hd
    subst hd
    cases hid
  · intro h
    have hcall := h.arguments ⟨['a'], ['f'], .call ['7']⟩ (by decide) ⟨_, rfl⟩
    exact absurd hcall (by decide)
  · intro h
    have hcall := h.arguments ⟨['a'], ['f'], .call ['7']⟩ (by decide) ⟨_, rfl⟩
    exact absurd hcall (by decide)

end OpenProxy.Upstream.CommandCode
