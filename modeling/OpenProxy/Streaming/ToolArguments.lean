import OpenProxy.Streaming.Normalizer
import Mathlib.Data.List.Chain

/-!
# The arguments that the normalizer forwards

`ToolCallAccumulator` is given the arguments of a call piece by piece, each the whole text so far or the part that is new,
and guesses which by a prefix test against its running total.  Below the caps it behaves as one machine for each index
(`ofIndex_forwardAll`).  Of an upstream that sends the whole text each time the new parts are forwarded.  Fragments are
forwarded as they are unless one starts with all the text before it (`flatten_forwarded_iff`).
-/

namespace OpenProxy.Streaming

/-! ### One index -/

/-- What `process` does to the running total of one index: the new total, and the fragment to forward. -/
def track (prev arguments : Text) : Text × Text :=
  let fragment := extractArgumentFragment prev arguments
  if maxToolCallArgsBytes < utf8Len prev + utf8Len fragment then (prev, []) else (prev ++ fragment, fragment)

section

variable {prev arguments : Text}

theorem extractArgumentFragment_append (prev rest : Text) : extractArgumentFragment prev (prev ++ rest) = rest := by
  unfold extractArgumentFragment stripPrefix
  cases prev with
  | nil => rfl
  | cons c prev => simp

theorem extractArgumentFragment_of_not (h : ¬ prev <+: arguments) : extractArgumentFragment prev arguments = arguments := by
  unfold extractArgumentFragment stripPrefix
  rw [if_neg (fun hp => h (List.isPrefixOf_iff_prefix.mp hp))]
  simp

theorem length_extractArgumentFragment_le (prev arguments : Text) :
    (extractArgumentFragment prev arguments).length ≤ arguments.length := by
  by_cases h : prev <+: arguments
  · obtain ⟨rest, rfl⟩ := h
    rw [extractArgumentFragment_append, List.length_append]
    omega
  · rw [extractArgumentFragment_of_not h]

theorem length_track_le (prev arguments : Text) : (track prev arguments).2.length ≤ arguments.length := by
  unfold track
  dsimp only
  split
  · exact Nat.zero_le _
  · exact length_extractArgumentFragment_le prev arguments

end

/-- Each string of a sequence extends the one before. -/
def Cumulative (sent : List Text) : Prop := sent.IsChain (· <+: ·)

/-- A fragment starts with all the text before it. -/
def Restarts (sent : List Text) : Prop :=
  ∃ before fragment after, sent = before ++ fragment :: after ∧ before.flatten ≠ [] ∧ before.flatten <+: fragment

/-- The run lemma for whole texts: what has been forwarded is the last text. -/
theorem flatten_track_cumulative {prev : Text} {sent : List Text} (h : (prev :: sent).IsChain (· <+: ·))
    (hcap : ∀ s ∈ sent, utf8Len s ≤ maxToolCallArgsBytes) :
    prev ++ (outputs track prev sent).flatten = sent.getLastD prev := by
  induction sent generalizing prev with
  | nil => exact List.append_nil prev
  | cons s sent ih =>
    obtain ⟨⟨rest, rfl⟩, hchain⟩ := List.isChain_cons_cons.mp h
    have hs : utf8Len (prev ++ rest) ≤ maxToolCallArgsBytes := hcap _ List.mem_cons_self
    have hstep : track prev (prev ++ rest) = (prev ++ rest, rest) := by
      unfold track
      rw [extractArgumentFragment_append]
      rw [utf8Len_append] at hs
      exact if_neg (Nat.not_lt.mpr hs)
    rw [outputs, hstep, List.flatten_cons, ← List.append_assoc, ih hchain fun s hs => hcap s (List.mem_cons_of_mem _ hs),
      List.getLastD_cons]

/-- A fragment that starts with all the text before the given ones. -/
def RestartsFrom (prev : Text) (sent : List Text) : Prop :=
  ∃ before fragment after, sent = before ++ fragment :: after ∧ prev ++ before.flatten ≠ [] ∧
    prev ++ before.flatten <+: fragment

theorem restartsFrom_cons {prev f : Text} {sent : List Text} :
    RestartsFrom prev (f :: sent) ↔ (prev ≠ [] ∧ prev <+: f) ∨ RestartsFrom (prev ++ f) sent := by
  constructor
  · rintro ⟨before, fragment, after, hsent, hne, hbegins⟩
    cases before with
    | nil =>
      obtain ⟨rfl, rfl⟩ := List.cons.inj hsent
      rw [List.flatten_nil, List.append_nil] at hne hbegins
      exact .inl ⟨hne, hbegins⟩
    | cons f' before =>
      obtain ⟨rfl, rfl⟩ := List.cons.inj hsent
      rw [List.flatten_cons, ← List.append_assoc] at hne hbegins
      exact .inr ⟨before, fragment, after, rfl, hne, hbegins⟩
  · rintro (⟨hne, hbegins⟩ | ⟨before, fragment, after, rfl, hne, hbegins⟩)
    · exact ⟨[], f, sent, rfl, by simpa using hne, by simpa using hbegins⟩
    · rw [List.append_assoc] at hne hbegins
      exact ⟨f :: before, fragment, after, rfl, hne, hbegins⟩

theorem length_outputs_track_le (prev : Text) (sent : List Text) :
    (outputs track prev sent).flatten.length ≤ sent.flatten.length := by
  induction sent generalizing prev with
  | nil => exact Nat.le_refl _
  | cons s sent ih =>
    have hs := length_track_le prev s
    have hrest := ih (track prev s).1
    rw [outputs, List.flatten_cons, List.flatten_cons, List.length_append, List.length_append]
    omega

/-- The step lemma for fragments. -/
theorem track_of_fragment {prev f : Text} (h : ¬ (prev ≠ [] ∧ prev <+: f))
    (hcap : utf8Len prev + utf8Len f ≤ maxToolCallArgsBytes) : track prev f = (prev ++ f, f) := by
  have hfragment : extractArgumentFragment prev f = f := by
    by_cases hnil : prev = []
    · rw [hnil]
      rfl
    · exact extractArgumentFragment_of_not fun hbegins => h ⟨hnil, hbegins⟩
  unfold track
  rw [hfragment]
  exact if_neg (Nat.not_lt.mpr hcap)

/-- The run lemma for fragments: they are forwarded as they are, or text is lost. -/
theorem flatten_track_iff {prev : Text} {sent : List Text}
    (hcap : utf8Len prev + (sent.map utf8Len).sum ≤ maxToolCallArgsBytes) :
    (outputs track prev sent).flatten = sent.flatten ↔ ¬ RestartsFrom prev sent := by
  induction sent generalizing prev with
  | nil =>
    refine iff_of_true rfl ?_
    rintro ⟨before, fragment, after, hsent, -⟩
    cases before <;> cases hsent
  | cons f sent ih =>
    rw [restartsFrom_cons]
    rw [List.map_cons, List.sum_cons] at hcap
    by_cases hrestart : prev ≠ [] ∧ prev <+: f
    · refine iff_of_false ?_ fun h => h (.inl hrestart)
      obtain ⟨hne, rest, rfl⟩ := hrestart
      intro heq
      have hlost : (track prev (prev ++ rest)).2.length ≤ rest.length := by
        unfold track
        rw [extractArgumentFragment_append]
        dsimp only
        split
        · exact Nat.zero_le _
        · exact Nat.le_refl _
      have hrest := length_outputs_track_le (track prev (prev ++ rest)).1 sent
      have hlength := congrArg List.length heq
      have hpos := List.length_pos_iff.mpr hne
      rw [outputs, List.flatten_cons, List.flatten_cons, List.length_append, List.length_append,
        List.length_append] at hlength
      omega
    · have hnext : utf8Len (prev ++ f) + (sent.map utf8Len).sum ≤ maxToolCallArgsBytes := by
        rw [utf8Len_append]
        omega
      rw [outputs, track_of_fragment hrestart (by omega), List.flatten_cons, List.flatten_cons,
        List.append_cancel_left_eq, ih hnext]
      simp [hrestart]

/-! ### All indices -/

/-- The calls of `process`, with an index each, one after the other; what is forwarded for each of them. -/
def forwardAll : ToolCallAccumulator → List (Nat × Text) → List (Nat × Text)
  | _, [] => []
  | acc, (index, arguments) :: calls =>
    let (fragment, acc) := acc.process index arguments
    (index, fragment) :: forwardAll acc calls

/-- The texts of one index. -/
def ofIndex (index : Nat) (calls : List (Nat × Text)) : List Text :=
  calls.filterMap fun call => if call.1 = index then some call.2 else none

theorem forwardAll_cons (acc : ToolCallAccumulator) (index : Nat) (arguments : Text) (calls : List (Nat × Text)) :
    forwardAll acc ((index, arguments) :: calls) =
      (index, (acc.process index arguments).1) :: forwardAll (acc.process index arguments).2 calls := rfl

theorem ofIndex_cons_self (index : Nat) (text : Text) (calls : List (Nat × Text)) :
    ofIndex index ((index, text) :: calls) = text :: ofIndex index calls := by
  simp [ofIndex]

theorem ofIndex_cons_of_ne {index index' : Nat} (h : index' ≠ index) (text : Text) (calls : List (Nat × Text)) :
    ofIndex index ((index', text) :: calls) = ofIndex index calls := by
  simp [ofIndex, h]

/-- The accumulator has one entry for each of some indices. -/
structure Indexed (indices : List Nat) (acc : ToolCallAccumulator) : Prop where
  nodup : (acc.map Prod.fst).Nodup
  subset : ∀ index ∈ acc.map Prod.fst, index ∈ indices

theorem indexed_nil (indices : List Nat) : Indexed indices [] := ⟨List.nodup_nil, fun _ h => nomatch h⟩

section

variable {indices : List Nat} {acc : ToolCallAccumulator} {index : Nat}

theorem isSome_lookup_iff : (acc.lookup index).isSome ↔ index ∈ acc.map Prod.fst := by
  rw [List.lookup_isSome_iff, List.mem_map]
  simp only [beq_iff_eq, @eq_comm _ index]

theorem lookup_filter_ne {index' : Nat} (h : index' ≠ index) (acc : ToolCallAccumulator) :
    (acc.filter fun entry => entry.1 != index).lookup index' = acc.lookup index' := by
  induction acc with
  | nil => rfl
  | cons entry acc ih =>
    obtain ⟨k, total⟩ := entry
    by_cases hk : k = index
    · rw [List.filter_cons_of_neg (by simp [hk]), ih, List.lookup_cons, beq_eq_false_iff_ne.mpr (hk ▸ h)]
    · rw [List.filter_cons_of_pos (by simp [hk]), List.lookup_cons, List.lookup_cons, ih]

/-- Below the cap on indices, `process` updates the running total of its index. -/
theorem process_eq (hacc : Indexed indices acc) (hindex : index ∈ indices)
    (hcap : indices.dedup.length ≤ maxToolCallIndices) (arguments : Text) :
    acc.process index arguments =
      ((track ((acc.lookup index).getD []) arguments).2,
        (index, (track ((acc.lookup index).getD []) arguments).1) :: acc.filter fun entry => entry.1 != index) := by
  have hroom : ¬ ((acc.lookup index).isNone && decide (maxToolCallIndices ≤ acc.length)) = true := by
    intro hfull
    rw [Bool.and_eq_true, decide_eq_true_iff] at hfull
    have hnew : index ∉ acc.map Prod.fst := by
      rw [← isSome_lookup_iff, Option.not_isSome_iff_eq_none]
      exact Option.isNone_iff_eq_none.mp hfull.1
    have hlength : (index :: acc.map Prod.fst).length ≤ indices.dedup.length := by
      apply List.Subperm.length_le
      apply (List.nodup_cons.mpr ⟨hnew, hacc.nodup⟩).subperm
      intro k hk
      rw [List.mem_dedup]
      rcases List.mem_cons.mp hk with rfl | hk
      · exact hindex
      · exact hacc.subset k hk
    rw [List.length_cons, List.length_map] at hlength
    omega
  unfold ToolCallAccumulator.process track
  rw [if_neg hroom]
  dsimp only
  split
  · rfl
  · rfl

theorem indexed_process (hacc : Indexed indices acc) (hindex : index ∈ indices) (total : Text) :
    Indexed indices ((index, total) :: acc.filter fun entry => entry.1 != index) := by
  have hsub : (acc.filter fun entry => entry.1 != index).map Prod.fst |>.Sublist (acc.map Prod.fst) :=
    List.filter_sublist.map Prod.fst
  refine ⟨List.nodup_cons.mpr ⟨?_, hacc.nodup.sublist hsub⟩, fun k hk => ?_⟩
  · simp
  · rcases List.mem_cons.mp hk with rfl | hk
    · exact hindex
    · exact hacc.subset k (hsub.subset hk)

end

/-- Below the cap on indices, each index has a machine of its own. -/
theorem ofIndex_forwardAll {indices : List Nat} (hcap : indices.dedup.length ≤ maxToolCallIndices) (index : Nat)
    {acc : ToolCallAccumulator} (hacc : Indexed indices acc) {calls : List (Nat × Text)}
    (hcalls : ∀ call ∈ calls, call.1 ∈ indices) :
    ofIndex index (forwardAll acc calls) = outputs track ((acc.lookup index).getD []) (ofIndex index calls) := by
  induction calls generalizing acc with
  | nil => rfl
  | cons call calls ih =>
    obtain ⟨index', arguments⟩ := call
    have hindex' : index' ∈ indices := hcalls _ List.mem_cons_self
    have hrest := fun total => ih (indexed_process hacc hindex' total) fun call hcall =>
      hcalls call (List.mem_cons_of_mem _ hcall)
    rw [forwardAll_cons, process_eq hacc hindex' hcap]
    by_cases h : index' = index
    · subst h
      rw [ofIndex_cons_self, ofIndex_cons_self, hrest, List.lookup_cons_self]
      rfl
    · rw [ofIndex_cons_of_ne h, ofIndex_cons_of_ne h, hrest, List.lookup_cons, beq_eq_false_iff_ne.mpr (Ne.symm h)]
      dsimp only
      rw [lookup_filter_ne (Ne.symm h)]

/-! ### Exactly what was sent -/

/-- A JSON object, as a text. -/
def IsObjectText (text : Text) : Prop := ∃ members, read text = some (Json.object members)

/-- The values forwarded for the calls with an index. -/
def forwarded (index : Nat) (calls : List (Nat × Text)) : List Text := ofIndex index (forwardAll [] calls)

/-- The number of indices is below the cap. -/
def IndicesFit (calls : List (Nat × Text)) : Prop := (calls.map Prod.fst).dedup.length ≤ maxToolCallIndices

instance (calls : List (Nat × Text)) : Decidable (IndicesFit calls) := inferInstanceAs (Decidable (_ ≤ _))

/-- The strings are the fragments of an object below the cap on its length. -/
def FragmentsOfObject (sent : List Text) : Prop :=
  (sent.map utf8Len).sum ≤ maxToolCallArgsBytes ∧ IsObjectText sent.flatten

/-- What is forwarded for an index is exactly what the upstream sent, whichever way it streams. -/
structure ForwardsExactly (index : Nat) (calls : List (Nat × Text)) : Prop where
  /-- Of strings that extend each other, the last one. -/
  cumulative : Cumulative (ofIndex index calls) → (∀ s ∈ ofIndex index calls, utf8Len s ≤ maxToolCallArgsBytes) →
    (forwarded index calls).flatten = (ofIndex index calls).getLastD []
  /-- Of fragments, all of them. -/
  fragments : FragmentsOfObject (ofIndex index calls) →
    (forwarded index calls).flatten = (ofIndex index calls).flatten
  /-- The strings of other indices do not matter. -/
  independent : ∀ calls', IndicesFit calls' → ofIndex index calls' = ofIndex index calls →
    forwarded index calls' = forwarded index calls

theorem forwarded_eq {calls : List (Nat × Text)} (h : IndicesFit calls) (index : Nat) :
    forwarded index calls = outputs track [] (ofIndex index calls) :=
  ofIndex_forwardAll h index (indexed_nil _) fun _ hcall => List.mem_map_of_mem hcall

/-- Below the cap on indices, exactly what the upstream sent is forwarded if and only if it does not send an object in
fragments of which one starts with all the text before it. -/
theorem forwardsExactly_iff {calls : List (Nat × Text)} (h : IndicesFit calls) (index : Nat) :
    ForwardsExactly index calls ↔ (FragmentsOfObject (ofIndex index calls) → ¬ Restarts (ofIndex index calls)) := by
  have hfragments : FragmentsOfObject (ofIndex index calls) →
      ((forwarded index calls).flatten = (ofIndex index calls).flatten ↔ ¬ Restarts (ofIndex index calls)) := by
    rintro ⟨hcap, -⟩
    rw [forwarded_eq h]
    exact flatten_track_iff (by simpa using hcap)
  constructor
  · exact fun hexact hobject => (hfragments hobject).mp (hexact.fragments hobject)
  · intro hrestarts
    refine ⟨fun hchain hcap => ?_, fun hobject => (hfragments hobject).mpr (hrestarts hobject), fun calls' h' hsame => ?_⟩
    · rw [forwarded_eq h]
      have hfrom : ([] :: ofIndex index calls).IsChain (· <+: ·) := by
        cases hsent : ofIndex index calls with
        | nil => exact List.isChain_singleton []
        | cons s sent => exact List.isChain_cons_cons.mpr ⟨List.nil_prefix, hsent ▸ hchain⟩
      exact flatten_track_cumulative hfrom hcap
    · rw [forwarded_eq h, forwarded_eq h', hsame]

/-- The fragments of an object, with one of another call between them. -/
def interleavedFragments : List (Nat × Text) :=
  [(0, "\x7b\"a\":".toList), (1, "\x7b".toList), (0, "1\x7d".toList)]

theorem forwardsExactly_interleaved : ForwardsExactly 0 interleavedFragments := by
  apply (forwardsExactly_iff (show IndicesFit interleavedFragments by decide) 0).mpr
  rintro - ⟨before, fragment, after, hsent, hne, hbegins⟩
  have hsent : ["\x7b\"a\":".toList, "1\x7d".toList] = before ++ fragment :: after := hsent
  rcases before with _ | ⟨first, _ | ⟨second, before⟩⟩
  · exact hne rfl
  · obtain ⟨rfl, hrest⟩ := List.cons.inj hsent
    obtain ⟨rfl, -⟩ := List.cons.inj hrest
    exact absurd (List.isPrefixOf_iff_prefix.mpr hbegins) (by decide)
  · obtain ⟨-, hrest⟩ := List.cons.inj hsent
    obtain ⟨-, hrest⟩ := List.cons.inj hrest
    exact absurd hrest (by simp)

/-- An object whose key is repeated inside. -/
def nestedObject : Json :=
  Json.object [("a".toList, Json.object [("a".toList, Json.number (JsonNumber.ofNat 1))])]

/-- An object whose key and first member are repeated inside. -/
def nestedFragments : List (Nat × Text) :=
  [(0, "\x7b\"a\":".toList), (0, "\x7b\"a\":1\x7d".toList), (0, "\x7d".toList)]

theorem forwardsExactly_nested :
    (forwarded 0 nestedFragments).flatten = "\x7b\"a\":1\x7d\x7d".toList ∧ ¬ ForwardsExactly 0 nestedFragments := by
  have hforwarded : (forwarded 0 nestedFragments).flatten = "\x7b\"a\":1\x7d\x7d".toList := by decide
  refine ⟨hforwarded, fun hexact => ?_⟩
  have hobject : FragmentsOfObject (ofIndex 0 nestedFragments) :=
    ⟨by decide, _, read_write nestedObject⟩
  have hall := hexact.fragments hobject
  rw [hforwarded] at hall
  exact absurd hall (by decide)

end OpenProxy.Streaming
