import OpenProxy.Data.Sweep
import OpenProxy.Pii.Engine

/-!
# What redaction hides

The output of `redactText` is the text outside the candidates that it replaces, with a pseudonym between each two
pieces (`redactText_eq_interleave`).  Everything inside a candidate is hidden so exactly when the candidates are tiled:
some of them, each the longest one that begins where it does, are apart and cover whatever a candidate covers
(`redactText_hides_iff`).  A candidate that begins inside another one and reaches further is given up as a whole, and
what it has beyond the other stays in the text (`not_hides_sanchez`).
-/

namespace OpenProxy.Pii

open Data

variable {text text' : Text} {entities : List PiiEntity}

namespace Candidate

/-- The offset lies in one of the candidates. -/
abbrev Covers (cs : List (Candidate text)) (i : Nat) : Prop := Sweep.Covers start stop cs i

/-- Some of the candidates, each the longest one with its start, are apart and cover what the candidates cover. -/
abbrev Tiled (cs : List (Candidate text)) : Prop := Sweep.Tiled start stop cs

/-- A candidate without the text. -/
def range (c : Candidate text) : Nat × Nat × PiiEntity := (c.start, c.stop, c.entity)

/-! ### The candidates that are left -/

theorem removeOverlapping_eq_sweep (lastEnd : Nat) (cs : List (Candidate text)) :
    removeOverlapping lastEnd cs = Sweep.sweep start stop lastEnd cs := by
  induction cs generalizing lastEnd with
  | nil => rfl
  | cons c cs ih => rw [removeOverlapping, Sweep.sweep, ih, ih]

instance : Std.Total (@byStart text) where
  total a b := by
    unfold byStart
    omega

instance : IsTrans (Candidate text) byStart where
  trans a b c hab hbc := by
    unfold byStart at *
    omega

theorem covers_nonOverlapping_iff (collected : List (Candidate text)) :
    (∀ i, Covers collected i → Covers (nonOverlapping collected) i) ↔ Tiled collected := by
  have hmem : ∀ c, c ∈ collected.insertionSort byStart ↔ c ∈ collected := fun c => List.mem_insertionSort _
  have hsorted : (collected.insertionSort byStart).Pairwise (Sweep.Before start stop) :=
    List.pairwise_insertionSort byStart _
  rw [nonOverlapping, removeOverlapping_eq_sweep, Tiled, ← Sweep.tiled_congr hmem,
    ← Sweep.covers_sweep_iff hsorted (fun c _ => c.start_le) fun c _ => Nat.zero_le _]
  simp only [Covers, Sweep.covers_congr hmem]

theorem map_removeOverlapping {cs : List (Candidate text)} {cs' : List (Candidate text')} (h : cs.map range = cs'.map range)
    (lastEnd : Nat) : (removeOverlapping lastEnd cs).map range = (removeOverlapping lastEnd cs').map range := by
  induction cs generalizing cs' lastEnd with
  | nil =>
    rw [List.map_nil, eq_comm, List.map_eq_nil_iff] at h
    rw [h]
    rfl
  | cons c cs ih =>
    cases cs' with
    | nil => simp at h
    | cons c' cs' =>
      rw [List.map_cons, List.map_cons, List.cons.injEq] at h
      obtain ⟨hc, htail⟩ := h
      have hstart : c.start = c'.start := congrArg Prod.fst hc
      have hstop : c.stop = c'.stop := congrArg (fun r => r.2.1) hc
      unfold removeOverlapping
      rw [hstart, hstop]
      split
      · rw [List.map_cons, List.map_cons, hc, ih htail]
      · exact ih htail lastEnd

/-- Which candidates are left depends on their ranges only. -/
theorem map_nonOverlapping {collected : List (Candidate text)} {collected' : List (Candidate text')}
    (h : collected.map range = collected'.map range) :
    (nonOverlapping collected).map range = (nonOverlapping collected').map range := by
  let before : Nat × Nat × PiiEntity → Nat × Nat × PiiEntity → Prop := fun a b =>
    a.1 < b.1 ∨ (a.1 = b.1 ∧ b.2.1 ≤ a.2.1)
  have hdec : DecidableRel before := fun _ _ => inferInstanceAs (Decidable (_ ∨ _))
  apply map_removeOverlapping
  rw [List.map_insertionSort byStart before range collected fun _ _ _ _ => Iff.rfl,
    List.map_insertionSort byStart before range collected' fun _ _ _ _ => Iff.rfl, h]

/-! ### The text between the candidates -/

/-- What the text has between the candidates, from offset `curr` on. -/
def pieces : Nat → List (Candidate text) → List Text
  | curr, [] => [text.drop curr]
  | curr, c :: cs => (text.take c.start).drop curr :: pieces c.stop cs

/-- The pieces with a pseudonym between each two of them. -/
def interleave : List Text → List Text → Text
  | piece :: pieces, placeholder :: placeholders => piece ++ placeholder ++ interleave pieces placeholders
  | pieces, _ => pieces.flatten

theorem substitute_eq_interleave (f : Candidate text → Text) (curr : Nat) (cs : List (Candidate text)) :
    substitute f curr cs = interleave (pieces curr cs) (cs.map f) := by
  induction cs generalizing curr with
  | nil => simp [substitute, pieces, interleave]
  | cons c cs ih => rw [substitute, pieces, List.map_cons, interleave, ih]

/-- The part of a text between two offsets depends on what the text has there only. -/
theorem slice_congr {a b : Nat} (h : ∀ i, a ≤ i → i < b → text[i]? = text'[i]?) :
    (text.take b).drop a = (text'.take b).drop a := by
  refine List.ext_getElem? fun i => ?_
  rw [List.getElem?_drop, List.getElem?_drop, List.getElem?_take, List.getElem?_take]
  split
  · exact h (a + i) (by omega) (by omega)
  · rfl

theorem Ordered.not_covers {curr i : Nat} {cs : List (Candidate text)} (h : Ordered curr cs) (hi : i < curr) :
    ¬ Covers cs i := by
  induction cs generalizing curr with
  | nil => simp [Covers, Sweep.Covers]
  | cons c cs ih =>
    rintro ⟨c', hc', hstart, hstop⟩
    have hle : curr ≤ c.start := h.1
    rcases List.mem_cons.mp hc' with rfl | hc'
    · omega
    · have hlt : i < c.stop := by
        have := c.start_le
        omega
      exact ih h.2 hlt ⟨c', hc', hstart, hstop⟩

/-- The text between the candidates is the same in a text that differs inside the candidates only. -/
theorem pieces_congr {cs : List (Candidate text)} {cs' : List (Candidate text')} {curr : Nat} (hordered : Ordered curr cs)
    (hranges : cs.map range = cs'.map range)
    (hagree : ∀ i, curr ≤ i → ¬ Covers cs i → text[i]? = text'[i]?) : pieces curr cs = pieces curr cs' := by
  induction cs generalizing cs' curr with
  | nil =>
    rw [List.map_nil, eq_comm, List.map_eq_nil_iff] at hranges
    subst hranges
    have hdrop : text.drop curr = text'.drop curr := by
      refine List.ext_getElem? fun i => ?_
      rw [List.getElem?_drop, List.getElem?_drop]
      exact hagree (curr + i) (by omega) (by simp [Covers, Sweep.Covers])
    rw [pieces, pieces, hdrop]
  | cons c cs ih =>
    cases cs' with
    | nil => simp at hranges
    | cons c' cs' =>
      rw [List.map_cons, List.map_cons, List.cons.injEq] at hranges
      obtain ⟨hc, htail⟩ := hranges
      have hstart : c.start = c'.start := congrArg Prod.fst hc
      have hstop : c.stop = c'.stop := congrArg (fun r => r.2.1) hc
      have hfirst : (text.take c.start).drop curr = (text'.take c.start).drop curr := by
        have hfrom : Ordered c.start (c :: cs) := ⟨le_refl _, hordered.2⟩
        exact slice_congr fun i hi hlt => hagree i hi (hfrom.not_covers hlt)
      have hrest : pieces c.stop cs = pieces c.stop cs' := by
        refine ih hordered.2 htail fun i hi hnot => hagree i (hordered.1.trans (c.start_le.trans hi)) ?_
        rintro ⟨d, hd, hin⟩
        rcases List.mem_cons.mp hd with rfl | hd
        · omega
        · exact hnot ⟨d, hd, hin⟩
      rw [pieces, pieces, hfirst, hrest, hstart, hstop]

end Candidate

/-! ### Redaction -/

/-- What `collect_candidates` returns: candidates for the entities of the engine. -/
structure Detection (entities : List PiiEntity) (text : Text) where
  candidates : List (Candidate text)
  wanted : ∀ c ∈ candidates, c.entity ∈ entities

namespace Detection

/-- The candidates that are replaced. -/
def replaced (d : Detection entities text) : List (Candidate text) :=
  if text.isEmpty || entities.isEmpty then [] else Candidate.nonOverlapping d.candidates

/-- The text outside the pseudonyms. -/
def outside (d : Detection entities text) : List Text := Candidate.pieces 0 d.replaced

/-- The texts differ inside the candidates only, which have the same ranges and entities. -/
structure DifferInside (d : Detection entities text) (d' : Detection entities text') : Prop where
  ranges : d.candidates.map Candidate.range = d'.candidates.map Candidate.range
  length : text.length = text'.length
  agree : ∀ i, ¬ Candidate.Covers d.candidates i → text[i]? = text'[i]?

/-- Every character inside a candidate is replaced, and the outputs for texts that differ inside the candidates only
are the same outside the pseudonyms. -/
structure Hides (d : Detection entities text) : Prop where
  replaced : ∀ i, Candidate.Covers d.candidates i → Candidate.Covers d.replaced i
  outside : ∀ (text' : Text) (d' : Detection entities text'), d.DifferInside d' →
    ∀ (u : CharTables) (orders orders' : Nat → HashOrder) (s s₁ s' s₁' : PiiSession) (out out' : Text),
      redactText u entities d.candidates orders s = some (out, s₁) →
      redactText u entities d'.candidates orders' s' = some (out', s₁') →
      out = Candidate.interleave d.outside (d.replaced.map s₁.placeholderOf) ∧
        out' = Candidate.interleave d.outside (d'.replaced.map s₁'.placeholderOf)

theorem redactText_eq_interleave (d : Detection entities text) {u : CharTables} {orders : Nat → HashOrder}
    {s s' : PiiSession} {out : Text} (h : redactText u entities d.candidates orders s = some (out, s')) :
    out = Candidate.interleave d.outside (d.replaced.map s'.placeholderOf) := by
  unfold redactText at h
  unfold outside replaced
  split at h
  · rename_i hnone
    rw [if_pos hnone]
    simp only [Option.some.injEq, Prod.mk.injEq] at h
    simp [Candidate.pieces, Candidate.interleave, h.1]
  · rename_i hnone
    rw [if_neg hnone]
    dsimp only at h
    split at h
    · rename_i hempty
      rw [List.isEmpty_iff] at hempty
      simp only [Option.some.injEq, Prod.mk.injEq] at h
      simp [hempty, Candidate.nonOverlapping, Candidate.removeOverlapping, Candidate.pieces, Candidate.interleave, h.1]
    · obtain ⟨hout, -⟩ := PiiSession.replaceLoop_spec ∅ h
      rw [hout, List.nil_append, Candidate.substitute_eq_interleave]

theorem covers_replaced_iff (d : Detection entities text) :
    (∀ i, Candidate.Covers d.candidates i → Candidate.Covers d.replaced i) ↔ Candidate.Tiled d.candidates := by
  rw [← Candidate.covers_nonOverlapping_iff]
  unfold replaced
  split
  · -- nothing to cover, since no text or no entity means that no candidate has a character
    rename_i hnone
    have hnot : ∀ i, ¬ Candidate.Covers d.candidates i := by
      rintro i ⟨c, hc, -, hlt⟩
      rcases (Bool.or_eq_true _ _).mp hnone with htext | hentities
      · have hlength : text.length = 0 := List.isEmpty_iff_length_eq_zero.mp htext
        have := c.stop_le
        omega
      · have hmem := d.wanted c hc
        rw [List.isEmpty_iff.mp hentities] at hmem
        simp at hmem
    exact ⟨fun _ i hi => absurd hi (hnot i), fun _ i hi => absurd hi (hnot i)⟩
  · exact Iff.rfl

/-- The pieces of two texts that differ inside the candidates only, if all of these are replaced. -/
theorem outside_congr {d : Detection entities text} {d' : Detection entities text'} (h : d.DifferInside d')
    (hcovers : ∀ i, Candidate.Covers d.candidates i → Candidate.Covers d.replaced i) : d'.outside = d.outside := by
  have hempty : text'.isEmpty = text.isEmpty := by
    rw [Bool.eq_iff_iff, List.isEmpty_iff_length_eq_zero, List.isEmpty_iff_length_eq_zero, h.length]
  have hranges : d.replaced.map Candidate.range = d'.replaced.map Candidate.range := by
    unfold replaced
    rw [hempty]
    split
    · rfl
    · exact Candidate.map_nonOverlapping h.ranges
  have hordered : Candidate.Ordered 0 d.replaced := by
    unfold replaced
    split
    · trivial
    · exact Candidate.nonOverlapping_ordered _
  refine (Candidate.pieces_congr hordered hranges fun i _ hnot => h.agree i fun hc => hnot (hcovers i hc)).symm

theorem redactText_hides_iff (d : Detection entities text) : d.Hides ↔ Candidate.Tiled d.candidates := by
  rw [← covers_replaced_iff]
  constructor
  · exact Hides.replaced
  · intro hcovers
    refine ⟨hcovers, fun text' d' hdiffer u orders orders' s s₁ s' s₁' out out' hrun hrun' => ?_⟩
    refine ⟨d.redactText_eq_interleave hrun, ?_⟩
    rw [← outside_congr hdiffer hcovers]
    exact d'.redactText_eq_interleave hrun'

end Detection

/-! ### A name that runs into an address -/

/-- The candidate for the address, which begins at the family name. -/
def sanchezEmail : Candidate "Carlos Sanchez.dev@example.com".toList := ⟨7, 30, .email, by decide, by decide⟩

/-- The candidate for the given name with the family name. -/
def carlosSanchez : Candidate "Carlos Sanchez.dev@example.com".toList := ⟨0, 14, .person, by decide, by decide⟩

/-- The address, the given name alone, and the whole name. -/
def sanchez : Detection PiiEntity.all "Carlos Sanchez.dev@example.com".toList where
  candidates := [sanchezEmail, ⟨0, 6, .person, by decide, by decide⟩, carlosSanchez]
  wanted := fun c _ => by cases c.entity <;> decide

/-- The address is given up as a whole, and most of it stays in the text. -/
theorem not_hides_sanchez : ¬ sanchez.Hides ∧ sanchez.outside = [[], ".dev@example.com".toList] := by
  have hleft : sanchez.replaced = [carlosSanchez] := rfl
  refine ⟨fun h => ?_, by rw [Detection.outside, hleft]; decide⟩
  have hin : Candidate.Covers sanchez.candidates 14 := ⟨sanchezEmail, List.mem_cons_self, by decide, by decide⟩
  obtain ⟨c, hc, -, hlt⟩ := h.replaced 14 hin
  rw [hleft, List.mem_singleton] at hc
  subst hc
  exact absurd hlt (by decide)

end OpenProxy.Pii
