import OpenProxy.Pii.Reversible

/-!
# Redaction

`redactText` raises the counters of the session above the pseudonyms that the text already has, sorts the candidates that
the patterns of the entities propose, gives up those that overlap one further left, and writes the text with the
pseudonym of each candidate that is left in its place.  The candidates are given: what the patterns match is not modelled.
-/

namespace OpenProxy.Pii

variable {text : Text}

/-- `Candidate`.  Its offsets are counted in characters. -/
structure Candidate (text : Text) where
  start : Nat
  stop : Nat
  entity : PiiEntity
  start_le : start ≤ stop
  stop_le : stop ≤ text.length

namespace Candidate

/-- `matched_text`. -/
def matchedText (c : Candidate text) : Text := (text.take c.stop).drop c.start

/-- The order of the candidates: by the start, and the longer one first. -/
def byStart (a b : Candidate text) : Prop := a.start < b.start ∨ (a.start = b.start ∧ b.stop ≤ a.stop)

instance : DecidableRel (@byStart text) := fun _ _ => inferInstanceAs (Decidable (_ ∨ _))

/-- The loop that removes candidates which overlap one before them. -/
def removeOverlapping : Nat → List (Candidate text) → List (Candidate text)
  | _, [] => []
  | lastEnd, c :: cs =>
    if lastEnd ≤ c.start then c :: removeOverlapping c.stop cs else removeOverlapping lastEnd cs

/-- `non_overlapping`, of the candidates that were collected. -/
def nonOverlapping (collected : List (Candidate text)) : List (Candidate text) :=
  removeOverlapping 0 (collected.insertionSort byStart)

/-- Each candidate begins where the one before it ends, or further right; the first one from `curr` on. -/
def Ordered : Nat → List (Candidate text) → Prop
  | _, [] => True
  | curr, c :: cs => curr ≤ c.start ∧ Ordered c.stop cs

theorem removeOverlapping_ordered (lastEnd : Nat) (cs : List (Candidate text)) :
    Ordered lastEnd (removeOverlapping lastEnd cs) := by
  induction cs generalizing lastEnd with
  | nil => trivial
  | cons c cs ih =>
    unfold removeOverlapping
    by_cases h : lastEnd ≤ c.start
    · rw [if_pos h]
      exact ⟨h, ih c.stop⟩
    · rw [if_neg h]
      exact ih lastEnd

theorem nonOverlapping_ordered (collected : List (Candidate text)) : Ordered 0 (nonOverlapping collected) :=
  removeOverlapping_ordered 0 _

/-- The text from offset `curr` on, with something else in place of each candidate. -/
def substitute (f : Candidate text → Text) : Nat → List (Candidate text) → Text
  | curr, [] => text.drop curr
  | curr, c :: cs => (text.take c.start).drop curr ++ f c ++ substitute f c.stop cs

/-- The text from an offset on is the part up to another offset and the rest. -/
theorem drop_eq_slice {α : Type} (s : List α) {a b : Nat} (h : a ≤ b) :
    s.drop a = (s.take b).drop a ++ s.drop b := by
  obtain ⟨d, rfl⟩ := Nat.exists_eq_add_of_le h
  rw [← List.take_drop, ← List.drop_drop, List.take_append_drop]

end Candidate

/-! ### The loop over the candidates -/

namespace PiiSession

/-- The loop over the candidates that are left, of which the `n`-th finds the hash map in the order `orders n`. -/
def replaceLoop (u : CharTables) (orders : Nat → HashOrder) :
    List (Candidate text) → Nat → Text → Nat → PiiSession → Option (Text × PiiSession)
  | [], _, out, curr, s => some (out ++ text.drop curr, s)
  | c :: cs, n, out, curr, s =>
    (s.getOrCreatePlaceholder u c.entity c.matchedText (orders n)).bind fun (placeholder, s) =>
      s.replaceLoop u orders cs (n + 1) (out ++ (text.take c.start).drop curr ++ placeholder) c.stop

end PiiSession

/-- `redact_text` with the entities of the engine, on the candidates that their patterns propose; `none` when the search
for a free pseudonym does not end. -/
def redactText (u : CharTables) (entities : List PiiEntity) (collected : List (Candidate text)) (orders : Nat → HashOrder)
    (s : PiiSession) : Option (Text × PiiSession) :=
  if text.isEmpty || entities.isEmpty then some (text, s)
  else
    let s := s.seedExistingPlaceholders text
    if collected.isEmpty then some (text, s)
    else s.replaceLoop u orders (Candidate.nonOverlapping collected) 0 [] 0

namespace PiiSession

/-- The calls that the loop makes. -/
def loopCalls (orders : Nat → HashOrder) : List (Candidate text) → Nat → List Call
  | [], _ => []
  | c :: cs, n => .getOrCreatePlaceholder c.entity c.matchedText (orders n) :: loopCalls orders cs (n + 1)

/-- The pseudonym that a session has for what a candidate matched. -/
def placeholderOf (s : PiiSession) (c : Candidate text) : Text := (s.forward.lookup c.matchedText).getD []

/-- The loop writes the text with the pseudonyms that its last session has, and makes its calls. -/
theorem replaceLoop_spec {u : CharTables} {orders : Nat → HashOrder} {cs : List (Candidate text)} {n curr : Nat}
    {out result : Text} {s s' : PiiSession} (registered : Table Text PiiEntity)
    (h : s.replaceLoop u orders cs n out curr = some (result, s')) :
    result = out ++ Candidate.substitute s'.placeholderOf curr cs ∧
      (∀ o p, s.forward.lookup o = some p → s'.forward.lookup o = some p) ∧
      (∀ c ∈ cs, (s'.forward.lookup c.matchedText).isSome = true) ∧ s'.reversible = s.reversible ∧
      ∃ registered', s.runFrom u registered (loopCalls orders cs n) = some (s', registered') := by
  induction cs generalizing n curr out s registered with
  | nil =>
    simp only [replaceLoop, Option.some.injEq, Prod.mk.injEq] at h
    obtain ⟨rfl, rfl⟩ := h
    exact ⟨rfl, fun _ _ ho => ho, by simp, rfl, registered, rfl⟩
  | cons c cs ih =>
    simp only [replaceLoop, Option.bind_eq_some_iff] at h
    obtain ⟨⟨placeholder, s₁⟩, hcall, hrest⟩ := h
    obtain ⟨hown, hother, hrev⟩ := getOrCreatePlaceholder_forward hcall
    obtain ⟨hresult, hkeep, hsome, hrev', registered', hrun⟩ := ih
      (s.register registered (.getOrCreatePlaceholder c.entity c.matchedText (orders n))) hrest
    have hph : s'.forward.lookup c.matchedText = some placeholder := hkeep _ _ hown
    refine ⟨?_, fun o p ho => hkeep o p (hother o p ho), ?_, hrev'.trans hrev, registered', ?_⟩
    · rw [hresult, Candidate.substitute, placeholderOf, hph]
      simp only [Option.getD_some, List.append_assoc]
    · intro c' hc'
      rcases List.mem_cons.mp hc' with rfl | hc'
      · rw [hph]
        rfl
      · exact hsome c' hc'
    · simp only [loopCalls, runFrom, call, hcall, Option.map_some, Option.bind_some]
      exact hrun

/-- An original is registered by a call for it. -/
theorem runFrom_registered {u : CharTables} {calls : List Call} {s s' : PiiSession}
    {registered registered' : Table Text PiiEntity} (h : s.runFrom u registered calls = some (s', registered')) {o : Text}
    {e : PiiEntity} (ho : registered'.lookup o = some e) :
    registered.lookup o = some e ∨ ∃ order, Call.getOrCreatePlaceholder e o order ∈ calls := by
  induction calls generalizing s registered with
  | nil =>
    simp only [runFrom, Option.some.injEq, Prod.mk.injEq] at h
    exact Or.inl (h.2 ▸ ho)
  | cons c calls ih =>
    simp only [runFrom, Option.bind_eq_some_iff] at h
    obtain ⟨s₁, -, hrun⟩ := h
    rcases ih hrun with hreg | ⟨order, hmem⟩
    · cases c with
      | seedExistingPlaceholders t => exact Or.inl hreg
      | getOrCreatePlaceholder entity original order =>
        dsimp only [register] at hreg
        by_cases hknown : (s.forward.lookup original).isSome
        · rw [if_pos hknown] at hreg
          exact Or.inl hreg
        · rw [if_neg hknown] at hreg
          by_cases heq : o = original
          · subst heq
            rw [AList.lookup_insert, Option.some.injEq] at hreg
            subst hreg
            exact Or.inr ⟨order, by simp⟩
          · rw [AList.lookup_insert_ne heq] at hreg
            exact Or.inl hreg
    · exact Or.inr ⟨order, List.mem_cons_of_mem _ hmem⟩

theorem mem_loopCalls {orders : Nat → HashOrder} {cs : List (Candidate text)} {n : Nat} {e : PiiEntity} {o : Text}
    {order : HashOrder} (h : Call.getOrCreatePlaceholder e o order ∈ loopCalls orders cs n) :
    ∃ c ∈ cs, c.entity = e ∧ c.matchedText = o := by
  induction cs generalizing n with
  | nil => simp [loopCalls] at h
  | cons c cs ih =>
    simp only [loopCalls, List.mem_cons, Call.getOrCreatePlaceholder.injEq] at h
    rcases h with ⟨rfl, rfl, -⟩ | h
    · exact ⟨c, by simp, rfl, rfl⟩
    · obtain ⟨c', hc', h'⟩ := ih h
      exact ⟨c', by simp [hc'], h'⟩

end PiiSession

end OpenProxy.Pii
