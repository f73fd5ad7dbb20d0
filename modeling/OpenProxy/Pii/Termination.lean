import OpenProxy.Pii.NumericDomain
import OpenProxy.Pii.Reversible
import Mathlib.Order.Interval.Finset.Nat

/-!
# When the search for a pseudonym ends

`getOrCreatePlaceholderWithin` is `get_or_create_placeholder` with checked additions, where every loop makes at most a
given number of turns.  A call returns for some number of turns exactly when its loops lead to a free pseudonym before
they run over the numbers and its generator does not panic (`returns_iff`), and a run of calls returns exactly when each
of its calls does (`run_returns_iff`).  The digits of a short numeric secret leave room for a limited number of them:
among secrets of six digits, the call for the 100001st never ends.
-/

namespace OpenProxy.Pii

/-- How a call ends. -/
inductive Outcome (α : Type)
  | returned (value : α)
  /-- An addition runs over the largest number of its type. -/
  | overflow
  /-- `format!` is given a width that it refuses. -/
  | panicked
  /-- The turns are used up. -/
  | running

namespace Outcome

variable {α β : Type}

def bind (x : Outcome α) (f : α → Outcome β) : Outcome β :=
  match x with
  | returned a => f a
  | overflow => overflow
  | panicked => panicked
  | running => running

def map (f : α → β) (x : Outcome α) : Outcome β := x.bind fun a => returned (f a)

theorem bind_eq_returned {x : Outcome α} {f : α → Outcome β} {b : β} :
    x.bind f = returned b ↔ ∃ a, x = returned a ∧ f a = returned b := by
  cases x <;> simp [bind]

theorem map_eq_returned {x : Outcome α} {f : α → β} {b : β} :
    x.map f = returned b ↔ ∃ a, x = returned a ∧ f a = b := by
  cases x <;> simp [map, bind]

end Outcome

open Outcome (returned overflow panicked running)

/-- `i32::MAX`: the type of the tie breaker is `i32`. -/
def i32Max : Nat := 2 ^ 31 - 1

/-! ### The calls with checked additions -/

/-- The loop that skips generated names equal to the original. -/
def skipOwnNameWithin (original : Text) : Nat → Nat → Outcome Nat
  | 0, _ => running
  | fuel + 1, count =>
    if eqIgnoreAsciiCase (genName count) original then
      if count = usizeMax then overflow else skipOwnNameWithin original fuel (count + 1)
    else returned count

def generatePlaceholderWithin (entity : PiiEntity) (c : Nat) (original : Text) (fuel : Nat) : Outcome (Text × Nat) :=
  match entity with
  | .person => (skipOwnNameWithin original fuel c).map fun count => (genName count, count)
  | .secret => if secretPanics original then panicked else returned (generatePlaceholder .secret c original)
  | entity => returned (generatePlaceholder entity c original)

namespace PiiSession

def probeNumericWithin (s : PiiSession) (original : Text) (fuel : Nat) (placeholder : Text) : Outcome Text :=
  match s.probeNumeric original fuel placeholder with
  | some result => returned result
  | none => running

/-- The loop over the tie breakers. -/
def probeSuffixWithin (s : PiiSession) (original base : Text) : Nat → Nat → Text → Outcome Text
  | 0, _, _ => running
  | fuel + 1, tieBreaker, placeholder =>
    if s.taken original placeholder then
      if tieBreaker = i32Max then overflow
      else s.probeSuffixWithin original base fuel (tieBreaker + 1) (base ++ ['_'] ++ decimal tieBreaker)
    else returned placeholder

def resolveCollisionWithin (s : PiiSession) (original placeholder : Text) (fuel : Nat) : Outcome Text :=
  if placeholder.all Char.isDigit then s.probeNumericWithin original fuel placeholder
  else if placeholder == original || (s.reverse.lookup placeholder).any (· != original) then
    s.probeSuffixWithin original placeholder fuel 1 placeholder
  else returned placeholder

/-- `get_or_create_placeholder`. -/
def getOrCreatePlaceholderWithin (u : CharTables) (s : PiiSession) (entity : PiiEntity) (original : Text)
    (order : HashOrder) (fuel : Nat) : Outcome (Text × PiiSession) :=
  match s.forward.lookup original with
  | some existing => returned (existing, s)
  | none =>
    match if entity = .person then s.findCaseVariant order original else none with
    | some (existingKey, placeholder) =>
      returned (placeholder, s.shareCaseVariant u existingKey placeholder original)
    | none =>
      let c := min ((s.counts.lookup entity).getD 0 + 1) usizeMax
      (generatePlaceholderWithin entity c original fuel).bind fun (generated, count) =>
        let s := { s with counts := s.counts.insert entity count }
        (s.resolveCollisionWithin original generated fuel).map fun placeholder =>
          let s := { s with
            forward := s.forward.insert original placeholder
            reverse := s.reverse.insert placeholder original
            placeholderEntities := s.placeholderEntities.insert placeholder entity }
          (placeholder, if entity = .person then s.registerNameParts placeholder original else s)

/-! ### The condition -/

/-- A number that the search reaches from the proposal is free. -/
def HasFreeNumber (s : PiiSession) (original proposal : Text) : Prop :=
  ∃ q : Text, q.length = proposal.length ∧ q.all Char.isDigit = true ∧
    (ofDecimal proposal ≤ ofDecimal q ∨ q.head? = some '9') ∧ s.taken original q = false

/-- The proposal with no tie breaker, or with a given one. -/
def suffixed (proposal : Text) : Nat → Text
  | 0 => proposal
  | i + 1 => proposal ++ ['_'] ++ decimal (i + 1)

/-- The proposal or one of its first 2147483646 suffixed forms is free. -/
def HasFreeSuffix (s : PiiSession) (original proposal : Text) : Prop :=
  ∃ i < i32Max, s.taken original (suffixed proposal i) = false

/-- The proposal can be used, or the search from it meets a free pseudonym. -/
def HasFreePlaceholder (s : PiiSession) (original proposal : Text) : Prop :=
  if proposal.all Char.isDigit then s.HasFreeNumber original proposal
  else (proposal ≠ original ∧ s.reverse.lookup proposal = some original) ∨ s.HasFreeSuffix original proposal

/-- The value to which a call raises the counter of the entity. -/
def raisedCount (s : PiiSession) (entity : PiiEntity) : Nat := min ((s.counts.lookup entity).getD 0 + 1) usizeMax

/-- The original is known, or is the name of a person that is known in other case; or else the name that the last value
of the counter stands for is not the original with the counter at its end, the digits of a secret are padded to a width
that `format!` takes, and the search meets a free pseudonym. -/
def CanReturn (s : PiiSession) (entity : PiiEntity) (original : Text) : Prop :=
  (s.forward.lookup original).isSome = true ∨
  (entity = .person ∧ ∃ key, (s.forward.lookup key).isSome = true ∧ eqIgnoreAsciiCase key original = true) ∨
  (¬ (entity = .person ∧ s.raisedCount entity = usizeMax ∧ eqIgnoreAsciiCase (genName usizeMax) original = true) ∧
    ¬ (entity = .secret ∧ secretPanics original = true) ∧
    s.HasFreePlaceholder original (generatePlaceholder entity (s.raisedCount entity) original).1)

example : genName usizeMax = "Thomas Wright".toList := by decide

/-- The prefix of a long number has eight digits. -/
theorem secretPanics_iff {original : Text} :
    secretPanics original = true ↔ original.all Char.isDigit = true ∧ 65543 < original.length := by
  have hten : "10".toList.length = 2 := by decide
  have height : "89410294".toList.length = 8 := by decide
  unfold secretPanics numericSecretDomain formatWidthMax
  simp only [Bool.and_eq_true, decide_eq_true_eq, and_assoc]
  refine and_congr_right fun _ => ?_
  by_cases htwenty : original.length = 20 ∧ (parseUsize original).isSome = true
  · rw [if_pos htwenty, hten, if_pos (by omega)]
    dsimp only
    omega
  · rw [if_neg htwenty, height]
    split
    · dsimp only
      omega
    · dsimp only
      omega

/-! ### The loop over the names -/

private theorem usizeMax_succ {c : Nat} (hc : c ≤ usizeMax) (hne : c ≠ usizeMax) : (c + 1) % 2 ^ 64 = c + 1 := by
  unfold usizeMax at hc hne
  exact Nat.mod_eq_of_lt (by omega)

/-- Two turns are enough for the loop over the names. -/
theorem skipOwnNameWithin_eq {original : Text} {c fuel : Nat} (hc : c ≤ usizeMax)
    (hlast : eqIgnoreAsciiCase (genName c) original = true → c ≠ usizeMax) :
    skipOwnNameWithin original (fuel + 2) c = returned (skipOwnName original 2 c) := by
  unfold skipOwnNameWithin skipOwnName
  split
  · rename_i hown
    have hmax := hlast hown
    have hnext := genName_succ_ne hown
    rw [usizeMax_succ hc hmax] at hnext ⊢
    unfold skipOwnNameWithin skipOwnName
    rw [if_neg hmax, hnext]
    rfl
  · rfl

/-- Whatever the number of turns, the loop returns nothing else. -/
theorem skipOwnNameWithin_returned {original : Text} {c fuel count : Nat} (hc : c ≤ usizeMax)
    (h : skipOwnNameWithin original fuel c = returned count) :
    (eqIgnoreAsciiCase (genName c) original = true → c ≠ usizeMax) ∧ count = skipOwnName original 2 c := by
  cases fuel with
  | zero => simp [skipOwnNameWithin] at h
  | succ fuel =>
    unfold skipOwnNameWithin at h
    unfold skipOwnName
    split at h
    · rename_i hown
      rw [if_pos hown]
      split at h
      · simp at h
      · rename_i hmax
        refine ⟨fun _ => hmax, ?_⟩
        have hnext := genName_succ_ne hown
        rw [usizeMax_succ hc hmax] at hnext ⊢
        cases fuel with
        | zero => simp [skipOwnNameWithin] at h
        | succ fuel =>
          unfold skipOwnNameWithin at h
          unfold skipOwnName
          rw [hnext] at h ⊢
          exact (Outcome.returned.inj h).symm
    · rename_i hown
      rw [if_neg hown]
      exact ⟨fun h => absurd h hown, (Outcome.returned.inj h).symm⟩

theorem generatePlaceholderWithin_person (original : Text) (c fuel : Nat) :
    generatePlaceholderWithin .person c original fuel =
      (skipOwnNameWithin original fuel c).map fun count => (genName count, count) := rfl

theorem generatePlaceholder_person (original : Text) (c : Nat) :
    generatePlaceholder .person c original = (genName (skipOwnName original 2 c), skipOwnName original 2 c) := rfl

theorem generatePlaceholderWithin_of_ne {entity : PiiEntity} (h : entity ≠ .person) (original : Text) (c fuel : Nat) :
    generatePlaceholderWithin entity c original fuel =
      if entity = .secret ∧ secretPanics original = true then panicked
      else returned (generatePlaceholder entity c original) := by
  cases entity with
  | person => exact absurd rfl h
  | secret => simp only [generatePlaceholderWithin, true_and]
  | _ => simp only [generatePlaceholderWithin, reduceCtorEq, false_and, ↓reduceIte]

/-- When the generators propose a pseudonym. -/
theorem generatePlaceholderWithin_eq {entity : PiiEntity} {original : Text} {c : Nat} (fuel : Nat) (hc : c ≤ usizeMax)
    (hlast : ¬ (entity = .person ∧ c = usizeMax ∧ eqIgnoreAsciiCase (genName usizeMax) original = true))
    (hwidth : ¬ (entity = .secret ∧ secretPanics original = true)) :
    generatePlaceholderWithin entity c original (fuel + 2) = returned (generatePlaceholder entity c original) := by
  by_cases hperson : entity = .person
  · have hname : eqIgnoreAsciiCase (genName c) original = true → c ≠ usizeMax := by
      intro hown hmax
      rw [hmax] at hown
      exact hlast ⟨hperson, hmax, hown⟩
    rw [hperson, generatePlaceholderWithin_person, generatePlaceholder_person, skipOwnNameWithin_eq hc hname]
    rfl
  · rw [generatePlaceholderWithin_of_ne hperson original c (fuel + 2), if_neg hwidth]

theorem generatePlaceholderWithin_returned {entity : PiiEntity} {original : Text} {c fuel : Nat} {generated : Text × Nat}
    (hc : c ≤ usizeMax) (h : generatePlaceholderWithin entity c original fuel = returned generated) :
    ¬ (entity = .person ∧ c = usizeMax ∧ eqIgnoreAsciiCase (genName usizeMax) original = true) ∧
      ¬ (entity = .secret ∧ secretPanics original = true) ∧
      generated = generatePlaceholder entity c original := by
  by_cases hperson : entity = .person
  · rw [hperson, generatePlaceholderWithin_person, Outcome.map_eq_returned] at h
    obtain ⟨count, hcount, rfl⟩ := h
    obtain ⟨hlast, hsame⟩ := skipOwnNameWithin_returned hc hcount
    refine ⟨?_, ?_, by rw [hperson, generatePlaceholder_person, hsame]⟩
    · rintro ⟨-, hmax, hown⟩
      rw [← hmax] at hown
      exact hlast hown hmax
    · rintro ⟨hsecret, -⟩
      rw [hperson] at hsecret
      cases hsecret
  · rw [generatePlaceholderWithin_of_ne hperson] at h
    split at h
    · cases h
    · rename_i hwidth
      rw [Outcome.returned.injEq] at h
      exact ⟨fun h => hperson h.1, hwidth, h.symm⟩

/-! ### The search among the numbers -/

private theorem probeNumeric_eq_some {s : PiiSession} {original placeholder result : Text} {fuel : Nat}
    (h : s.probeNumeric original fuel placeholder = some result) :
    s.taken original result = false ∧ ∃ i, nextNumeric^[i] placeholder = result := by
  induction fuel generalizing placeholder with
  | zero => simp [probeNumeric] at h
  | succ fuel ih =>
    unfold probeNumeric at h
    split at h
    · obtain ⟨hfree, i, hi⟩ := ih h
      exact ⟨hfree, i + 1, hi⟩
    · rename_i htaken
      simp only [Option.some.injEq] at h
      subst h
      exact ⟨by simpa using htaken, 0, rfl⟩

private theorem probeNumeric_mono {s : PiiSession} {original placeholder result : Text} {fuel : Nat}
    (h : s.probeNumeric original fuel placeholder = some result) (more : Nat) :
    s.probeNumeric original (fuel + more) placeholder = some result := by
  induction fuel generalizing placeholder with
  | zero => simp [probeNumeric] at h
  | succ fuel ih =>
    rw [Nat.succ_add]
    unfold probeNumeric at h ⊢
    split
    · rename_i htaken
      rw [if_pos htaken] at h
      exact ih h
    · rename_i htaken
      rwa [if_neg htaken] at h

/-- A search that ends within some turns ends within those of the model. -/
private theorem probeNumeric_probeFuel {s : PiiSession} {original placeholder result : Text} {fuel : Nat}
    (h : s.probeNumeric original fuel placeholder = some result) :
    s.probeNumeric original s.probeFuel placeholder = some result := by
  cases hfuel : s.probeNumeric original s.probeFuel placeholder with
  | none =>
    have := probeNumeric_diverges hfuel fuel
    rw [h] at this
    exact absurd this (by simp)
  | some other =>
    have h1 := probeNumeric_mono h s.probeFuel
    have h2 := probeNumeric_mono hfuel fuel
    rw [Nat.add_comm, h1] at h2
    exact h2.symm

private theorem probeNumeric_isSome {s : PiiSession} {original placeholder : Text} {i fuel : Nat} (hi : i < fuel)
    (hfree : s.taken original (nextNumeric^[i] placeholder) = false) :
    ∃ result, s.probeNumeric original fuel placeholder = some result := by
  rw [← Option.isSome_iff_exists, Option.isSome_iff_ne_none]
  intro hnone
  have := probeNumeric_eq_none.mp hnone i hi
  rw [hfree] at this
  exact absurd this (by simp)

/-- The proposals do not begin with a zero. -/
private theorem generatePlaceholder_head (entity : PiiEntity) (c : Nat) (original : Text)
    (hdigits : (generatePlaceholder entity c original).1.all Char.isDigit = true) :
    (generatePlaceholder entity c original).1 ≠ [] ∧ (generatePlaceholder entity c original).1.head? ≠ some '0' := by
  have happend : ∀ s t : Text, s ≠ [] ∧ s.head? ≠ some '0' → s ++ t ≠ [] ∧ (s ++ t).head? ≠ some '0' := by
    rintro s t ⟨hne, hhead⟩
    cases s with
    | nil => exact absurd rfl hne
    | cons c s => exact ⟨by simp, hhead⟩
  cases entity with
  | email =>
    have hall : ∀ p ∈ emailFirstNames, p ≠ [] ∧ p.head? ≠ some '0' := by decide
    simp only [generatePlaceholder, emailPlaceholder, List.append_assoc]
    exact happend _ _ (hall _ (getD_mod_mem (l := emailFirstNames) (c - 1) [] (by decide)))
  | phone =>
    simp only [generatePlaceholder, phonePlaceholder]
    split
    · exact happend _ _ (by decide)
    · simp only [List.append_assoc]
      exact happend _ _ (by decide)
  | ip =>
    simp only [generatePlaceholder, ipPlaceholder]
    split
    · exact happend _ _ (by decide)
    · simp only [List.append_assoc]
      exact happend _ _ (by decide)
  | creditCard =>
    obtain ⟨rest, hrest⟩ := generateFakeCreditCard_head c (original.contains ' ' || original.contains '-')
    simp only [generatePlaceholder, hrest]
    simp
  | secret =>
    simp only [generatePlaceholder, secretPlaceholder]
    split
    · have hall : ∀ p ∈ ["10".toList, "89410294".toList, "9".toList], p ≠ [] ∧ p.head? ≠ some '0' := by decide
      exact happend _ _ (hall _ (numericSecretDomain_head original))
    · have hall : ∀ p ∈ "sec_".toList :: secretPrefixMap.map (·.2), p ≠ [] ∧ p.head? ≠ some '0' := by decide
      exact happend _ _ (hall _ (secretPrefix_mem original))
  | person =>
    obtain ⟨first, hfirst, last, -, hname⟩ := genName_eq (skipOwnName original 2 c)
    have hspace : (' ').isDigit = false := by decide
    simp only [generatePlaceholder, hname, List.all_append, List.all_cons, hspace, Bool.false_and, Bool.and_false,
      Bool.false_eq_true] at hdigits

/-- The search among the numbers ends when it can reach a free one. -/
theorem probeNumericWithin_iff {s : PiiSession} {original p : Text} (hdigits : p.all Char.isDigit = true) (hne : p ≠ [])
    (hhead : p.head? ≠ some '0') :
    (∃ i, s.taken original (nextNumeric^[i] p) = false) ↔ s.HasFreeNumber original p := by
  obtain ⟨n, hn⟩ : ∃ n, p.length = n + 1 := ⟨p.length - 1, by have := List.length_pos_iff.mpr hne; omega⟩
  have hp : IsNumeral n p := ⟨hn, hdigits⟩
  unfold HasFreeNumber
  constructor
  · rintro ⟨i, hfree⟩
    obtain ⟨hq, hreach⟩ := (iterate_nextNumeric_iff hp hhead).mp ⟨i, rfl⟩
    exact ⟨_, by rw [hq.1, hn], hq.2, hreach, hfree⟩
  · rintro ⟨q, hlen, hq, hreach, hfree⟩
    obtain ⟨i, hi⟩ := (iterate_nextNumeric_iff hp hhead).mpr ⟨⟨by rw [hlen, hn], hq⟩, hreach⟩
    exact ⟨i, by rwa [hi]⟩

/-! ### The loop over the tie breakers -/

private theorem suffixed_eq (base : Text) (t : Nat) (ht : 0 < t) : base ++ ['_'] ++ decimal t = suffixed base t := by
  obtain ⟨t, rfl⟩ : ∃ t', t = t' + 1 := ⟨t - 1, by omega⟩
  rfl

private theorem probeSuffixWithin_returned {s : PiiSession} {original base result : Text} {fuel t : Nat}
    (ht : t < i32Max)
    (h : s.probeSuffixWithin original base fuel (t + 1) (suffixed base t) = returned result) :
    (∃ i < i32Max, s.taken original (suffixed base i) = false) ∧
      s.probeSuffix original base fuel (t + 1) (suffixed base t) = some result := by
  induction fuel generalizing t with
  | zero => simp [probeSuffixWithin] at h
  | succ fuel ih =>
    unfold probeSuffixWithin at h
    unfold probeSuffix
    split at h
    · rename_i htaken
      rw [if_pos htaken]
      split at h
      · simp at h
      · rename_i hmax
        rw [suffixed_eq base (t + 1) (by omega)] at h ⊢
        exact ih (by omega) h
    · rename_i htaken
      rw [if_neg htaken]
      simp only [Outcome.returned.injEq] at h
      exact ⟨⟨t, ht, by simpa using htaken⟩, by rw [h]⟩

private theorem probeSuffixWithin_isReturned {s : PiiSession} {original base : Text} {i t fuel : Nat}
    (hi : i < i32Max) (hfree : s.taken original (suffixed base i) = false) (ht : t ≤ i) (hfuel : i - t < fuel) :
    ∃ result, s.probeSuffixWithin original base fuel (t + 1) (suffixed base t) = returned result := by
  induction fuel generalizing t with
  | zero => omega
  | succ fuel ih =>
    unfold probeSuffixWithin
    by_cases htaken : s.taken original (suffixed base t) = true
    · have hne : t ≠ i := by
        rintro rfl
        rw [hfree] at htaken
        exact absurd htaken (by simp)
      rw [if_pos htaken, if_neg (by omega), suffixed_eq base (t + 1) (by omega)]
      exact ih (by omega) (by omega)
    · rw [if_neg htaken]
      exact ⟨_, rfl⟩

private theorem probeSuffix_mono {s : PiiSession} {original base placeholder result : Text} {fuel t : Nat}
    (h : s.probeSuffix original base fuel t placeholder = some result) (more : Nat) :
    s.probeSuffix original base (fuel + more) t placeholder = some result := by
  induction fuel generalizing t placeholder with
  | zero => simp [probeSuffix] at h
  | succ fuel ih =>
    rw [Nat.succ_add]
    unfold probeSuffix at h ⊢
    split
    · rename_i htaken
      rw [if_pos htaken] at h
      exact ih h
    · rename_i htaken
      rwa [if_neg htaken] at h

private theorem probeSuffix_probeFuel {s : PiiSession} {original base result : Text} {fuel : Nat}
    (h : s.probeSuffix original base fuel 1 base = some result) :
    s.probeSuffix original base s.probeFuel 1 base = some result := by
  obtain ⟨other, hother⟩ := Option.isSome_iff_exists.mp (s.probeSuffix_isSome original base)
  have h1 := probeSuffix_mono h s.probeFuel
  have h2 := probeSuffix_mono hother fuel
  rw [Nat.add_comm, h1] at h2
  rw [hother, h2]

private theorem probeSuffixWithin_mono {s : PiiSession} {original base placeholder result : Text} {fuel t : Nat}
    (h : s.probeSuffixWithin original base fuel t placeholder = returned result) (more : Nat) :
    s.probeSuffixWithin original base (fuel + more) t placeholder = returned result := by
  induction fuel generalizing t placeholder with
  | zero => simp [probeSuffixWithin] at h
  | succ fuel ih =>
    rw [Nat.succ_add]
    unfold probeSuffixWithin at h ⊢
    split
    · rename_i htaken
      rw [if_pos htaken] at h
      split
      · rename_i hmax
        rw [if_pos hmax] at h
        exact h
      · rename_i hmax
        rw [if_neg hmax] at h
        exact ih h
    · rename_i htaken
      rwa [if_neg htaken] at h

/-! ### A call -/

private theorem resolveCollisionWithin_mono {s : PiiSession} {original p result : Text} {fuel : Nat}
    (h : s.resolveCollisionWithin original p fuel = returned result) (more : Nat) :
    s.resolveCollisionWithin original p (fuel + more) = returned result := by
  unfold resolveCollisionWithin at h ⊢
  split
  · rename_i hdigits
    rw [if_pos hdigits] at h
    unfold probeNumericWithin at h ⊢
    split at h
    · rename_i found hfound
      rw [probeNumeric_mono hfound more]
      exact h
    · simp at h
  · rename_i hdigits
    rw [if_neg hdigits] at h
    split
    · rename_i hcollides
      rw [if_pos hcollides] at h
      exact probeSuffixWithin_mono h more
    · rename_i hfits
      rwa [if_neg hfits] at h

/-- The search ends, for a proposal without a leading zero, exactly when it can meet a free pseudonym. -/
theorem resolveCollisionWithin_iff {s : PiiSession} {original p : Text}
    (hp : p.all Char.isDigit = true → p ≠ [] ∧ p.head? ≠ some '0') :
    (∃ fuel result, s.resolveCollisionWithin original p fuel = returned result) ↔ s.HasFreePlaceholder original p := by
  unfold resolveCollisionWithin HasFreePlaceholder
  by_cases hdigits : p.all Char.isDigit = true
  · simp only [hdigits, ↓reduceIte]
    rw [← probeNumericWithin_iff hdigits (hp hdigits).1 (hp hdigits).2]
    constructor
    · rintro ⟨fuel, result, h⟩
      unfold probeNumericWithin at h
      split at h
      · rename_i found hfound
        obtain ⟨hfree, i, rfl⟩ := probeNumeric_eq_some hfound
        exact ⟨i, hfree⟩
      · simp at h
    · rintro ⟨i, hfree⟩
      obtain ⟨result, hresult⟩ := probeNumeric_isSome (Nat.lt_succ_self i) hfree
      exact ⟨i + 1, result, by rw [probeNumericWithin, hresult]⟩
  · simp only [hdigits, Bool.false_eq_true, ↓reduceIte]
    split
    · rename_i hcollides
      have hnot : ¬ (p ≠ original ∧ s.reverse.lookup p = some original) := by
        rintro ⟨hne, hlookup⟩
        simp [hne, hlookup] at hcollides
      simp only [hnot, false_or]
      constructor
      · rintro ⟨fuel, result, h⟩
        exact (probeSuffixWithin_returned (t := 0) (by decide) h).1
      · rintro ⟨i, hi, hfree⟩
        exact ⟨i + 1, probeSuffixWithin_isReturned hi hfree (Nat.zero_le i) (by omega)⟩
    · rename_i hfits
      simp only [Bool.or_eq_true, beq_iff_eq, not_or] at hfits
      refine iff_of_true ⟨0, p, rfl⟩ ?_
      cases hlookup : s.reverse.lookup p with
      | none => exact Or.inr ⟨0, by decide, taken_eq_false.mpr ⟨hfits.1, hlookup⟩⟩
      | some existing =>
        rw [hlookup] at hfits
        simp only [Option.any_some, bne_iff_ne, ne_eq, not_not] at hfits
        exact Or.inl ⟨hfits.1, by rw [hfits.2]⟩

/-- More turns change nothing. -/
private theorem resolveCollisionWithin_returned {s : PiiSession} {original p result : Text} {fuel : Nat}
    (h : s.resolveCollisionWithin original p fuel = returned result) : s.resolveCollision original p = some result := by
  unfold resolveCollisionWithin at h
  unfold resolveCollision
  split at h
  · rename_i hdigits
    rw [if_pos hdigits]
    unfold probeNumericWithin at h
    split at h
    · rename_i found hfound
      simp only [Outcome.returned.injEq] at h
      rw [← h]
      exact probeNumeric_probeFuel hfound
    · simp at h
  · rename_i hdigits
    rw [if_neg hdigits]
    split at h
    · rename_i hcollides
      rw [if_pos hcollides]
      exact probeSuffix_probeFuel (probeSuffixWithin_returned (t := 0) (by decide) h).2
    · rename_i hfits
      rw [if_neg hfits]
      simp only [Outcome.returned.injEq] at h
      rw [h]

private theorem raisedCount_le (s : PiiSession) (entity : PiiEntity) : s.raisedCount entity ≤ usizeMax := Nat.min_le_right _ _

/-- What a call returns is what it gives in the model without a number of turns. -/
theorem getOrCreatePlaceholderWithin_returned {u : CharTables} {s : PiiSession} {entity : PiiEntity} {original : Text}
    {order : HashOrder} {fuel : Nat} {r : Text × PiiSession}
    (h : s.getOrCreatePlaceholderWithin u entity original order fuel = returned r) :
    s.getOrCreatePlaceholder u entity original order = some r := by
  unfold getOrCreatePlaceholderWithin at h
  unfold getOrCreatePlaceholder
  cases hf : s.forward.lookup original with
  | some existing =>
    simp only [hf] at h
    exact congrArg some (Outcome.returned.inj h)
  | none =>
    simp only [hf] at h
    dsimp only
    cases hk : (if entity = .person then s.findCaseVariant order original else none) with
    | some entry =>
      simp only [hk] at h
      exact congrArg some (Outcome.returned.inj h)
    | none =>
      simp only [hk] at h
      dsimp only
      obtain ⟨generated, hgenerated, hrest⟩ := Outcome.bind_eq_returned.mp h
      obtain ⟨-, hwidth, hsame⟩ := generatePlaceholderWithin_returned (s.raisedCount_le entity) hgenerated
      rw [if_neg hwidth]
      obtain ⟨placeholder, hplaceholder, hr⟩ := Outcome.map_eq_returned.mp hrest
      have hfound := resolveCollisionWithin_returned hplaceholder
      rw [hsame] at hfound hr
      unfold raisedCount at hfound hr
      rw [hfound, ← hr]
      rfl

/-- A call returns exactly when the condition holds of the session before it. -/
theorem returns_iff (u : CharTables) (s : PiiSession) (entity : PiiEntity) (original : Text) (order : HashOrder) :
    (∃ fuel r, s.getOrCreatePlaceholderWithin u entity original order fuel = returned r) ↔
      s.CanReturn entity original := by
  unfold getOrCreatePlaceholderWithin CanReturn
  cases hf : s.forward.lookup original with
  | some existing => exact iff_of_true ⟨0, _, rfl⟩ (Or.inl rfl)
  | none =>
    simp only [Option.isSome_none, Bool.false_eq_true, false_or]
    cases hk : (if entity = .person then s.findCaseVariant order original else none) with
    | some entry =>
      refine iff_of_true ⟨0, _, rfl⟩ (Or.inl ?_)
      split at hk
      · rename_i hperson
        exact ⟨hperson, findCaseVariant_isSome.mp (by rw [hk]; rfl)⟩
      · exact absurd hk (by simp)
    | none =>
      have hnew : ¬ (entity = .person ∧ ∃ key, (s.forward.lookup key).isSome = true ∧
          eqIgnoreAsciiCase key original = true) := by
        rintro ⟨hperson, hkey⟩
        rw [if_pos hperson] at hk
        have hfound : (s.findCaseVariant order original).isSome = true := findCaseVariant_isSome.mpr hkey
        rw [hk] at hfound
        exact absurd hfound (by simp)
      have hhead := generatePlaceholder_head entity (s.raisedCount entity) original
      have hsearch := fun counts => @resolveCollisionWithin_iff { s with counts := counts } original _ hhead
      simp only [hnew, false_or]
      constructor
      · rintro ⟨fuel, r, h⟩
        obtain ⟨generated, hgenerated, hrest⟩ := Outcome.bind_eq_returned.mp h
        obtain ⟨hlast, hwidth, hsame⟩ := generatePlaceholderWithin_returned (s.raisedCount_le entity) hgenerated
        obtain ⟨placeholder, hplaceholder, -⟩ := Outcome.map_eq_returned.mp hrest
        rw [hsame] at hplaceholder
        let counts := s.counts.insert entity (generatePlaceholder entity (s.raisedCount entity) original).2
        exact ⟨hlast, hwidth, (hsearch counts).mp ⟨fuel, placeholder, hplaceholder⟩⟩
      · rintro ⟨hlast, hwidth, hfree⟩
        let counts := s.counts.insert entity (generatePlaceholder entity (s.raisedCount entity) original).2
        obtain ⟨fuel, placeholder, hplaceholder⟩ := (hsearch counts).mpr hfree
        refine ⟨fuel + 2, ?_⟩
        have hgenerated := generatePlaceholderWithin_eq fuel (s.raisedCount_le entity) hlast hwidth
        unfold raisedCount at hgenerated
        rw [hgenerated]
        exact ⟨_, Outcome.map_eq_returned.mpr ⟨placeholder, resolveCollisionWithin_mono hplaceholder 2, rfl⟩⟩

/-! ### Runs -/

/-- The session after a call, within a number of turns. -/
def callWithin (u : CharTables) (s : PiiSession) (fuel : Nat) : Call → Outcome PiiSession
  | .seedExistingPlaceholders text => returned (s.seedExistingPlaceholders text)
  | .getOrCreatePlaceholder entity original order =>
    (s.getOrCreatePlaceholderWithin u entity original order fuel).map (·.2)

/-- Every call of the run returns. -/
def Returns (u : CharTables) (s : PiiSession) : List Call → Prop
  | [] => True
  | c :: calls => ∃ fuel s', s.callWithin u fuel c = returned s' ∧ s'.Returns u calls

/-- The condition of a call. -/
def CallCanReturn (s : PiiSession) : Call → Prop
  | .seedExistingPlaceholders _ => True
  | .getOrCreatePlaceholder entity original _ => s.CanReturn entity original

/-- Every call of the run meets its condition in the session before it. -/
def EachCanReturn (u : CharTables) (s : PiiSession) : List Call → Prop
  | [] => True
  | c :: calls => s.CallCanReturn c ∧ ∀ s', s.call u c = some s' → s'.EachCanReturn u calls

private theorem callWithin_iff {u : CharTables} {s : PiiSession} {c : Call} :
    (∃ fuel s', s.callWithin u fuel c = returned s') ↔ s.CallCanReturn c := by
  cases c with
  | seedExistingPlaceholders text => exact iff_of_true ⟨0, _, rfl⟩ trivial
  | getOrCreatePlaceholder entity original order =>
    rw [CallCanReturn, ← returns_iff u s entity original order]
    constructor
    · rintro ⟨fuel, s', h⟩
      obtain ⟨r, hr, -⟩ := Outcome.map_eq_returned.mp h
      exact ⟨fuel, r, hr⟩
    · rintro ⟨fuel, r, hr⟩
      exact ⟨fuel, r.2, Outcome.map_eq_returned.mpr ⟨r, hr, rfl⟩⟩

private theorem callWithin_returned {u : CharTables} {s s' : PiiSession} {c : Call} {fuel : Nat}
    (h : s.callWithin u fuel c = returned s') : s.call u c = some s' := by
  cases c with
  | seedExistingPlaceholders text =>
    rw [call, ← Outcome.returned.inj h]
  | getOrCreatePlaceholder entity original order =>
    obtain ⟨r, hr, hs'⟩ := Outcome.map_eq_returned.mp h
    rw [call, getOrCreatePlaceholderWithin_returned hr, Option.map_some, hs']

/-- A run of calls returns, without an overflow or a panic, exactly when each of its calls meets the condition in the
session that the calls before it have led to. -/
theorem run_returns_iff (u : CharTables) (reversible : Bool) (calls : List Call) :
    (new reversible).Returns u calls ↔ (new reversible).EachCanReturn u calls := by
  generalize new reversible = s
  induction calls generalizing s with
  | nil => exact Iff.rfl
  | cons c calls ih =>
    unfold Returns EachCanReturn
    rw [← callWithin_iff (u := u)]
    constructor
    · rintro ⟨fuel, s', hcall, hrest⟩
      refine ⟨⟨fuel, s', hcall⟩, ?_⟩
      intro s'' hs''
      rw [callWithin_returned hcall, Option.some.injEq] at hs''
      rw [← hs'']
      exact (ih s').mp hrest
    · rintro ⟨⟨fuel, s', hcall⟩, hrest⟩
      exact ⟨fuel, s', hcall, (ih s').mpr (hrest s' (callWithin_returned hcall))⟩

/-! ### Short numeric secrets -/

/-- The proposal for a numeric secret of six to eight digits has as many digits and begins with a nine. -/
private theorem secretPlaceholder_short {original : Text} {n : Nat} (ho : IsNumeral n original) (hn : 5 ≤ n) (hn' : n ≤ 7) :
    IsNumeral n (secretPlaceholder original) ∧ (secretPlaceholder original).head? = some '9' := by
  obtain ⟨hlen, hdigits⟩ := ho
  have hpre : "89410294".toList.length = 8 := by decide
  have hdomain : numericSecretDomain original = ("9".toList, n) := by
    unfold numericSecretDomain
    dsimp only
    rw [if_neg (fun h : original.length = 20 ∧ _ => by omega), if_neg (by omega), hlen]
    rfl
  unfold secretPlaceholder
  rw [if_pos ⟨hdigits, by omega⟩, hdomain]
  dsimp only
  have hsuffix : ((decimal (fnv1aHash original)).drop ((decimal (fnv1aHash original)).length - n)).length ≤ n := by
    rw [List.length_drop]
    omega
  refine ⟨⟨?_, ?_⟩, rfl⟩
  · rw [List.length_append, List.length_leftpad, Nat.max_eq_left hsuffix]
    have : "9".toList.length = 1 := by decide
    omega
  · rw [List.all_append, Bool.and_eq_true]
    refine ⟨by decide, ?_⟩
    rw [List.all_eq_true]
    intro c hc
    unfold List.leftpad at hc
    rcases List.mem_append.mp hc with hc | hc
    · rw [List.eq_of_mem_replicate hc]
      decide
    · exact isDigit_of_mem_decimal (List.drop_subset _ _ hc)

/-- The pseudonyms of the session are numbers of one length that begin with a nine. -/
def NinesOnly (n : Nat) (s : PiiSession) : Prop :=
  ∀ o ph, s.forward.lookup o = some ph → IsNumeral n ph ∧ ph.head? = some '9'

private theorem NinesOnly.secret {n : Nat} {u : CharTables} {s s' : PiiSession} (h : s.NinesOnly n) {original ph : Text}
    {order : HashOrder} (ho : IsNumeral n original) (hn : 5 ≤ n) (hn' : n ≤ 7)
    (hcall : s.getOrCreatePlaceholder u .secret original order = some (ph, s')) : s'.NinesOnly n := by
  rcases getOrCreatePlaceholder_cases hcall with ⟨-, rfl⟩ | ⟨-, hperson, -⟩ | ⟨-, c, -, s₁, rfl, hfound, s₂, rfl, rfl⟩
  · exact h
  · exact absurd hperson (by decide)
  · obtain ⟨hp, hnine⟩ := secretPlaceholder_short ho hn hn'
    have hhead : (secretPlaceholder original).head? ≠ some '0' := by
      rw [hnine]
      decide
    unfold resolveCollision at hfound
    have hproposal : (generatePlaceholder .secret c original).1 = secretPlaceholder original := rfl
    rw [hproposal, if_pos hp.2] at hfound
    obtain ⟨-, i, hi⟩ := probeNumeric_eq_some hfound
    obtain ⟨hph, hreach⟩ := (iterate_nextNumeric_iff hp hhead).mp ⟨i, hi⟩
    intro o p hlookup
    simp only [reduceCtorEq, ↓reduceIte] at hlookup
    rcases lookup_insert_cases hlookup with ⟨-, rfl⟩ | ⟨-, hlookup⟩
    · refine ⟨hph, ?_⟩
      rw [hp.head_nine_iff] at hnine
      rw [hph.head_nine_iff] at hreach ⊢
      omega
    · exact h o p hlookup

/-- Secrets that are registered one after the other. -/
def secretCalls (originals : List Text) : List Call :=
  originals.map fun original => .getOrCreatePlaceholder .secret original .latestFirst

private theorem secretCalls_safe (u : CharTables) (s : PiiSession) (originals : List Text) :
    s.safeRun u (secretCalls originals) = true := by
  induction originals generalizing s with
  | nil => rfl
  | cons o originals ih =>
    have hsafe : s.safeCall u (.getOrCreatePlaceholder .secret o .latestFirst) = true := by
      simp only [safeCall, reduceCtorEq, ↓reduceIte]
      cases s.forward.lookup o <;> rfl
    simp only [secretCalls, List.map_cons, safeRun, hsafe, Bool.true_and]
    rw [Option.all_eq_true]
    exact fun s' _ => ih s'

private theorem secretCalls_run {n : Nat} {u : CharTables} {originals : List Text} {s s' : PiiSession}
    {registered registered' : Table Text PiiEntity} (h : s.NinesOnly n) (ho : ∀ o ∈ originals, IsNumeral n o) (hn : 5 ≤ n)
    (hn' : n ≤ 7) (hrun : s.runFrom u registered (secretCalls originals) = some (s', registered')) :
    s'.NinesOnly n ∧ (∀ o, (s.forward.lookup o).isSome = true → (s'.forward.lookup o).isSome = true) ∧
      ∀ o ∈ originals, (s'.forward.lookup o).isSome = true := by
  induction originals generalizing s registered with
  | nil =>
    simp only [secretCalls, List.map_nil, runFrom, Option.some.injEq, Prod.mk.injEq] at hrun
    rw [← hrun.1]
    exact ⟨h, fun _ ho => ho, by simp⟩
  | cons o originals ih =>
    simp only [secretCalls, List.map_cons, runFrom, Option.bind_eq_some_iff, call, Option.map_eq_some_iff] at hrun
    obtain ⟨s₁, ⟨⟨ph, s₂⟩, hcall, rfl⟩, hrun⟩ := hrun
    have hnext := h.secret (ho o List.mem_cons_self) hn hn' hcall
    obtain ⟨hlast, hkept, hall⟩ := ih hnext (fun o' ho' => ho o' (List.mem_cons_of_mem _ ho')) hrun
    obtain ⟨hown, hother, -⟩ := getOrCreatePlaceholder_forward hcall
    refine ⟨hlast, ?_, ?_⟩
    · intro o' ho'
      obtain ⟨p, hp⟩ := Option.isSome_iff_exists.mp ho'
      exact hkept o' (by rw [hother o' p hp]; rfl)
    · intro o' ho'
      rcases List.mem_cons.mp ho' with rfl | ho'
      · exact hkept _ (by rw [hown]; rfl)
      · exact hall o' ho'

private theorem lower_of_digits {s : Text} (h : s.all Char.isDigit = true) : lower s = s := by
  unfold lower
  conv_rhs => rw [← List.map_id s]
  apply List.map_congr_left
  intro c hc
  have hc' := toNat_of_isDigit (List.all_eq_true.mp h c hc)
  have hA : 'A'.toNat = 65 := by decide
  unfold Char.toLower
  rw [dif_neg]
  · rfl
  · rintro ⟨hge, -⟩
    rw [ge_iff_le, UInt32.le_iff_toNat_le] at hge
    have : 'A'.toNat ≤ c.toNat := hge
    omega

/-- There are no more pseudonyms for short numeric secrets than numbers that begin with a nine. -/
theorem secretCalls_exhausted {n : Nat} (u : CharTables) {originals : List Text} (ho : ∀ o ∈ originals, IsNumeral n o)
    (hn : 5 ≤ n) (hn' : n ≤ 7) (hnodup : originals.Nodup) (hmany : 10 ^ n < originals.length) :
    run u true (secretCalls originals) = none := by
  cases hrun : run u true (secretCalls originals) with
  | none => rfl
  | some r =>
    exfalso
    obtain ⟨s, registered⟩ := r
    have hstart : (new true).NinesOnly n := by
      intro o ph hlookup
      simp [new] at hlookup
    obtain ⟨hnines, -, hknown⟩ := secretCalls_run hstart ho hn hn' hrun
    have hreversible := run_reversible u true _ s registered hrun (secretCalls_safe u _ originals)
    have hpow : 10 ^ (n + 1) = 10 * 10 ^ n := by rw [Nat.pow_succ, Nat.mul_comm]
    let value : Text → Nat := fun o => ofDecimal ((s.forward.lookup o).getD [])
    have hmaps : ∀ o ∈ originals.toFinset, value o ∈ Finset.Ico (9 * 10 ^ n) (10 ^ (n + 1)) := by
      intro o hmem
      obtain ⟨ph, hph⟩ := Option.isSome_iff_exists.mp (hknown o (List.mem_toFinset.mp hmem))
      obtain ⟨hnum, hnine⟩ := hnines o ph hph
      rw [Finset.mem_Ico]
      simp only [value, hph, Option.getD_some]
      exact ⟨hnum.head_nine_iff.mp hnine, hnum.lt⟩
    have hinj : Set.InjOn value originals.toFinset := by
      intro o hmem o' hmem' heq
      rw [Finset.mem_coe, List.mem_toFinset] at hmem hmem'
      obtain ⟨ph, hph⟩ := Option.isSome_iff_exists.mp (hknown o hmem)
      obtain ⟨ph', hph'⟩ := Option.isSome_iff_exists.mp (hknown o' hmem')
      simp only [value, hph, hph', Option.getD_some] at heq
      have hsame := (hnines o ph hph).1.eq_of_ofDecimal (hnines o' ph' hph').1 heq
      have hcase := hreversible.separate o o' ph hph (by rw [hsame, hph'])
      rw [eqIgnoreAsciiCase_iff, lower_of_digits (ho o hmem).2, lower_of_digits (ho o' hmem').2] at hcase
      exact hcase
    have hcard := Finset.card_le_card_of_injOn value hmaps hinj
    rw [List.toFinset_card_of_nodup hnodup, Nat.card_Ico] at hcard
    omega

/-- The numbers from 100000 on. -/
def sixDigitSecrets (count : Nat) : List Text := (List.range count).map fun i => decimal (100000 + i)

private theorem isNumeral_sixDigits {count : Nat} (h : count ≤ 900000) : ∀ o ∈ sixDigitSecrets count, IsNumeral 5 o := by
  intro o ho
  obtain ⟨i, hi, rfl⟩ := List.mem_map.mp ho
  rw [List.mem_range] at hi
  constructor
  · have hle : (decimal (100000 + i)).length ≤ 6 := (Nat.length_toDigits_le_iff (by omega) (by omega)).mpr (by omega)
    have hgt : ¬ (decimal (100000 + i)).length ≤ 5 := by
      intro hshort
      have := (Nat.length_toDigits_le_iff (b := 10) (by omega) (by omega)).mp hshort
      omega
    omega
  · rw [List.all_eq_true]
    exact fun c hc => isDigit_of_mem_decimal hc

private theorem nodup_sixDigits (count : Nat) : (sixDigitSecrets count).Nodup := by
  refine (List.nodup_range).map ?_
  intro a b h
  have := decimal_injective h
  omega

private theorem Returns.run {u : CharTables} {s : PiiSession} {calls : List Call} (h : s.Returns u calls)
    (registered : Table Text PiiEntity) : (s.runFrom u registered calls).isSome = true := by
  induction calls generalizing s registered with
  | nil => rfl
  | cons c calls ih =>
    obtain ⟨fuel, s', hcall, hrest⟩ := h
    rw [runFrom, callWithin_returned hcall, Option.bind_some]
    exact ih hrest _

private theorem not_returns_of_run {u : CharTables} {reversible : Bool} {calls : List Call}
    (h : PiiSession.run u reversible calls = none) : ¬ (new reversible).Returns u calls := by
  intro hreturns
  have hsome := hreturns.run ∅
  unfold PiiSession.run at h
  rw [h] at hsome
  exact absurd hsome (by simp)

/-- A text that raises the counter of persons to its end. -/
def lastNumberText : Text := " (P18446744073709551615)".toList

private theorem raisedCount_lastNumberText :
    ((new true).seedExistingPlaceholders lastNumberText).raisedCount .person = usizeMax := by decide

/-- The counter is at its end, and the original is the name that stands there. -/
private theorem not_canReturn_lastName :
    ¬ ((new true).seedExistingPlaceholders lastNumberText).CanReturn .person "Thomas Wright".toList := by
  have hname : eqIgnoreAsciiCase (genName usizeMax) "Thomas Wright".toList = true := by decide
  obtain ⟨counts, heq⟩ := seedExistingPlaceholders_eq (new true) lastNumberText
  have hforward : ∀ o, ((new true).seedExistingPlaceholders lastNumberText).forward.lookup o = none := by
    intro o
    rw [heq]
    exact AList.lookup_empty o
  rintro (h | ⟨-, key, hkey, -⟩ | ⟨h, -⟩)
  · rw [hforward] at h
    exact absurd h (by simp)
  · rw [hforward] at hkey
    exact absurd hkey (by simp)
  · exact h ⟨rfl, raisedCount_lastNumberText, hname⟩

/-- The calls for that text and that name. -/
def lastNameCalls : List Call :=
  [.seedExistingPlaceholders lastNumberText,
    .getOrCreatePlaceholder .person "Thomas Wright".toList .latestFirst]

/-- A call that overflows the counter, and calls of which the last one never ends. -/
theorem not_returns :
    ¬ (new true).Returns .ascii lastNameCalls ∧ ¬ (new true).Returns .ascii (secretCalls (sixDigitSecrets 100001)) := by
  constructor
  · rw [run_returns_iff]
    intro h
    have hsecond := h.2 ((new true).seedExistingPlaceholders lastNumberText) rfl
    exact not_canReturn_lastName hsecond.1
  · exact not_returns_of_run (secretCalls_exhausted .ascii (isNumeral_sixDigits (by omega)) (by omega) (by omega)
      (nodup_sixDigits _) (by simp [sixDigitSecrets]))

end PiiSession

end OpenProxy.Pii
