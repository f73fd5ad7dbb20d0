import OpenProxy.Pii.Session
import Mathlib.Data.Finset.Card

/-!
# Free pseudonyms

What the generators propose and what the search for a free pseudonym returns: a text that is not taken, that keeps the
shape of the proposal, and that is never of the shape of an alias, which is a single capitalised word.
-/

namespace OpenProxy.Pii

/-- The shape of the aliases: a capital first, and no space. -/
def isAlias (s : Text) : Bool := s.head?.any Char.isUpper && !s.contains ' '

/-- A pseudonym of a person: its two parts have the shape of aliases. -/
def PersonShape (s : Text) : Prop :=
  ∃ first last, splitOnce ' ' s = some (first, last) ∧ isAlias first = true ∧ isAlias last = true

/-! ### The generators -/

private theorem isAlias_cons {c : Char} (s : Text) (h : c.isUpper = false) : isAlias (c :: s) = false := by
  simp [isAlias, h]

private theorem isAlias_append {s : Text} (t : Text) (hs : s ≠ []) (h : isAlias s = false) :
    isAlias (s ++ t) = false := by
  cases s with
  | nil => exact absurd rfl hs
  | cons c s =>
    simp only [isAlias, List.head?_cons, Option.any_some, Bool.and_eq_false_iff, Bool.not_eq_false',
      List.contains_eq_mem, decide_eq_true_eq, List.cons_append] at h ⊢
    rcases h with h | h
    · exact Or.inl h
    · refine Or.inr ?_
      rw [← List.cons_append]
      exact List.mem_append_left _ h

private theorem isUpper_of_isDigit {c : Char} (h : c.isDigit = true) : c.isUpper = false := by
  simp only [Char.isDigit, Bool.and_eq_true, decide_eq_true_eq, UInt32.le_iff_toNat_le, ge_iff_le] at h
  delta Char.isUpper
  simp only [decide_eq_false_iff_not, UInt32.le_iff_toNat_le, ge_iff_le]
  have e1 : ('9' : Char).val.toNat = 57 := by decide
  have e2 : ('A' : Char).val.toNat = 65 := by decide
  omega

private theorem isAlias_of_digits {s : Text} (h : s.all Char.isDigit = true) : isAlias s = false := by
  cases s with
  | nil => rfl
  | cons c s =>
    rw [List.all_cons, Bool.and_eq_true] at h
    exact isAlias_cons s (isUpper_of_isDigit h.1)

theorem isDigit_of_mem_decimal {n : Nat} {c : Char} (h : c ∈ decimal n) : c.isDigit = true :=
  Nat.isDigit_of_mem_toDigits (by omega) (by omega) h

theorem space_not_mem_decimal (n : Nat) : ' ' ∉ decimal n := by
  intro h
  exact absurd (isDigit_of_mem_decimal h) (by decide)

theorem getD_mod_mem {α : Type} {l : List α} (n : Nat) (d : α) (hl : 0 < l.length) : l.getD (n % l.length) d ∈ l := by
  rw [List.getD_eq_getElem?_getD, List.getElem?_eq_getElem (Nat.mod_lt _ hl)]
  exact List.getElem_mem _

theorem generateFakeCreditCard_head (c : Nat) (spaced : Bool) :
    ∃ rest, generateFakeCreditCard c spaced = '4' :: rest := by
  unfold generateFakeCreditCard
  split <;> split <;> exact ⟨_, rfl⟩

theorem numericSecretDomain_head (original : Text) :
    (numericSecretDomain original).1 ∈ ["10".toList, "89410294".toList, "9".toList] := by
  unfold numericSecretDomain
  generalize "10".toList = a, "89410294".toList = b, "9".toList = c
  dsimp only
  split_ifs <;> simp

theorem secretPrefix_mem (original : Text) :
    ((secretPrefixMap.find? fun entry => entry.1.isPrefixOf original).map (·.2)).getD "sec_".toList ∈
      "sec_".toList :: secretPrefixMap.map (·.2) := by
  cases hf : secretPrefixMap.find? fun entry => entry.1.isPrefixOf original with
  | none => exact List.mem_cons_self
  | some entry => exact List.mem_cons_of_mem _ (List.mem_map_of_mem (List.mem_of_find?_eq_some hf))

private theorem secretPlaceholder_not_alias (original : Text) : isAlias (secretPlaceholder original) = false := by
  unfold secretPlaceholder
  dsimp only
  split
  · have hmem := numericSecretDomain_head original
    generalize numericSecretDomain original = domain at hmem
    have hall : ∀ p ∈ ["10".toList, "89410294".toList, "9".toList], p ≠ [] ∧ isAlias p = false := by decide
    exact isAlias_append _ (hall _ hmem).1 (hall _ hmem).2
  · have hall : ∀ p ∈ "sec_".toList :: secretPrefixMap.map (·.2), p ≠ [] ∧ isAlias p = false := by decide
    exact isAlias_append _ (hall _ (secretPrefix_mem original)).1 (hall _ (secretPrefix_mem original)).2

/-- A generated name is a first name, a space and a last name. -/
theorem genName_eq (idx : Nat) :
    ∃ first ∈ personFirstNames, ∃ last ∈ personLastNames, genName idx = first ++ ' ' :: last := by
  refine ⟨_, getD_mod_mem ((idx + usizeMax) % 2 ^ 64) [] (by decide), _,
    getD_mod_mem ((idx + usizeMax) % 2 ^ 64 % personFirstNames.length +
      (idx + usizeMax) % 2 ^ 64 / personFirstNames.length) [] (by decide), ?_⟩
  simp [genName]

theorem generatePlaceholder_not_alias (entity : PiiEntity) (c : Nat) (original : Text) :
    isAlias (generatePlaceholder entity c original).1 = false := by
  cases entity with
  | email =>
    have hall : ∀ p ∈ emailFirstNames, p ≠ [] ∧ isAlias p = false := by decide
    have hmem := getD_mod_mem (l := emailFirstNames) (c - 1) [] (by decide)
    simp only [generatePlaceholder, emailPlaceholder, List.append_assoc]
    exact isAlias_append _ (hall _ hmem).1 (hall _ hmem).2
  | phone =>
    simp only [generatePlaceholder, phonePlaceholder]
    split
    · exact isAlias_append _ (by decide) (by decide)
    · simp only [List.append_assoc]
      exact isAlias_append _ (by decide) (by decide)
  | ip =>
    simp only [generatePlaceholder, ipPlaceholder]
    split
    · exact isAlias_append _ (by decide) (by decide)
    · simp only [List.append_assoc]
      exact isAlias_append _ (by decide) (by decide)
  | creditCard =>
    obtain ⟨rest, hrest⟩ := generateFakeCreditCard_head c (original.contains ' ' || original.contains '-')
    simp only [generatePlaceholder, hrest]
    exact isAlias_cons rest (by decide)
  | secret => exact secretPlaceholder_not_alias original
  | person =>
    obtain ⟨first, -, last, -, h⟩ := genName_eq (skipOwnName original 2 c)
    simp only [generatePlaceholder, h, isAlias, List.contains_append, List.contains_cons]
    simp

/-! ### The search -/

namespace PiiSession

theorem taken_eq_false {s : PiiSession} {original placeholder : Text} :
    s.taken original placeholder = false ↔ placeholder ≠ original ∧ s.reverse.lookup placeholder = none := by
  simp [taken]

private theorem isDigit_succ {d : Char} (h : d.isDigit = true) (h9 : d ≠ '9') :
    (Char.ofNat (d.toNat + 1)).isDigit = true := by
  have hd : 48 ≤ d.toNat ∧ d.toNat ≤ 57 := by
    simp only [Char.isDigit, Bool.and_eq_true, decide_eq_true_eq, UInt32.le_iff_toNat_le, ge_iff_le] at h
    exact h
  have hne : d.toNat ≠ 57 := fun e => h9 (Char.ext (UInt32.toNat_inj.mp e))
  have hall : ∀ n : Fin 9, (Char.ofNat (48 + n.val + 1)).isDigit = true := by decide
  have := hall ⟨d.toNat - 48, by omega⟩
  rwa [show 48 + (d.toNat - 48) + 1 = d.toNat + 1 by omega] at this

theorem increment_digits (ds : List Char) (h : ∀ d ∈ ds, d.isDigit = true) :
    ∀ d ∈ increment ds, d.isDigit = true := by
  induction ds with
  | nil => simp [increment]
  | cons d ds ih =>
    have hd : d.isDigit = true := h d (by simp)
    have hds : ∀ d ∈ ds, d.isDigit = true := fun d' hd' => h d' (by simp [hd'])
    unfold increment
    split
    · intro x hx
      rcases List.mem_cons.mp hx with rfl | hx
      · decide
      · exact ih hds x hx
    · rename_i h9
      intro x hx
      rcases List.mem_cons.mp hx with rfl | hx
      · exact isDigit_succ hd h9
      · exact hds x hx

theorem nextNumeric_digits {placeholder : Text} (h : placeholder.all Char.isDigit = true) :
    (nextNumeric placeholder).all Char.isDigit = true := by
  rw [List.all_eq_true] at h
  have hinc := increment_digits placeholder.reverse fun d hd => h d (by simpa using hd)
  have hrev : ∀ d ∈ (increment placeholder.reverse).reverse, d.isDigit = true := fun d hd => hinc d (by simpa using hd)
  rw [List.all_eq_true]
  unfold nextNumeric
  split
  · rename_i rest heq
    rw [heq] at hrev
    intro d hd
    rcases List.mem_cons.mp hd with rfl | hd
    · decide
    · exact hrev d (by simp [hd])
  · exact hrev

theorem length_increment (ds : List Char) : (increment ds).length = ds.length := by
  induction ds with
  | nil => rfl
  | cons d ds ih =>
    unfold increment
    split <;> simp [ih]

theorem length_nextNumeric (placeholder : Text) : (nextNumeric placeholder).length = placeholder.length := by
  have h : (increment placeholder.reverse).reverse.length = placeholder.length := by simp [length_increment]
  unfold nextNumeric
  split
  · rename_i rest heq
    rw [heq] at h
    exact h
  · exact h

theorem probeNumeric_spec {s : PiiSession} {original placeholder result : Text} {fuel : Nat}
    (hd : placeholder.all Char.isDigit = true) (h : s.probeNumeric original fuel placeholder = some result) :
    s.taken original result = false ∧ result.all Char.isDigit = true ∧ result.length = placeholder.length := by
  induction fuel generalizing placeholder with
  | zero => simp [probeNumeric] at h
  | succ fuel ih =>
    unfold probeNumeric at h
    split at h
    · rw [← length_nextNumeric placeholder]
      exact ih (nextNumeric_digits hd) h
    · rename_i ht
      cases h
      exact ⟨by simpa using ht, hd, rfl⟩

theorem probeSuffix_spec {s : PiiSession} {original base placeholder result : Text} {fuel tieBreaker : Nat}
    (h : s.probeSuffix original base fuel tieBreaker placeholder = some result) :
    s.taken original result = false ∧ (result = placeholder ∨ ∃ k, result = base ++ '_' :: decimal k) := by
  induction fuel generalizing tieBreaker placeholder with
  | zero => simp [probeSuffix] at h
  | succ fuel ih =>
    unfold probeSuffix at h
    split at h
    · obtain ⟨ht, hr⟩ := ih h
      refine ⟨ht, Or.inr ?_⟩
      rcases hr with rfl | hr
      · exact ⟨tieBreaker, by simp⟩
      · exact hr
    · rename_i ht
      cases h
      exact ⟨by simpa using ht, Or.inl rfl⟩

/-- The pseudonym that is used: free, unless it already stands for the original, and either a number or the proposal
with a suffix. -/
theorem resolveCollision_spec {s : PiiSession} {original placeholder result : Text}
    (h : s.resolveCollision original placeholder = some result) :
    result ≠ original ∧ (s.reverse.lookup result = none ∨ s.reverse.lookup result = some original) ∧
      (placeholder.all Char.isDigit = true ∧ result.all Char.isDigit = true ∧ result.length = placeholder.length ∨
        placeholder.all Char.isDigit = false ∧
          (result = placeholder ∨ ∃ k, result = placeholder ++ '_' :: decimal k)) := by
  unfold resolveCollision at h
  split at h
  · rename_i hd
    obtain ⟨ht, hr⟩ := probeNumeric_spec hd h
    rw [taken_eq_false] at ht
    exact ⟨ht.1, Or.inl ht.2, Or.inl ⟨hd, hr⟩⟩
  · rename_i hd
    rw [Bool.not_eq_true] at hd
    split at h
    · obtain ⟨ht, hr⟩ := probeSuffix_spec h
      rw [taken_eq_false] at ht
      exact ⟨ht.1, Or.inl ht.2, Or.inr ⟨hd, hr⟩⟩
    · rename_i hc
      simp only [Option.some.injEq] at h
      subst h
      simp only [Bool.or_eq_true, beq_iff_eq, not_or] at hc
      refine ⟨hc.1, ?_, Or.inr ⟨hd, Or.inl rfl⟩⟩
      cases hl : s.reverse.lookup placeholder with
      | none => exact Or.inl rfl
      | some existing =>
        rw [hl] at hc
        simp only [Option.any_some, bne_iff_ne, ne_eq, not_not] at hc
        exact Or.inr (by rw [hc.2])

theorem resolveCollision_not_alias {s : PiiSession} {original placeholder result : Text}
    (h : s.resolveCollision original placeholder = some result) (ha : isAlias placeholder = false) :
    isAlias result = false := by
  obtain ⟨-, -, ⟨-, hr, -⟩ | ⟨hd, rfl | ⟨k, rfl⟩⟩⟩ := resolveCollision_spec h
  · exact isAlias_of_digits hr
  · exact ha
  · refine isAlias_append _ ?_ ha
    rintro rfl
    simp at hd

/-- A name, with or without a suffix, splits at its space into two parts of the shape of aliases. -/
theorem resolveCollision_person {s : PiiSession} {original result : Text} {idx : Nat}
    (h : s.resolveCollision original (genName idx) = some result) : PersonShape result := by
  obtain ⟨first, hfirst, last, hlast, hname⟩ := genName_eq idx
  have hf : ∀ n ∈ personFirstNames, isAlias n = true ∧ ' ' ∉ n := by decide
  have hl : ∀ n ∈ personLastNames, isAlias n = true ∧ n ≠ [] := by decide
  have hcases : ∃ suffix, result = first ++ ' ' :: (last ++ suffix) ∧ ' ' ∉ suffix := by
    rw [hname] at h
    obtain ⟨-, -, ⟨hd, -⟩ | ⟨-, rfl | ⟨k, rfl⟩⟩⟩ := resolveCollision_spec h
    · have hspace : (' ').isDigit = false := by decide
      simp only [List.all_append, List.all_cons, hspace, Bool.false_and, Bool.and_false] at hd
      exact absurd hd (by simp)
    · exact ⟨[], by simp, by simp⟩
    · refine ⟨'_' :: decimal k, by simp, ?_⟩
      simp only [List.mem_cons, not_or]
      exact ⟨by decide, space_not_mem_decimal k⟩
  obtain ⟨suffix, rfl, hsuffix⟩ := hcases
  refine ⟨first, last ++ suffix, splitOnce_append (hf first hfirst).2 _, (hf first hfirst).1, ?_⟩
  obtain ⟨ha, hne⟩ := hl last hlast
  cases last with
  | nil => exact absurd rfl hne
  | cons c last =>
    simp only [isAlias, List.cons_append, List.head?_cons, Option.any_some, Bool.and_eq_true, Bool.not_eq_true',
      List.contains_eq_mem, decide_eq_false_iff_not, List.mem_cons, List.mem_append, not_or] at ha ⊢
    exact ⟨ha.1, ha.2.1, ha.2.2, hsuffix⟩

/-! ### The search ends, or never does -/

/-- The candidates that may not be used. -/
private def takenSet (s : PiiSession) (original : Text) : Finset Text := insert original s.reverse.keys.toFinset

private theorem mem_takenSet {s : PiiSession} {original placeholder : Text} :
    placeholder ∈ s.takenSet original ↔ s.taken original placeholder = true := by
  simp [takenSet, taken, AList.lookup_isSome, AList.mem_keys]

private theorem card_takenSet_lt (s : PiiSession) (original : Text) : (s.takenSet original).card < s.probeFuel := by
  have h1 := Finset.card_insert_le original s.reverse.keys.toFinset
  have h2 := List.toFinset_card_le s.reverse.keys
  unfold takenSet probeFuel
  omega

/-- A sequence of iterates that stays in a finite set for more steps than the set has elements never leaves it. -/
private theorem iterate_mem_of_card {α : Type} [DecidableEq α] (f : α → α) (x : α) (bad : Finset α)
    (h : ∀ i ≤ bad.card, f^[i] x ∈ bad) (n : Nat) : f^[n] x ∈ bad := by
  obtain ⟨i, hi, j, hj, hij, heq⟩ := Finset.exists_ne_map_eq_of_card_lt_of_maps_to (s := Finset.range (bad.card + 1))
    (t := bad) (f := fun i => f^[i] x) (by simp) (fun i hi => h i (by simpa [Nat.lt_succ_iff] using hi))
  simp only [Finset.mem_range] at hi hj
  -- the two equal iterates, in order
  obtain ⟨a, b, hab, hb, heq⟩ : ∃ a b, a < b ∧ b ≤ bad.card ∧ f^[a] x = f^[b] x := by
    rcases Nat.lt_or_gt_of_ne hij with hlt | hlt
    · exact ⟨i, j, hlt, by omega, heq⟩
    · exact ⟨j, i, hlt, by omega, heq.symm⟩
  induction n using Nat.strongRecOn with
  | ind n ih =>
    by_cases hn : n ≤ bad.card
    · exact h n hn
    · have hstep : f^[n] x = f^[n - b + a] x := by
        rw [Function.iterate_add_apply, heq, ← Function.iterate_add_apply]
        congr 1
        omega
      rw [hstep]
      exact ih _ (by omega)

theorem probeNumeric_eq_none {s : PiiSession} {original placeholder : Text} {fuel : Nat} :
    s.probeNumeric original fuel placeholder = none ↔
      ∀ i < fuel, s.taken original (nextNumeric^[i] placeholder) = true := by
  induction fuel generalizing placeholder with
  | zero => simp [probeNumeric]
  | succ fuel ih =>
    unfold probeNumeric
    split
    · rename_i ht
      rw [ih]
      constructor
      · intro h i hi
        cases i with
        | zero => exact ht
        | succ i => exact h i (by omega)
      · intro h i hi
        exact h (i + 1) (by omega)
    · rename_i ht
      simp only [reduceCtorEq, false_iff]
      intro h
      exact ht (h 0 (by omega))

/-- When the search in the numeric domain has not ended after `probeFuel` candidates, it does not end at all. -/
theorem probeNumeric_diverges {s : PiiSession} {original placeholder : Text}
    (h : s.probeNumeric original s.probeFuel placeholder = none) (fuel : Nat) :
    s.probeNumeric original fuel placeholder = none := by
  rw [probeNumeric_eq_none] at h ⊢
  intro i _
  rw [← mem_takenSet]
  apply iterate_mem_of_card
  intro j hj
  rw [mem_takenSet]
  exact h j (lt_of_le_of_lt hj (card_takenSet_lt s original))

theorem decimal_injective : Function.Injective decimal := by
  intro a b h
  have := congrArg (fun ds => Nat.ofDigitChars 10 ds 0) h
  simpa [decimal] using this

private theorem probeSuffix_eq_none {s : PiiSession} {original base placeholder : Text} {fuel t : Nat}
    (h : s.probeSuffix original base fuel t placeholder = none) :
    (0 < fuel → s.taken original placeholder = true) ∧
      ∀ i, i + 1 < fuel → s.taken original (base ++ ['_'] ++ decimal (t + i)) = true := by
  induction fuel generalizing t placeholder with
  | zero => simp
  | succ fuel ih =>
    unfold probeSuffix at h
    split at h
    · rename_i ht
      obtain ⟨h0, hs⟩ := ih h
      refine ⟨fun _ => ht, ?_⟩
      intro i hi
      cases i with
      | zero => exact h0 (by omega)
      | succ i =>
        have := hs i (by omega)
        rwa [show t + 1 + i = t + (i + 1) by omega] at this
    · exact absurd h (by simp)

/-- The search among the suffixed candidates always ends. -/
theorem probeSuffix_isSome (s : PiiSession) (original base : Text) :
    (s.probeSuffix original base s.probeFuel 1 base).isSome = true := by
  rw [Option.isSome_iff_ne_none]
  intro hnone
  obtain ⟨h0, hs⟩ := probeSuffix_eq_none hnone
  let candidate : Nat → Text := fun i => if i = 0 then base else base ++ ['_'] ++ decimal i
  have hmaps : ∀ i ∈ Finset.range s.probeFuel, candidate i ∈ s.takenSet original := by
    intro i hi
    rw [Finset.mem_range] at hi
    rw [mem_takenSet]
    cases i with
    | zero => exact h0 (by omega)
    | succ i =>
      have := hs i (by omega)
      rwa [Nat.add_comm 1 i] at this
  have hinj : Set.InjOn candidate (Finset.range s.probeFuel) := by
    intro a _ b _ hab
    simp only [candidate] at hab
    split at hab <;> split at hab
    · omega
    · exact absurd (congrArg List.length hab) (by simp)
    · exact absurd (congrArg List.length hab) (by simp)
    · rw [List.append_assoc, List.append_assoc, List.append_cancel_left_eq, List.append_cancel_left_eq] at hab
      exact decimal_injective hab
  have hcard := Finset.card_le_card_of_injOn candidate hmaps hinj
  have hlt := card_takenSet_lt s original
  rw [Finset.card_range] at hcard
  omega

end PiiSession

private theorem nodup_lower_personFirstNames : (personFirstNames.map lower).Nodup := by decide

private theorem length_personFirstNames : personFirstNames.length = 20 := by decide

/-- The first name of a generated name, in small letters. -/
private theorem takeWhile_lower_genName (idx : Nat) :
    (lower (genName idx)).takeWhile (· != ' ') =
      (personFirstNames.map lower).getD ((idx + usizeMax) % 2 ^ 64 % 20) [] := by
  have hall : (personFirstNames.all fun n => (lower n).all (· != ' ')) = true := by decide
  have hspace : ∀ n ∈ personFirstNames, ∀ c ∈ lower n, (c != ' ') = true := by
    intro n hn
    exact List.all_eq_true.mp (List.all_eq_true.mp hall n hn)
  have hcut : ∀ t : Text, (lower ([' '] ++ t)).takeWhile (· != ' ') = [] := fun t => rfl
  have hmem : ∀ z, personFirstNames.getD (z % 20) [] ∈ personFirstNames := by
    intro z
    rw [← length_personFirstNames]
    exact getD_mod_mem _ [] (by decide)
  simp only [genName, length_personFirstNames, List.append_assoc]
  rw [lower_append, List.takeWhile_append_of_pos (hspace _ (hmem _)), hcut, List.append_nil,
    List.getD_eq_getElem?_getD, List.getD_eq_getElem?_getD, List.getElem?_map]
  cases personFirstNames[(idx + usizeMax) % 2 ^ 64 % 20]? <;> rfl

/-- The first names of two generated names that agree up to case have the same place in the table. -/
private theorem firstIdx_eq_of_lower {i j : Nat} (h : lower (genName i) = lower (genName j)) :
    (i + usizeMax) % 2 ^ 64 % 20 = (j + usizeMax) % 2 ^ 64 % 20 := by
  have hlt : ∀ n, n % 20 < (personFirstNames.map lower).length := by
    intro n
    rw [List.length_map, length_personFirstNames]
    omega
  have hinj : ∀ a b, (personFirstNames.map lower).getD (a % 20) [] = (personFirstNames.map lower).getD (b % 20) [] →
      a % 20 = b % 20 := by
    intro a b heq
    rw [List.getD_eq_getElem?_getD, List.getD_eq_getElem?_getD, List.getElem?_eq_getElem (hlt a),
      List.getElem?_eq_getElem (hlt b)] at heq
    exact nodup_lower_personFirstNames.getElem_inj_iff.mp heq
  have heq := congrArg (List.takeWhile (· != ' ')) h
  rw [takeWhile_lower_genName, takeWhile_lower_genName] at heq
  exact hinj _ _ heq

/-- Of two successive generated names at most one is the original. -/
theorem genName_succ_ne {original : Text} {c : Nat} (h : eqIgnoreAsciiCase (genName c) original = true) :
    eqIgnoreAsciiCase (genName ((c + 1) % 2 ^ 64)) original = false := by
  rw [Bool.eq_false_iff]
  intro h2
  rw [eqIgnoreAsciiCase_iff] at h h2
  have := firstIdx_eq_of_lower (h.trans h2.symm)
  simp only [usizeMax] at this
  omega

end OpenProxy.Pii
