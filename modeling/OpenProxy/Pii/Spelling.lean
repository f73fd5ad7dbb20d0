import OpenProxy.Pii.Reversible
import OpenProxy.Pii.Replacer
import Mathlib.Data.List.TakeWhile

/-!
# How pseudonyms are spelled

Every text that a session restores ends in an ASCII letter, a digit or an underscore, so that a longer token can always
follow it: the pseudonyms, their first and last words, which are restored too, and the other spellings of phone numbers,
secrets, cards and addresses.
-/

namespace OpenProxy.Pii

/-- The text ends in an ASCII letter, a digit or an underscore. -/
def endsInWord (s : Text) : Bool := s.getLast?.any fun c => c.isAlphanum || c == '_'

/-- The text up to its first space. -/
def firstWord (s : Text) : Text := s.takeWhile (· != ' ')

/-- The text and its first word end in a letter, a digit or an underscore. -/
def Worded (s : Text) : Prop := endsInWord s = true ∧ endsInWord (firstWord s) = true

private theorem lt_128_of_isAlphanum {c : Char} (h : c.isAlphanum = true) : c.toNat < 128 := by
  have e1 : 'z'.val.toNat = 122 := by decide
  have e2 : 'Z'.val.toNat = 90 := by decide
  have e3 : '9'.val.toNat = 57 := by decide
  delta Char.isAlphanum Char.isAlpha Char.isUpper Char.isLower Char.isDigit at h
  simp only [Bool.or_eq_true, Bool.and_eq_true, decide_eq_true_eq, ge_iff_le, UInt32.le_iff_toNat_le] at h
  show c.val.toNat < 128
  omega

theorem patEndsToken_of_endsInWord (u : CharTables) {s : Text} (h : endsInWord s = true) :
    StreamingWindowReplacer.patEndsToken u s = true := by
  unfold endsInWord at h
  unfold StreamingWindowReplacer.patEndsToken
  cases hs : s.getLast? with
  | none => simp [hs] at h
  | some c =>
    simp only [hs, Option.any_some, Bool.or_eq_true] at h
    simp only [Option.any_some, isTokenChar, Bool.or_eq_true]
    rcases h with h | h
    · left
      rw [u.isAlphanumeric_ascii c (lt_128_of_isAlphanum h), h]
    · exact Or.inr h

theorem endsInWord_append (s : Text) {t : Text} (h : endsInWord t = true) : endsInWord (s ++ t) = true := by
  unfold endsInWord at h ⊢
  rw [List.getLast?_append]
  cases ht : t.getLast? with
  | none => simp [ht] at h
  | some c => simpa [ht] using h

theorem endsInWord_of_forall {s : Text} (hs : s ≠ []) (h : ∀ c ∈ s, c.isAlphanum = true) : endsInWord s = true := by
  unfold endsInWord
  rw [List.getLast?_eq_some_getLast hs]
  simp [h _ (List.getLast_mem hs)]

theorem isAlphanum_of_isDigit {c : Char} (h : c.isDigit = true) : c.isAlphanum = true := by simp [Char.isAlphanum, h]

theorem endsInWord_of_digits {s : Text} (hs : s ≠ []) (h : s.all Char.isDigit = true) : endsInWord s = true :=
  endsInWord_of_forall hs fun c hc => isAlphanum_of_isDigit (List.all_eq_true.mp h c hc)

/-! ### Numbers -/

theorem toDigits_isAlphanum {b n : Nat} (hb : 1 < b) (hb' : b ≤ 16) {c : Char} (h : c ∈ Nat.toDigits b n) :
    c.isAlphanum = true := by
  have hall : ∀ k : Fin 16, k.val.digitChar.isAlphanum = true := by decide
  induction n using Nat.strong_induction_on with
  | _ n ih =>
    rw [Nat.toDigits_eq_if hb] at h
    split at h
    · rename_i hn
      rw [List.mem_singleton.mp h]
      exact hall ⟨n, by omega⟩
    · rename_i hn
      rcases List.mem_append.mp h with h | h
      · exact ih (n / b) (Nat.div_lt_self (by omega) hb) h
      · rw [List.mem_singleton.mp h]
        exact hall ⟨n % b, lt_of_lt_of_le (Nat.mod_lt n (by omega)) hb'⟩

theorem toDigits_ne_nil {b n : Nat} (hb : 1 < b) : Nat.toDigits b n ≠ [] := by
  rw [Nat.toDigits_eq_if hb]
  split <;> simp

theorem endsInWord_toDigits {b n : Nat} (hb : 1 < b) (hb' : b ≤ 16) : endsInWord (Nat.toDigits b n) = true :=
  endsInWord_of_forall (toDigits_ne_nil hb) fun _ hc => toDigits_isAlphanum hb hb' hc

theorem endsInWord_decimal (n : Nat) : endsInWord (decimal n) = true := endsInWord_toDigits (by omega) (by omega)

theorem endsInWord_leftpad {n : Nat} {c : Char} {s : Text} (h : endsInWord s = true) :
    endsInWord (s.leftpad n c) = true := endsInWord_append _ h

theorem space_not_mem {s : Text} (h : ∀ c ∈ s, c.isAlphanum = true) : ' ' ∉ s := by
  intro hs
  exact absurd (h _ hs) (by decide)

theorem space_not_mem_leftpad {n : Nat} {s : Text} (h : ' ' ∉ s) : ' ' ∉ s.leftpad n '0' := by
  unfold List.leftpad
  simp [h]

/-! ### Words -/

theorem firstWord_of_no_space {s : Text} (h : ' ' ∉ s) : firstWord s = s := by
  unfold firstWord
  rw [List.takeWhile_eq_self_iff]
  intro c hc
  rw [bne_iff_ne]
  rintro rfl
  exact h hc

theorem firstWord_append {s : Text} (t : Text) (h : ' ' ∉ s) : firstWord (s ++ ' ' :: t) = s := by
  have := firstWord_of_no_space h
  unfold firstWord at this ⊢
  rw [List.takeWhile_append, this]
  simp

theorem firstWord_append_of_mem {s : Text} (t : Text) (h : ' ' ∈ s) : firstWord (s ++ t) = firstWord s := by
  unfold firstWord
  rw [List.takeWhile_append, if_neg]
  intro hlen
  rw [← (List.takeWhile_prefix (· != ' ')).eq_of_length hlen] at h
  exact absurd (List.mem_takeWhile_imp h) (by decide)

theorem worded_of_no_space {s : Text} (h : endsInWord s = true) (hs : ' ' ∉ s) : Worded s :=
  ⟨h, by rwa [firstWord_of_no_space hs]⟩

theorem worded_of_words {s t : Text} (hs : endsInWord s = true) (hspace : ' ' ∉ s) (ht : endsInWord t = true) :
    Worded (s ++ ' ' :: t) := by
  refine ⟨?_, by rwa [firstWord_append t hspace]⟩
  rw [← List.singleton_append, ← List.append_assoc]
  exact endsInWord_append _ ht

/-- A text without a space may be appended. -/
theorem worded_append {s t : Text} (hs : ' ' ∈ s → endsInWord (firstWord s) = true) (ht : endsInWord t = true)
    (hspace : ' ' ∉ t) : Worded (s ++ t) := by
  by_cases h : ' ' ∈ s
  · exact ⟨endsInWord_append _ ht, by rw [firstWord_append_of_mem t h]; exact hs h⟩
  · exact worded_of_no_space (endsInWord_append _ ht) (by simp [h, hspace])

/-- What a worded text is split into at its first space. -/
theorem Worded.splitOnce {s first last : Text} (h : Worded s) (hs : splitOnce ' ' s = some (first, last)) :
    endsInWord first = true ∧ endsInWord last = true := by
  simp only [OpenProxy.splitOnce, Option.map_eq_some_iff, Prod.mk.injEq] at hs
  obtain ⟨n, hn, rfl, rfl⟩ := hs
  obtain ⟨hlen, hat, hbefore⟩ := firstAt_eq_some.mp hn
  obtain ⟨rest, hrest⟩ : ∃ rest, s.drop n = ' ' :: rest := by
    cases hd : s.drop n with
    | nil => simp [hd] at hat
    | cons c rest =>
      rw [hd] at hat
      simp only [List.isPrefixOf, Bool.and_true, beq_iff_eq] at hat
      exact ⟨rest, by rw [hat]⟩
  have hnot : ' ' ∉ s.take n := by
    intro hmem
    obtain ⟨m, hm, hget⟩ := List.getElem_of_mem hmem
    simp only [List.length_take] at hm
    have hm' := hbefore m (by omega)
    rw [List.drop_eq_getElem_cons (by omega)] at hm'
    rw [List.getElem_take] at hget
    simp [List.isPrefixOf, hget] at hm'
  have hsplit : s = s.take n ++ ' ' :: rest := by rw [← hrest, List.take_append_drop]
  have hdrop : s.drop (n + 1) = rest := by rw [← List.drop_drop, hrest, List.drop_succ_cons, List.drop_zero]
  rw [hdrop]
  constructor
  · have := h.2
    rwa [hsplit, firstWord_append rest hnot] at this
  · have := h.1
    rw [hsplit] at this
    cases rest with
    | nil => simp [endsInWord] at this
    | cons c rest =>
      obtain ⟨d, hd⟩ : ∃ d, (c :: rest).getLast? = some d := ⟨_, List.getLast?_eq_some_getLast (by simp)⟩
      simpa [endsInWord, List.getLast?_append, List.getLast?_cons_cons, hd] using this

/-! ### The generators -/

private theorem emailPlaceholder_worded (c : Nat) : Worded (emailPlaceholder c) := by
  have hall : ∀ p ∈ emailFirstNames, ' ' ∉ p := by decide
  have hname := hall _ (getD_mod_mem (l := emailFirstNames) (c - 1) [] (by decide))
  unfold emailPlaceholder
  have hdomain : ∀ d ∈ ["outlook.com".toList, "fastmail.com".toList], endsInWord d = true ∧ ' ' ∉ d := by decide
  have hmem : (if c % 2 = 0 then "outlook.com".toList else "fastmail.com".toList) ∈
      ["outlook.com".toList, "fastmail.com".toList] := by
    split <;> simp
  generalize (if c % 2 = 0 then "outlook.com".toList else "fastmail.com".toList) = domain at hmem
  obtain ⟨hend, hspace⟩ := hdomain domain hmem
  refine worded_of_no_space (endsInWord_append _ hend) ?_
  simp only [List.mem_append, not_or]
  exact ⟨⟨⟨hname, space_not_mem_decimal _⟩, by decide⟩, hspace⟩

private theorem phonePlaceholder_worded (c : Nat) : Worded (phonePlaceholder c) ∧ '1' ∈ phonePlaceholder c := by
  unfold phonePlaceholder
  split
  · refine ⟨worded_of_no_space (endsInWord_append _ (endsInWord_leftpad (endsInWord_decimal _))) ?_, by simp⟩
    rw [List.mem_append, not_or]
    exact ⟨by decide, space_not_mem_leftpad (space_not_mem_decimal _)⟩
  · refine ⟨worded_of_no_space (endsInWord_append _ (endsInWord_leftpad (endsInWord_decimal _))) ?_, by simp⟩
    simp only [List.mem_append, not_or]
    exact ⟨⟨⟨by decide, space_not_mem_decimal _⟩, by decide⟩, space_not_mem_leftpad (space_not_mem_decimal _)⟩

private theorem ipPlaceholder_worded (c : Nat) (original : Text) : Worded (ipPlaceholder c original) := by
  unfold ipPlaceholder
  split
  · refine worded_of_no_space (endsInWord_append _ (endsInWord_decimal _)) ?_
    rw [List.mem_append, not_or]
    exact ⟨by decide, space_not_mem_decimal _⟩
  · refine worded_of_no_space (endsInWord_append _ (endsInWord_decimal _)) ?_
    simp only [List.mem_append, not_or]
    exact ⟨⟨⟨by decide, space_not_mem_decimal _⟩, by decide⟩, space_not_mem_decimal _⟩

private theorem isAlphanum_decimalPadded {width n : Nat} {c : Char} (h : c ∈ decimalPadded width n) :
    c.isAlphanum = true := by
  unfold decimalPadded List.leftpad at h
  rcases List.mem_append.mp h with h | h
  · rw [List.eq_of_mem_replicate h]
    decide
  · exact toDigits_isAlphanum (by omega) (by omega) h

private theorem generateFakeCreditCard_worded (count : Nat) (spaced : Bool) :
    Worded (generateFakeCreditCard count spaced) := by
  unfold generateFakeCreditCard
  -- the number has at least 13 digits
  have hbase : ∀ base : Text, base = (if count ≤ 900 then "453201511283".toList ++ decimalPadded 3 (count % 900 + 100)
      else "4532015".toList ++ decimalPadded 8 ((count - 900) % 90000000 + 1000)) →
      12 ≤ base.length ∧ ∀ c ∈ base, c.isAlphanum = true := by
    rintro base rfl
    split
    · refine ⟨by simp, ?_⟩
      intro c hc
      rcases List.mem_append.mp hc with hc | hc
      · exact List.all_eq_true.mp (by decide : "453201511283".toList.all Char.isAlphanum = true) c hc
      · exact isAlphanum_decimalPadded hc
    · constructor
      · simp only [List.length_append, decimalPadded, List.length_leftpad]
        have : "4532015".toList.length = 7 := by decide
        omega
      · intro c hc
        rcases List.mem_append.mp hc with hc | hc
        · exact List.all_eq_true.mp (by decide : "4532015".toList.all Char.isAlphanum = true) c hc
        · exact isAlphanum_decimalPadded hc
  generalize (if count ≤ 900 then "453201511283".toList ++ decimalPadded 3 (count % 900 + 100)
      else "4532015".toList ++ decimalPadded 8 ((count - 900) % 90000000 + 1000)) = base at hbase
  obtain ⟨hlen, halnum⟩ := hbase base rfl
  dsimp only
  generalize hfull : base ++ decimal (computeLuhnCheckDigit base) = full
  have hfull13 : 13 ≤ full.length := by
    have hd := List.length_pos_iff.mpr (toDigits_ne_nil (n := computeLuhnCheckDigit base) (show 1 < 10 by omega))
    rw [← hfull, List.length_append]
    show 13 ≤ base.length + (Nat.toDigits 10 (computeLuhnCheckDigit base)).length
    omega
  have hfullalnum : ∀ c ∈ full, c.isAlphanum = true := by
    intro c hc
    rw [← hfull] at hc
    rcases List.mem_append.mp hc with hc | hc
    · exact halnum c hc
    · exact toDigits_isAlphanum (by omega) (by omega) hc
  have hpart : ∀ n, n ≤ 12 → endsInWord ((full.drop n).take 4) = true := by
    intro n hn
    refine endsInWord_of_forall ?_ fun c hc => hfullalnum c (List.drop_subset _ _ (List.take_subset _ _ hc))
    intro hnil
    have := congrArg List.length hnil
    simp only [List.length_take, List.length_drop, List.length_nil] at this
    omega
  split
  · have h0 := hpart 0 (by omega)
    rw [List.drop_zero] at h0
    simp only [List.append_assoc, List.singleton_append]
    refine worded_of_words h0 (space_not_mem fun c hc => hfullalnum c (List.take_subset _ _ hc)) ?_
    exact endsInWord_append _ (endsInWord_append [' '] (endsInWord_append _ (endsInWord_append [' '] (hpart 12 le_rfl))))
  · refine worded_of_no_space (endsInWord_of_forall ?_ hfullalnum) (space_not_mem hfullalnum)
    rintro rfl
    simp at hfull13

private theorem secretPlaceholder_worded (original : Text) : Worded (secretPlaceholder original) := by
  unfold secretPlaceholder
  dsimp only
  split
  · have hpre : (numericSecretDomain original).1 ∈ ["10".toList, "89410294".toList, "9".toList] := by
      unfold numericSecretDomain
      generalize "10".toList = a, "89410294".toList = b, "9".toList = c
      dsimp only
      split_ifs <;> simp
    have hall : ∀ p ∈ ["10".toList, "89410294".toList, "9".toList], p ≠ [] ∧ p.all Char.isAlphanum = true := by decide
    obtain ⟨hne, halnum⟩ := hall _ hpre
    rw [List.all_eq_true] at halnum
    have hchars : ∀ c ∈ (numericSecretDomain original).1 ++
        ((decimal (fnv1aHash original)).drop ((decimal (fnv1aHash original)).length -
          (numericSecretDomain original).2)).leftpad (numericSecretDomain original).2 '0', c.isAlphanum = true := by
      intro c hc
      rcases List.mem_append.mp hc with hc | hc
      · exact halnum c hc
      · unfold List.leftpad at hc
        rcases List.mem_append.mp hc with hc | hc
        · rw [List.eq_of_mem_replicate hc]
          decide
        · exact toDigits_isAlphanum (by omega) (by omega) (List.drop_subset _ _ hc)
    exact worded_of_no_space (endsInWord_of_forall (by simp [hne]) hchars) (space_not_mem hchars)
  · have hall : ∀ p ∈ "sec_".toList :: secretPrefixMap.map (·.2),
        p.contains ' ' = true → endsInWord (firstWord p) = true := by decide
    refine worded_append (fun h => hall _ (secretPrefix_mem original) (by simpa using h)) ?_ ?_
    · exact endsInWord_leftpad (endsInWord_toDigits (by omega) (by omega))
    · exact space_not_mem_leftpad (space_not_mem fun _ hc => toDigits_isAlphanum (by omega) (by omega) hc)

theorem generatePlaceholder_worded (entity : PiiEntity) (c : Nat) (original : Text) :
    Worded (generatePlaceholder entity c original).1 := by
  cases entity with
  | email => exact emailPlaceholder_worded c
  | phone => exact (phonePlaceholder_worded c).1
  | ip => exact ipPlaceholder_worded c original
  | creditCard => exact generateFakeCreditCard_worded c _
  | secret => exact secretPlaceholder_worded original
  | person =>
    obtain ⟨first, hfirst, last, hlast, h⟩ := genName_eq (skipOwnName original 2 c)
    have hf : ∀ n ∈ personFirstNames, endsInWord n = true ∧ ' ' ∉ n := by decide
    have hl : ∀ n ∈ personLastNames, endsInWord n = true := by decide
    simp only [generatePlaceholder, h]
    exact worded_of_words (hf first hfirst).1 (hf first hfirst).2 (hl last hlast)

/-! ### Addresses -/

section Addresses

open Net

private theorem takeWhile_digits {p : Char → Bool} {ds z : Text} (hds : ∀ c ∈ ds, p c = true) (hz : z.head?.all (!p ·) = true) :
    (ds ++ z).takeWhile p = ds := by
  rw [List.takeWhile_append_of_pos hds]
  cases z with
  | nil => simp
  | cons c z =>
    have hc : p c = false := by simpa using hz
    simp [hc]

private theorem toDigit_isSome {c : Char} (h : c.isDigit = true) : (toDigit 10 c).isSome = true ∧ (toDigit 16 c).isSome = true := by
  have h9 : c.toNat - '0'.toNat < 10 := by
    have e : '9'.val.toNat = 57 := by decide
    simp only [Char.isDigit, Bool.and_eq_true, decide_eq_true_eq, ge_iff_le, UInt32.le_iff_toNat_le] at h
    show c.val.toNat - 48 < 10
    omega
  simp only [toDigit, h, ↓reduceIte, Option.filter_some, h9, decide_true, Option.isSome_some, true_and]
  rw [if_pos (by simpa using lt_trans h9 (by omega))]
  rfl

/-- The number that hexadecimal digits denote. -/
private def ofHex (ds : Text) : Nat := ds.foldl (fun n c => 16 * n + (toDigit 16 c).getD 0) 0

private theorem readNumber_hex {ds z : Text} (hds : ds.all Char.isDigit = true) (hz : z = [] ∨ ∃ z', z = '_' :: z') :
    readNumber 16 4 0xffff true (ds ++ z) = none ∨ readNumber 16 4 0xffff true (ds ++ z) = some (ofHex ds, z) := by
  have htake : (ds ++ z).takeWhile (fun c => (toDigit 16 c).isSome) = ds := by
    refine takeWhile_digits (fun c hc => (toDigit_isSome (List.all_eq_true.mp hds c hc)).2) ?_
    rcases hz with rfl | ⟨z', rfl⟩
    · rfl
    · rfl
  unfold readNumber
  simp only [htake]
  split
  · exact Or.inl rfl
  · exact Or.inr (by rw [List.drop_left]; rfl)

private theorem readIpv4Addr_eq_none {ds z : Text} (hds : ds.all Char.isDigit = true)
    (hz : z = [] ∨ ∃ z', z = '_' :: z') : readIpv4Addr (ds ++ z) = none := by
  have htake : (ds ++ z).takeWhile (fun c => (toDigit 10 c).isSome) = ds := by
    refine takeWhile_digits (fun c hc => (toDigit_isSome (List.all_eq_true.mp hds c hc)).1) ?_
    rcases hz with rfl | ⟨z', rfl⟩
    · rfl
    · rfl
  unfold readIpv4Addr readOctets readSeparator readNumber
  simp only [htake, ↓reduceIte]
  split
  · rfl
  · rw [List.drop_left]
    rcases hz with rfl | ⟨z', rfl⟩
    · rfl
    · rfl

/-- The last part of an address is its last group, if nothing follows it. -/
private theorem readGroups_digits {ds z : Text} (hds : ds.all Char.isDigit = true) (hz : z = [] ∨ ∃ z', z = '_' :: z') :
    readGroups true 4 (ds ++ z) = ([], false, ds ++ z) ∨ readGroups true 4 (ds ++ z) = ([ofHex ds], false, z) := by
  have hrest : readGroups false 3 z = ([], false, z) := by
    rcases hz with rfl | ⟨z', rfl⟩
    · rfl
    · rfl
  unfold readGroups readSeparator
  simp only [readIpv4Addr_eq_none hds hz, ↓reduceIte, ite_self]
  rcases readNumber_hex hds hz with h | h
  · simp [h]
  · simp [h, hrest]

private theorem parseIpv6Addr_generated {ds z : Text} {segments : List Nat} (hds : ds.all Char.isDigit = true)
    (hne : ds ≠ []) (hz : z = [] ∨ ∃ z', z = '_' :: z')
    (h : parseIpv6Addr ("fd00:10:240::".toList ++ (ds ++ z)) = some segments) :
    segments = [0xfd00, 0x10, 0x240, 0, 0, 0, 0, ofHex ds] := by
  have hhead : readGroups true 8 ("fd00:10:240::".toList ++ (ds ++ z)) =
      ([0xfd00, 0x10, 0x240], false, ':' :: ':' :: (ds ++ z)) := rfl
  unfold parseIpv6Addr readIpv6Addr at h
  simp only [hhead, List.length_cons, List.length_nil, Nat.reduceAdd, Nat.reduceEqDiff, ↓reduceIte, Bool.false_eq_true,
    Nat.reduceSub, Option.bind_some] at h
  rcases readGroups_digits hds hz with hg | hg
  · simp [hg, hne] at h
  · simp only [hg, List.length_cons, List.length_nil, Nat.zero_add, Nat.reduceSub] at h
    split at h
    · simpa using h.symm
    · simp at h

private theorem ofHex_decimal_pos {n : Nat} (h : 0 < n) : 0 < ofHex (decimal n) := by
  have hall : ∀ k : Fin 10, (toDigit 16 k.val.digitChar).getD 0 = k.val := by decide
  unfold decimal
  induction n using Nat.strong_induction_on with
  | _ n ih =>
    rw [Nat.toDigits_eq_if (by omega)]
    split
    · rename_i hn
      have := hall ⟨n, hn⟩
      simp only [ofHex, List.foldl_cons, List.foldl_nil] at this ⊢
      omega
    · rename_i hn
      have := ih (n / 10) (by omega) (by omega)
      simp only [ofHex, List.foldl_append, List.foldl_cons, List.foldl_nil] at this ⊢
      omega

theorem ipv6ToString_generated {v : Nat} (hv : 0 < v) :
    endsInWord (ipv6ToString [0xfd00, 0x10, 0x240, 0, 0, 0, 0, v]) = true := by
  have hzeroes : longestZeroes 0 (0, 0) (0, 0) [0xfd00, 0x10, 0x240, 0, 0, 0, 0, v] = (3, 4) := by
    have : ¬ v = 0 := by omega
    simp [longestZeroes, this]
  have htext : ipv6ToString [0xfd00, 0x10, 0x240, 0, 0, 0, 0, v] = "fd00:10:240::".toList ++ hex v := by
    have hfront : joinColon ([0xfd00, 0x10, 0x240].map hex) = "fd00:10:240".toList := by decide
    unfold ipv6ToString
    simp only [hzeroes, Nat.reduceGT, ↓reduceIte, List.take_succ_cons, List.take_zero, List.drop_succ_cons, List.drop_zero,
      Nat.reduceAdd, hfront]
    simp [joinColon, List.intercalate]
  rw [htext]
  exact endsInWord_append _ (endsInWord_toDigits (by omega) (by omega))

/-- An address of version 4 is not read as one of version 6. -/
private theorem parseIpv6Addr_ipv4 (w : Text) : parseIpv6Addr ("10.240.".toList ++ w) = none := by
  have hgroups : readGroups true 8 ("10.240.".toList ++ w) = ([16], false, '.' :: '2' :: '4' :: '0' :: '.' :: w) ∨
      ∃ a b rest, readGroups true 8 ("10.240.".toList ++ w) = ([a, b], true, rest) := by
    rw [readGroups, if_pos (by omega)]
    cases readSeparator ':' true readIpv4Addr ("10.240.".toList ++ w) with
    | none => exact Or.inl rfl
    | some x => exact Or.inr ⟨_, _, _, rfl⟩
  unfold parseIpv6Addr readIpv6Addr
  rcases hgroups with h | ⟨a, b, rest, h⟩
  · rw [h]
    rfl
  · rw [h]
    rfl

/-- If the text is an address of version 6, its usual spelling ends in a digit. -/
def IpSpelled (s : Text) : Prop :=
  ∀ segments, parseIpv6Addr s = some segments → endsInWord (ipv6ToString segments) = true

theorem ipPlaceholder_spelled {c : Nat} (hc : 0 < c) (original : Text) {z : Text} (hz : z = [] ∨ ∃ z', z = '_' :: z') :
    IpSpelled (ipPlaceholder c original ++ z) := by
  intro segments h
  unfold ipPlaceholder at h
  split at h
  · have hds : (decimal c).all Char.isDigit = true := List.all_eq_true.mpr fun _ hd => isDigit_of_mem_decimal hd
    rw [List.append_assoc] at h
    rw [parseIpv6Addr_generated hds (toDigits_ne_nil (by omega)) hz h]
    exact ipv6ToString_generated (ofHex_decimal_pos hc)
  · simp only [List.append_assoc] at h
    rw [parseIpv6Addr_ipv4] at h
    simp at h

end Addresses

/-! ### The session -/

namespace PiiSession

/-- The invariant of a session: its pseudonyms are worded, what it restores ends in a word, and the pseudonyms of phone
numbers and addresses have spellings that do. -/
structure WellSpelled (s : PiiSession) : Prop where
  forward : ∀ o ph, s.forward.lookup o = some ph → Worded ph
  reverse : ∀ ph o, s.reverse.lookup ph = some o → endsInWord ph = true
  phone : ∀ ph, s.placeholderEntities.lookup ph = some .phone → ∃ d ∈ ph, d.isDigit = true
  ip : ∀ ph, s.placeholderEntities.lookup ph = some .ip → IpSpelled ph

theorem new_wellSpelled (reversible : Bool) : (new reversible).WellSpelled := by
  constructor <;> simp [new]

/-- The pseudonym that is used has the shape of the one that was generated. -/
private theorem resolveCollision_worded {s : PiiSession} {original placeholder result : Text}
    (h : s.resolveCollision original placeholder = some result) (hw : Worded placeholder) : Worded result := by
  obtain ⟨-, -, ⟨-, hdigits, hlen⟩ | ⟨-, rfl | ⟨k, rfl⟩⟩⟩ := resolveCollision_spec h
  · have hne : result ≠ [] := by
      rintro rfl
      have hnil : placeholder = [] := List.eq_nil_of_length_eq_zero hlen.symm
      rw [hnil] at hw
      exact absurd hw.1 (by decide)
    exact worded_of_no_space (endsInWord_of_digits hne hdigits)
      (space_not_mem fun c hc => isAlphanum_of_isDigit (List.all_eq_true.mp hdigits c hc))
  · exact hw
  · refine worded_append (fun _ => hw.2) (endsInWord_append ['_'] (endsInWord_decimal k)) ?_
    rw [List.mem_cons, not_or]
    exact ⟨by decide, space_not_mem fun _ hc => toDigits_isAlphanum (by omega) (by omega) hc⟩

/-- A pseudonym that is not a number is used with or without a suffix. -/
private theorem resolveCollision_suffix {s : PiiSession} {original placeholder result : Text}
    (h : s.resolveCollision original placeholder = some result) (hc : ∃ c ∈ placeholder, c.isDigit = false) :
    ∃ z, result = placeholder ++ z ∧ (z = [] ∨ ∃ z', z = '_' :: z') := by
  obtain ⟨c, hmem, hc⟩ := hc
  obtain ⟨-, -, ⟨hd, -, -⟩ | ⟨-, rfl | ⟨k, rfl⟩⟩⟩ := resolveCollision_spec h
  · rw [List.all_eq_true.mp hd c hmem] at hc
    exact absurd hc (by simp)
  · exact ⟨[], by simp, Or.inl rfl⟩
  · exact ⟨_, rfl, Or.inr ⟨_, rfl⟩⟩

theorem WellSpelled.registerPersonAlias {s : PiiSession} (h : s.WellSpelled) {aliasPh : Text} (original : Text)
    (ha : endsInWord aliasPh = true) : (s.registerPersonAlias aliasPh original).WellSpelled := by
  have hinsert : ∀ ph o, (s.reverse.insert aliasPh original).lookup ph = some o → endsInWord ph = true := by
    intro ph o hph
    rw [Table.lookup_insert_eq] at hph
    split at hph
    · rename_i heq
      rw [heq]
      exact ha
    · exact h.reverse ph o hph
  unfold PiiSession.registerPersonAlias
  split
  · exact h
  · split
    · dsimp only
      split
      · exact ⟨h.forward, hinsert, h.phone, h.ip⟩
      · refine ⟨h.forward, ?_, h.phone, h.ip⟩
        intro ph o hph
        by_cases heq : ph = aliasPh
        · rw [heq]
          exact ha
        · rw [AList.lookup_erase_ne heq] at hph
          exact h.reverse ph o hph
    · exact ⟨h.forward, hinsert, h.phone, h.ip⟩

theorem WellSpelled.registerNameParts {s : PiiSession} (h : s.WellSpelled) {ph : Text} (original : Text)
    (hw : Worded ph) : (s.registerNameParts ph original).WellSpelled := by
  unfold PiiSession.registerNameParts
  split
  · exact h
  · rename_i first last hsplit
    obtain ⟨hfirst, hlast⟩ := hw.splitOnce hsplit
    exact (h.registerPersonAlias _ hfirst).registerPersonAlias _ hlast

/-- An original gets a pseudonym. -/
theorem WellSpelled.insert {s s' : PiiSession} (h : s.WellSpelled) {original ph : Text} (hw : Worded ph)
    (hf : s'.forward = s.forward.insert original ph)
    (hr : s'.reverse = s.reverse ∨ s'.reverse = s.reverse.insert ph original)
    (hphone : ∀ p, s'.placeholderEntities.lookup p = some .phone → ∃ d ∈ p, d.isDigit = true)
    (hip : ∀ p, s'.placeholderEntities.lookup p = some .ip → IpSpelled p) : s'.WellSpelled where
  forward := by
    intro o p hp
    rw [hf, Table.lookup_insert_eq] at hp
    split at hp
    · cases hp
      exact hw
    · exact h.forward o p hp
  reverse := by
    intro p o hp
    rcases hr with hr | hr
    · rw [hr] at hp
      exact h.reverse p o hp
    · rw [hr, Table.lookup_insert_eq] at hp
      split at hp
      · rename_i heq
        rw [heq]
        exact hw.1
      · exact h.reverse p o hp
  phone := hphone
  ip := hip

theorem WellSpelled.call {u : CharTables} {s s' : PiiSession} (h : s.WellSpelled) {c : Call}
    (hcall : s.call u c = some s') : s'.WellSpelled := by
  cases c with
  | seedExistingPlaceholders text =>
    obtain ⟨counts, hcounts⟩ := seedExistingPlaceholders_eq s text
    simp only [PiiSession.call, Option.some.injEq, hcounts] at hcall
    subst hcall
    exact ⟨h.forward, h.reverse, h.phone, h.ip⟩
  | getOrCreatePlaceholder entity original order =>
    simp only [PiiSession.call, Option.map_eq_some_iff] at hcall
    obtain ⟨⟨ph, s₁⟩, hcall, rfl⟩ := hcall
    rcases getOrCreatePlaceholder_cases hcall with ⟨-, rfl⟩ | ⟨-, -, key, hkey, rfl⟩ |
      ⟨-, c, hc, s₂, hs₂, hres, s₃, hs₃, rfl⟩
    · exact h
    · have hw := h.forward key ph (findCaseVariant_spec hkey).1
      unfold shareCaseVariant
      dsimp only
      split
      · exact (h.insert hw rfl (Or.inr rfl) h.phone h.ip : WellSpelled { s with
          forward := s.forward.insert original ph, reverse := s.reverse.insert ph original }).registerNameParts _ hw
      · exact h.insert hw rfl (Or.inl rfl) h.phone h.ip
    · have hw := resolveCollision_worded hres (generatePlaceholder_worded entity c original)
      have hentities : ∀ p e, s₃.placeholderEntities.lookup p = some e →
          (p = ph ∧ e = entity) ∨ s.placeholderEntities.lookup p = some e := by
        intro p e hp
        rw [hs₃] at hp
        simp only [Table.lookup_insert_eq] at hp
        split at hp
        · rename_i heq
          exact Or.inl ⟨heq, (Option.some.inj hp).symm⟩
        · exact Or.inr hp
      have h₃ : s₃.WellSpelled := by
        subst hs₂ hs₃
        refine h.insert hw rfl (Or.inr rfl) ?_ ?_
        · intro p hp
          rcases hentities p .phone hp with ⟨rfl, rfl⟩ | hp
          · obtain ⟨z, rfl, -⟩ := resolveCollision_suffix hres ⟨'+', by
              simp only [generatePlaceholder, phonePlaceholder]
              split <;> simp, by decide⟩
            exact ⟨'1', List.mem_append_left _ (phonePlaceholder_worded c).2, by decide⟩
          · exact h.phone p hp
        · intro p hp
          rcases hentities p .ip hp with ⟨rfl, rfl⟩ | hp
          · obtain ⟨z, rfl, hz⟩ := resolveCollision_suffix hres (by
              simp only [generatePlaceholder, ipPlaceholder]
              split
              · exact ⟨':', by simp, by decide⟩
              · exact ⟨'.', by simp, by decide⟩)
            exact ipPlaceholder_spelled hc original hz
          · exact h.ip p hp
      split
      · exact h₃.registerNameParts _ hw
      · exact h₃

theorem WellSpelled.runFrom {u : CharTables} {calls : List Call} {s s' : PiiSession}
    {registered registered' : Table Text PiiEntity} (h : s.WellSpelled)
    (hrun : s.runFrom u registered calls = some (s', registered')) : s'.WellSpelled := by
  induction calls generalizing s registered with
  | nil =>
    simp only [PiiSession.runFrom, Option.some.injEq, Prod.mk.injEq] at hrun
    rw [← hrun.1]
    exact h
  | cons c calls ih =>
    simp only [PiiSession.runFrom, Option.bind_eq_some_iff] at hrun
    obtain ⟨s₁, hcall, hrun⟩ := hrun
    exact ih (h.call hcall) hrun

end PiiSession

end OpenProxy.Pii
