import OpenProxy.Pii.NumericDomain
import OpenProxy.Pii.Reversible

/-!
# Pseudonyms that a text already has

After `seedExistingPlaceholders` an address that a session generates does not occur in the text, as long as its counter has
not come to its end: the loops read back, from every occurrence of an address, a number that is at least the one from which
it was generated.
-/

namespace OpenProxy.Pii

/-! ### Numbers -/

theorem ofDecimal_decimal (n : Nat) : ofDecimal (decimal n) = n := by
  have h : ofDecimal (decimal n) = Nat.ofDigitChars 10 (Nat.toDigits 10 n) 0 := by
    rw [Nat.ofDigitChars_eq_foldl]
    rfl
  rw [h]
  simp

/-- More digits make a number that is at least as large. -/
theorem ofDecimal_le_append (s t : Text) : ofDecimal s ≤ ofDecimal (s ++ t) := by
  unfold ofDecimal
  rw [List.foldl_append]
  generalize s.foldl (fun n c => 10 * n + digitValue c) 0 = n
  induction t generalizing n with
  | nil => exact le_rfl
  | cons c t ih =>
    rw [List.foldl_cons]
    have := ih (10 * n + digitValue c)
    omega

theorem all_isDigit_decimal (n : Nat) : (decimal n).all Char.isDigit = true := by
  rw [List.all_eq_true]
  exact fun c hc => isDigit_of_mem_decimal hc

theorem decimal_ne_nil (n : Nat) : decimal n ≠ [] := Nat.toDigits_ne_nil

theorem parseUsize_of_digits {s : Text} (hne : s ≠ []) (hdigits : s.all Char.isDigit = true)
    (hle : ofDecimal s ≤ usizeMax) : parseUsize s = some (ofDecimal s) := by
  cases s with
  | nil => exact absurd rfl hne
  | cons c s =>
    have hplus : c ≠ '+' := by
      rintro rfl
      rw [List.all_cons, Bool.and_eq_true] at hdigits
      exact absurd hdigits.1 (by decide)
    rw [List.all_cons, Bool.and_eq_true] at hdigits
    have hread : c.isDigit = true ∧ (∀ d ∈ s, d.isDigit = true) ∧ ofDecimal (c :: s) ≤ usizeMax :=
      ⟨hdigits.1, List.all_eq_true.mp hdigits.2, hle⟩
    simpa [parseUsize, hplus] using hread

theorem parseUsize_decimal {n : Nat} (h : n ≤ usizeMax) : parseUsize (decimal n) = some n := by
  rw [parseUsize_of_digits (decimal_ne_nil n) (all_isDigit_decimal n) (by rwa [ofDecimal_decimal]), ofDecimal_decimal]

/-- The digits in front of a text that begins with digits. -/
theorem takeWhile_isDigit {s : Text} (hdigits : s.all Char.isDigit = true) (t : Text) :
    (s ++ t).takeWhile Char.isDigit = s ++ t.takeWhile Char.isDigit :=
  List.takeWhile_append_of_pos fun c hc => List.all_eq_true.mp hdigits c hc

namespace PiiSession

/-! ### The loops -/

/-- No end of the text is a beginning of it, so that its occurrences do not overlap. -/
def Solid (needle : Text) : Prop := ∀ k < needle.length, 0 < k → ¬ needle.drop k <+: needle

instance (needle : Text) : Decidable (Solid needle) := inferInstanceAs (Decidable (∀ _ < _, _))

/-- Two occurrences of a solid text are apart. -/
theorem Solid.apart {needle text : Text} (h : Solid needle) {p q : Nat} (hp : needle <+: text.drop p)
    (hq : needle <+: text.drop q) (hpq : p < q) : p + needle.length ≤ q := by
  by_contra hlt
  refine h (q - p) (by omega) (by omega) ?_
  obtain ⟨rest, hrest⟩ := hp
  have hdrop : needle.drop (q - p) ++ rest = text.drop q := by
    rw [← List.drop_append_of_le_length (by omega), hrest, List.drop_drop]
    congr 1
    omega
  exact List.prefix_of_prefix_length_le ⟨rest, hdrop⟩ hq (by rw [List.length_drop]; omega)

/-- The first occurrence is before every occurrence. -/
theorem find_le {text needle : Text} {n : Nat} (h : needle <+: text.drop n) (hn : n ≤ text.length) :
    ∃ m ≤ n, find text needle = some m ∧ needle <+: text.drop m := by
  cases hfind : find text needle with
  | none =>
    have hnone := firstAt_eq_none.mp hfind n hn
    rw [List.isPrefixOf_iff_prefix.mpr h] at hnone
    cases hnone
  | some m =>
    obtain ⟨-, hm, hbefore⟩ := firstAt_eq_some.mp hfind
    refine ⟨m, ?_, rfl, List.isPrefixOf_iff_prefix.mp hm⟩
    by_contra hlt
    have hnone := hbefore n (by omega)
    rw [List.isPrefixOf_iff_prefix.mpr h] at hnone
    cases hnone

/-- A loop that goes on behind the needle finds the number of every occurrence. -/
theorem mem_seedLoop {needle : Text} (hsolid : Solid needle) (hne : needle ≠ [])
    {read : Text → Text → Option (Option Nat × Nat)} (hread : ∀ before after, ∃ n, read before after = some (n, 0))
    {before after : Text} {n : Nat} (hn : read before after = some (some n, 0)) :
    n ∈ seedLoop needle read (before ++ (needle ++ after)) ((before ++ (needle ++ after)).length + 1) 0 := by
  generalize htext : before ++ (needle ++ after) = text
  have hlen := congrArg List.length htext
  have hpos := List.length_pos_iff.mpr hne
  rw [List.length_append, List.length_append] at hlen
  have hoccurs : needle <+: text.drop before.length := by
    rw [← htext, List.drop_left]
    exact List.prefix_append _ _
  -- From any offset up to the occurrence, with enough turns left.
  have hfrom : ∀ fuel curr, curr ≤ before.length → text.length < curr + fuel → n ∈ seedLoop needle read text fuel curr := by
    intro fuel
    induction fuel with
    | zero =>
      intro curr hcurr hfuel
      omega
    | succ fuel ih =>
      intro curr hcurr hfuel
      have hrel : needle <+: (text.drop curr).drop (before.length - curr) := by
        rw [List.drop_drop, show curr + (before.length - curr) = before.length by omega]
        exact hoccurs
      obtain ⟨rel, hle, hfind, hocc⟩ := find_le hrel (by rw [List.length_drop]; omega)
      rw [List.drop_drop] at hocc
      obtain ⟨m, hm⟩ := hread (text.take (curr + rel)) (text.drop (curr + rel + needle.length))
      rw [seedLoop, hfind]
      dsimp only
      rw [hm]
      dsimp only
      rw [List.mem_append]
      by_cases heq : curr + rel = before.length
      · have hbefore : text.take before.length = before := by
          rw [← htext, List.take_left]
        have hafter : text.drop (before.length + needle.length) = after := by
          rw [← htext, ← List.drop_drop, List.drop_left, List.drop_left]
        rw [heq, hbefore, hafter, hn] at hm
        rw [← (Prod.mk.inj (Option.some.inj hm)).1]
        exact Or.inl (List.mem_singleton.mpr rfl)
      · have hapart := hsolid.apart hocc hoccurs (by omega)
        exact Or.inr (ih _ (by omega) (by omega))
  exact hfrom _ 0 (Nat.zero_le _) (by omega)

/-! ### The counters -/

/-- The counter of an entity. -/
def count (s : PiiSession) (entity : PiiEntity) : Nat := (s.counts.lookup entity).getD 0

theorem count_raise (s : PiiSession) (entity entity' : PiiEntity) (n : Nat) :
    count { s with counts := s.counts.insert entity (max ((s.counts.lookup entity).getD 0) n) } entity' =
      if entity' = entity then max (s.count entity) n else s.count entity' := by
  unfold count
  dsimp only
  rw [Table.lookup_insert_eq]
  split <;> rfl

/-- No counter is lowered. -/
theorem count_le_raiseCount (s : PiiSession) (entity entity' : PiiEntity) (numbers : List Nat) :
    s.count entity' ≤ (s.raiseCount entity numbers).count entity' := by
  induction numbers generalizing s with
  | nil => exact le_rfl
  | cons n numbers ih =>
    refine le_trans ?_ (ih _)
    rw [count_raise]
    split
    · rename_i heq
      rw [heq]
      exact Nat.le_max_left _ _
    · exact le_rfl

theorem le_count_raiseCount (s : PiiSession) (entity : PiiEntity) {numbers : List Nat} {n : Nat} (h : n ∈ numbers) :
    n ≤ (s.raiseCount entity numbers).count entity := by
  induction numbers generalizing s with
  | nil => cases h
  | cons m numbers ih =>
    rcases List.mem_cons.mp h with rfl | h
    · refine le_trans ?_ (count_le_raiseCount _ entity entity numbers)
      rw [count_raise, if_pos rfl]
      exact Nat.le_max_right _ _
    · exact ih _ h

theorem count_le_seed (s : PiiSession) (entity entity' : PiiEntity) (needle : Text)
    (read : Text → Text → Option (Option Nat × Nat)) (text : Text) :
    s.count entity' ≤ (s.seed entity needle read text).count entity' := count_le_raiseCount _ _ _ _

/-- A number that a loop finds. -/
theorem le_count_seed (s : PiiSession) (entity : PiiEntity) {needle : Text}
    {read : Text → Text → Option (Option Nat × Nat)} {text : Text} {n : Nat}
    (h : n ∈ seedLoop needle read text (text.length + 1) 0) : n ≤ (s.seed entity needle read text).count entity :=
  le_count_raiseCount _ _ h

/-- The loops that come after the one for addresses. -/
def seedSecrets (s : PiiSession) (text : Text) : PiiSession :=
  (["sec_".toList, "sk-proj-".toList, "sk-".toList, "op_live_".toList, "op_test_".toList].foldl
    (fun s secPrefix => s.seed .secret secPrefix readSecret text) s).seed .secret "89410294".toList readNumericSecret text

theorem count_le_seedSecrets (s : PiiSession) (text : Text) (entity : PiiEntity) :
    s.count entity ≤ (s.seedSecrets text).count entity := by
  have hfold : ∀ (prefixes : List Text) (s : PiiSession), s.count entity ≤
      (prefixes.foldl (fun s secPrefix => s.seed .secret secPrefix readSecret text) s).count entity := by
    intro prefixes
    induction prefixes with
    | nil => exact fun s => le_rfl
    | cons secPrefix prefixes ih => exact fun s => le_trans (count_le_seed s _ _ _ _ _) (ih _)
  exact le_trans (hfold _ s) (count_le_seed _ _ _ _ _ _)

/-- The loops for addresses, between those before and those after them. -/
theorem seedExistingPlaceholders_addresses (s : PiiSession) {text : Text} (h : text ≠ []) :
    ∃ s₀ : PiiSession, s.seedExistingPlaceholders text =
      ((((s₀.seed .email "@outlook.com".toList readEmail text).seed .email "@fastmail.com".toList readEmail text).seed
        .ip "10.240.".toList readIp text).seedSecrets text) := by
  unfold seedExistingPlaceholders
  rw [if_neg (by rw [List.isEmpty_iff]; exact h)]
  exact ⟨_, rfl⟩

/-- A number that the loops for e-mail addresses find. -/
theorem le_count_email (s : PiiSession) {text : Text} (hne : text ≠ []) {domain : Text}
    (hdomain : domain = "@outlook.com".toList ∨ domain = "@fastmail.com".toList) {n : Nat}
    (h : n ∈ seedLoop domain readEmail text (text.length + 1) 0) : n ≤ (s.seedExistingPlaceholders text).count .email := by
  obtain ⟨s₀, heq⟩ := s.seedExistingPlaceholders_addresses hne
  rw [heq]
  refine le_trans ?_ (count_le_seedSecrets _ text .email)
  refine le_trans ?_ (count_le_seed _ .ip .email _ _ text)
  rcases hdomain with rfl | rfl
  · exact le_trans (le_count_seed s₀ .email h) (count_le_seed _ .email .email _ _ text)
  · exact le_count_seed _ .email h

/-- A number that the loop for network addresses finds. -/
theorem le_count_ip (s : PiiSession) {text : Text} (hne : text ≠ []) {n : Nat}
    (h : n ∈ seedLoop "10.240.".toList readIp text (text.length + 1) 0) :
    n ≤ (s.seedExistingPlaceholders text).count .ip := by
  obtain ⟨s₀, heq⟩ := s.seedExistingPlaceholders_addresses hne
  rw [heq]
  exact le_trans (le_count_seed _ .ip h) (count_le_seedSecrets _ text .ip)

/-! ### What the loops read of an address -/

/-- A text that ends in a character other than a digit. -/
def EndsInLetter (s : Text) : Prop := ∃ first last, s = first ++ [last] ∧ last.isDigit = false

theorem emailPlaceholder_eq (c : Nat) :
    ∃ name domain, emailPlaceholder c = name ++ (decimal c ++ domain) ∧ EndsInLetter name ∧
      (domain = "@outlook.com".toList ∨ domain = "@fastmail.com".toList) := by
  have hnames : ∀ name ∈ emailFirstNames, name = name.dropLast ++ [name.getLastD 'x'] ∧
      (name.getLastD 'x').isDigit = false := by decide
  have hmem : emailFirstNames.getD ((c - 1) % emailFirstNames.length) [] ∈ emailFirstNames := getD_mod_mem _ _ (by decide)
  obtain ⟨hname, hlast⟩ := hnames _ hmem
  unfold emailPlaceholder
  by_cases heven : c % 2 = 0
  · refine ⟨_, "@outlook.com".toList, ?_, ⟨_, _, hname, hlast⟩, Or.inl rfl⟩
    rw [if_pos heven, List.append_assoc, List.append_assoc]
    rfl
  · refine ⟨_, "@fastmail.com".toList, ?_, ⟨_, _, hname, hlast⟩, Or.inr rfl⟩
    rw [if_neg heven, List.append_assoc, List.append_assoc]
    rfl

theorem readEmail_decimal {name : Text} (hname : EndsInLetter name) (before after : Text) {c : Nat} (hc : c ≤ usizeMax) :
    readEmail (before ++ (name ++ decimal c)) after = some (some c, 0) := by
  obtain ⟨first, last, rfl, hlast⟩ := hname
  have hdigits : ((decimal c).reverse).all Char.isDigit = true := by
    rw [List.all_reverse]
    exact all_isDigit_decimal c
  have hstop : (last :: (first.reverse ++ before.reverse)).takeWhile Char.isDigit = [] :=
    List.takeWhile_cons_of_neg (by rw [hlast]; exact Bool.false_ne_true)
  have hreverse : (before ++ (first ++ [last] ++ decimal c)).reverse =
      (decimal c).reverse ++ (last :: (first.reverse ++ before.reverse)) := by
    simp only [List.reverse_append, List.reverse_cons, List.nil_append, List.append_assoc,
      List.cons_append]
  unfold readEmail
  rw [hreverse, takeWhile_isDigit hdigits, hstop, List.append_nil, List.reverse_reverse]
  dsimp only
  rw [if_neg (by rw [List.isEmpty_iff]; exact decimal_ne_nil c), parseUsize_decimal hc]

/-- The digits that stand behind two parts of an address of the network are a number of the machine. -/
def AddressesFit (text : Text) : Prop :=
  ∀ before after, ∀ part < 254, text = before ++ ("10.240.".toList ++ (decimal part ++ '.' :: after)) →
    ofDecimal (after.takeWhile Char.isDigit) ≤ usizeMax

theorem readIp_decimal (before : Text) {part : Nat} (hpart : part < 254) {rest : Text}
    (hne : rest.takeWhile Char.isDigit ≠ []) (hfits : ofDecimal (rest.takeWhile Char.isDigit) ≤ usizeMax) :
    readIp before (decimal part ++ '.' :: rest) =
      some (some (min (min (part * 254) usizeMax + ofDecimal (rest.takeWhile Char.isDigit)) usizeMax), 0) := by
  have hdot : '.' ∉ decimal part := fun h => absurd (isDigit_of_mem_decimal h) (by decide)
  have hle : part ≤ usizeMax := by
    have : (254 : Nat) ≤ usizeMax := by decide
    omega
  have hdigits : (rest.takeWhile Char.isDigit).all Char.isDigit = true := List.all_takeWhile
  unfold readIp
  rw [splitOnce_append hdot, Option.bind_some, parseUsize_decimal hle, Option.bind_some,
    parseUsize_of_digits hne hdigits hfits, Option.map_some]

theorem ipPlaceholder_eq (c : Nat) {original : Text} (h : ':' ∉ original) :
    ipPlaceholder c original =
      "10.240.".toList ++ (decimal ((c - 1) / 254 % 254) ++ '.' :: decimal ((c - 1) % 254 + 1)) := by
  unfold ipPlaceholder
  rw [if_neg (by rw [List.contains_iff_mem]; exact h), List.append_assoc, List.append_assoc]
  rfl

/-! ### Freshness -/

/-- The e-mail address of a number above the counter is not in the text. -/
theorem emailPlaceholder_not_infix (s : PiiSession) (text : Text) {c : Nat} (hc : c ≤ usizeMax)
    (hcount : (s.seedExistingPlaceholders text).count .email < c) : ¬ emailPlaceholder c <:+: text := by
  rintro ⟨before, after, htext⟩
  obtain ⟨name, domain, heq, hname, hdomain⟩ := emailPlaceholder_eq c
  have hparts : text = (before ++ (name ++ decimal c)) ++ (domain ++ after) := by
    rw [← htext, heq]
    simp only [List.append_assoc]
  have hsolid : Solid domain ∧ domain ≠ [] := by
    rcases hdomain with rfl | rfl <;> decide
  have hread : ∀ before after, ∃ n, readEmail before after = some (n, 0) := fun _ _ => ⟨_, rfl⟩
  have hmem := mem_seedLoop hsolid.1 hsolid.2 hread (readEmail_decimal hname before after hc)
  rw [← hparts] at hmem
  have hne : text ≠ [] := by
    rw [hparts]
    simp [hsolid.2]
  have := s.le_count_email hne hdomain hmem
  omega

/-- The network address of a number above the counter is not in the text, as long as the addresses do not come again. -/
theorem ipPlaceholder_not_infix (s : PiiSession) {text original : Text} (ho : ':' ∉ original) {c : Nat} (hpos : 0 < c)
    (hc : c ≤ 254 * 254) (hfit : AddressesFit text) (hcount : (s.seedExistingPlaceholders text).count .ip < c) :
    ¬ ipPlaceholder c original <:+: text := by
  rintro ⟨before, after, htext⟩
  have hquot : (c - 1) / 254 < 254 := by omega
  rw [ipPlaceholder_eq c ho, Nat.mod_eq_of_lt hquot] at htext
  have hdivmod := Nat.div_add_mod (c - 1) 254
  generalize (c - 1) / 254 = part at htext hquot hdivmod
  generalize (c - 1) % 254 = host at htext hdivmod
  have hparts : text =
      before ++ ("10.240.".toList ++ (decimal part ++ '.' :: (decimal (host + 1) ++ after))) := by
    rw [← htext]
    simp only [List.append_assoc, List.cons_append]
  have hdigits : (decimal (host + 1) ++ after).takeWhile Char.isDigit =
      decimal (host + 1) ++ after.takeWhile Char.isDigit := takeWhile_isDigit (all_isDigit_decimal _) after
  have hfits := hfit before _ part hquot hparts
  have hle : host + 1 ≤ ofDecimal ((decimal (host + 1) ++ after).takeWhile Char.isDigit) := by
    rw [hdigits]
    have := ofDecimal_le_append (decimal (host + 1)) (after.takeWhile Char.isDigit)
    rwa [ofDecimal_decimal] at this
  have hrun : (decimal (host + 1) ++ after).takeWhile Char.isDigit ≠ [] := by
    rw [hdigits]
    exact fun h => decimal_ne_nil _ (List.append_eq_nil_iff.mp h).1
  have hread : ∀ before after, ∃ n, readIp before after = some (n, 0) := fun _ _ => ⟨_, rfl⟩
  have hsolid : Solid "10.240.".toList ∧ "10.240.".toList ≠ [] := by decide
  have hmem := mem_seedLoop hsolid.1 hsolid.2 hread (readIp_decimal before hquot hrun hfits)
  rw [← hparts] at hmem
  have hne : text ≠ [] := by
    rw [hparts]
    simp
  have hcounted := s.le_count_ip hne hmem
  have hmax : 254 * 254 ≤ usizeMax := by decide
  omega

/-- A new original other than a person or a secret gets what is generated for the next number, or that with a suffix. -/
theorem getOrCreatePlaceholder_extends (u : CharTables) (s : PiiSession) {entity : PiiEntity} {original : Text}
    (order : HashOrder) (hnew : s.forward.lookup original = none) (hentity : entity ≠ .person)
    (hsecret : entity ≠ .secret)
    (hdigits : (generatePlaceholder entity (min (s.count entity + 1) usizeMax) original).1.all Char.isDigit = false) :
    ∃ ph s', s.getOrCreatePlaceholder u entity original order = some (ph, s') ∧
      (generatePlaceholder entity (min (s.count entity + 1) usizeMax) original).1 <+: ph := by
  unfold getOrCreatePlaceholder
  unfold count at hdigits ⊢
  rw [hnew]
  dsimp only
  rw [if_neg hentity]
  dsimp only
  rw [if_neg fun h => hsecret h.1]
  generalize generatePlaceholder entity (min ((s.counts.lookup entity).getD 0 + 1) usizeMax) original = generated at hdigits ⊢
  generalize hs : ({ s with counts := s.counts.insert entity generated.2 } : PiiSession) = s₁
  have hsome : (s₁.resolveCollision original generated.1).isSome = true := by
    unfold resolveCollision
    rw [if_neg (by rw [hdigits]; exact Bool.false_ne_true)]
    split
    · exact probeSuffix_isSome _ _ _
    · rfl
  obtain ⟨ph, hph⟩ := Option.isSome_iff_exists.mp hsome
  have hextends : generated.1 <+: ph := by
    obtain ⟨-, -, ⟨hall, -⟩ | ⟨-, rfl | ⟨k, rfl⟩⟩⟩ := resolveCollision_spec hph
    · rw [hall] at hdigits
      cases hdigits
    · exact List.prefix_refl _
    · exact List.prefix_append _ _
  rw [hph]
  exact ⟨ph, _, rfl, hextends⟩

/-- After the pseudonyms of a text have been seeded, a call returns a pseudonym that does not occur in the text. -/
def Fresh (u : CharTables) (s : PiiSession) (text : Text) (entity : PiiEntity) (original : Text) (order : HashOrder) :
    Prop :=
  ∃ ph s', (s.seedExistingPlaceholders text).getOrCreatePlaceholder u entity original order = some (ph, s') ∧
    ¬ ph <:+: text

/-- After the pseudonyms of a text have been seeded, a person that is known in another case keeps its pseudonym. -/
def Shared (u : CharTables) (s : PiiSession) (text : Text) (original : Text) (order : HashOrder) : Prop :=
  ∃ key ph s', s.forward.lookup key = some ph ∧ eqIgnoreAsciiCase key original = true ∧
    (s.seedExistingPlaceholders text).getOrCreatePlaceholder u .person original order = some (ph, s')

theorem fresh_email {u : CharTables} {s : PiiSession} {text original : Text} {order : HashOrder}
    (hnew : s.forward.lookup original = none) (hcount : (s.seedExistingPlaceholders text).count .email < usizeMax) :
    s.Fresh u text .email original order := by
  obtain ⟨counts, hcounts⟩ := seedExistingPlaceholders_eq s text
  have hnew' : (s.seedExistingPlaceholders text).forward.lookup original = none := by
    rw [hcounts]
    exact hnew
  have hmin : min ((s.seedExistingPlaceholders text).count .email + 1) usizeMax =
      (s.seedExistingPlaceholders text).count .email + 1 := Nat.min_eq_left hcount
  have hat : ∀ c, (emailPlaceholder c).all Char.isDigit = false := by
    intro c
    obtain ⟨name, domain, heq, -, hdomain⟩ := emailPlaceholder_eq c
    rw [heq, List.all_append, List.all_append]
    rcases hdomain with rfl | rfl <;> simp
  obtain ⟨ph, s', hcall, hextends⟩ := getOrCreatePlaceholder_extends u (s.seedExistingPlaceholders text) order hnew'
    (by decide : PiiEntity.email ≠ .person) (by decide) (hat _)
  refine ⟨ph, s', hcall, fun hoccurs => ?_⟩
  rw [hmin] at hextends
  exact s.emailPlaceholder_not_infix text hcount (Nat.lt_succ_self _) (hextends.isInfix.trans hoccurs)

theorem fresh_ip {u : CharTables} {s : PiiSession} {text original : Text} {order : HashOrder}
    (hnew : s.forward.lookup original = none) (ho : ':' ∉ original) (hfit : AddressesFit text)
    (hcount : (s.seedExistingPlaceholders text).count .ip < 254 * 254) : s.Fresh u text .ip original order := by
  obtain ⟨counts, hcounts⟩ := seedExistingPlaceholders_eq s text
  have hnew' : (s.seedExistingPlaceholders text).forward.lookup original = none := by
    rw [hcounts]
    exact hnew
  have hmax : 254 * 254 ≤ usizeMax := by decide
  have hmin : min ((s.seedExistingPlaceholders text).count .ip + 1) usizeMax =
      (s.seedExistingPlaceholders text).count .ip + 1 := Nat.min_eq_left (by omega)
  have hdot : ∀ c, (ipPlaceholder c original).all Char.isDigit = false := by
    intro c
    rw [ipPlaceholder_eq c ho, List.all_append, List.all_append]
    simp
  obtain ⟨ph, s', hcall, hextends⟩ := getOrCreatePlaceholder_extends u (s.seedExistingPlaceholders text) order hnew'
    (by decide : PiiEntity.ip ≠ .person) (by decide) (hdot _)
  refine ⟨ph, s', hcall, fun hoccurs => ?_⟩
  rw [hmin] at hextends
  exact s.ipPlaceholder_not_infix ho (Nat.succ_pos _) (by omega) hfit (Nat.lt_succ_self _)
    (hextends.isInfix.trans hoccurs)

theorem shared {u : CharTables} {s : PiiSession} {text original : Text} {order : HashOrder}
    (hnew : s.forward.lookup original = none) {key : Text} (hkey : (s.forward.lookup key).isSome = true)
    (hcase : eqIgnoreAsciiCase key original = true) : s.Shared u text original order := by
  obtain ⟨counts, hcounts⟩ := seedExistingPlaceholders_eq s text
  have hfound : ((s.seedExistingPlaceholders text).findCaseVariant order original).isSome = true := by
    rw [hcounts]
    exact findCaseVariant_isSome.mpr ⟨key, hkey, hcase⟩
  obtain ⟨⟨found, ph⟩, hvariant⟩ := Option.isSome_iff_exists.mp hfound
  obtain ⟨hph, hsame⟩ := findCaseVariant_spec hvariant
  have hforward : (s.seedExistingPlaceholders text).forward = s.forward := by
    rw [hcounts]
  rw [hforward] at hph
  refine ⟨found, ph, (s.seedExistingPlaceholders text).shareCaseVariant u found ph original, hph,
    eqIgnoreAsciiCase_iff.mpr hsame, ?_⟩
  unfold getOrCreatePlaceholder
  rw [hforward, hnew, if_pos rfl, hvariant]

/-- What a session does with an original that is new to it, after the pseudonyms of a text have been seeded. -/
theorem fresh_after_seeding (u : CharTables) (s : PiiSession) (text original : Text) (order : HashOrder)
    (hnew : s.forward.lookup original = none) :
    ((s.seedExistingPlaceholders text).count .email < usizeMax → s.Fresh u text .email original order) ∧
      (':' ∉ original → AddressesFit text → (s.seedExistingPlaceholders text).count .ip < 254 * 254 →
        s.Fresh u text .ip original order) ∧
      ∀ key, (s.forward.lookup key).isSome = true → eqIgnoreAsciiCase key original = true →
        s.Shared u text original order :=
  ⟨fresh_email hnew, fresh_ip hnew, fun _ hkey hcase => shared hnew hkey hcase⟩

/-- A text of less than twenty characters has no number beyond those of the machine. -/
theorem addressesFit_of_length {text : Text} (h : text.length < 20) : AddressesFit text := by
  intro before after part _ htext
  have hlen := congrArg List.length htext
  have hrun : (after.takeWhile Char.isDigit).length ≤ after.length := (List.takeWhile_prefix _).length_le
  simp only [List.length_append, List.length_cons] at hlen
  have hdigits : ∀ d ∈ (after.takeWhile Char.isDigit).reverse, d.isDigit = true := by
    intro d hd
    exact List.all_eq_true.mp List.all_takeWhile d (List.mem_reverse.mp hd)
  have hlt := rank_lt hdigits
  rw [rank_reverse, List.length_reverse] at hlt
  have hpow : 10 ^ (after.takeWhile Char.isDigit).length ≤ 10 ^ 19 := Nat.pow_le_pow_right (by decide) (by omega)
  have hmax : 10 ^ 19 ≤ usizeMax := by decide
  omega

/-- The call for a person in small letters. -/
def smallLettersCalls : List Call := [.getOrCreatePlaceholder .person "bob jones".toList .latestFirst]

theorem fresh_after_seeding_bob :
    ∃ s registered, run .ascii true smallLettersCalls = some (s, registered) ∧
      s.Fresh .ascii "ask 10.240.0.1".toList .email "Bob Jones".toList .latestFirst ∧
      s.Fresh .ascii "ask 10.240.0.1".toList .ip "Bob Jones".toList .latestFirst ∧
      s.Shared .ascii "ask 10.240.0.1".toList "Bob Jones".toList .latestFirst := by
  have hread : (run .ascii true smallLettersCalls).map (fun r => (r.1.forward.lookup "Bob Jones".toList,
      (r.1.forward.lookup "bob jones".toList).isSome,
      (r.1.seedExistingPlaceholders "ask 10.240.0.1".toList).count .email,
      (r.1.seedExistingPlaceholders "ask 10.240.0.1".toList).count .ip)) = some (none, true, 0, 1) := by decide
  simp only [Option.map_eq_some_iff, Prod.mk.injEq] at hread
  obtain ⟨⟨s, registered⟩, hrun, hnew, hkey, hemail, hip⟩ := hread
  obtain ⟨h₁, h₂, h₃⟩ := fresh_after_seeding .ascii s "ask 10.240.0.1".toList "Bob Jones".toList .latestFirst hnew
  refine ⟨s, registered, hrun, h₁ ?_, h₂ (by decide) (addressesFit_of_length (by decide)) ?_, h₃ _ hkey (by decide)⟩
  · rw [hemail]
    decide
  · rw [hip]
    decide

/-- A pseudonym that is returned and occurs in the text. -/
theorem not_fresh_of_infix {u : CharTables} {s : PiiSession} {text original : Text} {entity : PiiEntity}
    {order : HashOrder} (ph : Text)
    (hcall : ((s.seedExistingPlaceholders text).getOrCreatePlaceholder u entity original order).map Prod.fst = some ph)
    (hoccurs : ph <:+: text) : ¬ s.Fresh u text entity original order := by
  rintro ⟨ph', s', hcall', hfresh⟩
  rw [hcall', Option.map_some] at hcall
  have hsame : ph' = ph := Option.some.inj hcall
  rw [hsame] at hfresh
  exact hfresh hoccurs

/-- A known name in another case, the last number of the e-mail addresses, a network address after all of them have been
used, and a number beyond those of the machine. -/
theorem not_fresh :
    (∃ s registered, run .ascii true smallLettersCalls = some (s, registered) ∧
      s.forward.lookup "Bob Jones".toList = none ∧
      ¬ s.Fresh .ascii "Alex Vance".toList .person "Bob Jones".toList .latestFirst) ∧
    ¬ (new true).Fresh .ascii "casey.miller18446744073709551615@fastmail.com".toList .email "bob@example.com".toList
      .latestFirst ∧
    ¬ (new true).Fresh .ascii "10.240.300.1 10.240.46.2".toList .ip "192.168.0.7".toList .latestFirst ∧
    ¬ (new true).Fresh .ascii "10.240.0.199999999999999999999".toList .ip "192.168.0.7".toList .latestFirst := by
  refine ⟨?_, ?_, ?_, ?_⟩
  · have hread : (run .ascii true smallLettersCalls).map (fun r => (r.1.forward.lookup "Bob Jones".toList,
        ((r.1.seedExistingPlaceholders "Alex Vance".toList).getOrCreatePlaceholder .ascii .person "Bob Jones".toList
          .latestFirst).map Prod.fst)) = some (none, some "Alex Vance".toList) := by decide
    simp only [Option.map_eq_some_iff, Prod.mk.injEq] at hread
    obtain ⟨⟨s, registered⟩, hrun, hnew, hcall⟩ := hread
    refine ⟨s, registered, hrun, hnew, not_fresh_of_infix "Alex Vance".toList ?_ (List.infix_refl _)⟩
    rw [Option.map_eq_some_iff]
    exact hcall
  · exact not_fresh_of_infix "casey.miller18446744073709551615@fastmail.com".toList (by decide +kernel)
      (List.infix_refl _)
  · exact not_fresh_of_infix "10.240.46.2".toList (by decide +kernel) (by decide)
  · exact not_fresh_of_infix "10.240.0.1".toList (by decide +kernel) (by decide)

end PiiSession

end OpenProxy.Pii
