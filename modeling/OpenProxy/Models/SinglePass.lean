import OpenProxy.Models.Normalize

/-!
# Where one pass is enough

A step of `normalize_model_id` may uncover an ending that an earlier step takes off.  So the normal form of a normal form
is another one unless no step applies to it, and an ending more changes the normal form exactly where the id before it has
an ending of an earlier step (`normalizeModelId_stable`).  `custom-model:thinking:extended` is the example of the tests.
-/

namespace OpenProxy.Models

/-! ### The table of the suffixes -/

theorem suffix_ne_nil {p : Text} (hp : p ∈ modelSuffixes) : p ≠ [] := by
  have h : ∀ p ∈ modelSuffixes, p ≠ [] := by decide
  exact h p hp

private theorem modelSuffixes_pairwise : modelSuffixes.Pairwise fun p q => ¬ p <:+ q ∧ ¬ q <:+ p := by decide

/-- A text ends in at most one suffix of the table. -/
theorem suffix_unique {earlier later : List Text} {p q s : Text} (h : modelSuffixes = earlier ++ p :: later)
    (hq : q ∈ earlier ∨ q ∈ later) (hps : p <:+ s) : ¬ q <:+ s := by
  have hpair := modelSuffixes_pairwise
  rw [h, List.pairwise_append, List.pairwise_cons] at hpair
  obtain ⟨-, ⟨hlater, -⟩, hearlier⟩ := hpair
  have happart : ¬ p <:+ q ∧ ¬ q <:+ p := by
    rcases hq with hq | hq
    · exact (hearlier q hq p List.mem_cons_self).symm
    · exact hlater q hq
  intro hqs
  rcases List.suffix_or_suffix_of_suffix hps hqs with hpq | hqp
  · exact happart.1 hpq
  · exact happart.2 hqp

theorem notMem_suffix {p : Text} (hp : p ∈ modelSuffixes) : '/' ∉ p := by
  have h : modelSuffixes.all fun p => !p.contains '/' := by decide
  simpa using List.all_eq_true.1 h p hp

/-! ### Each step only shortens -/

theorem trimEndMatches_shortens {ps : List Text} : ∀ p ∈ ps, ∀ s : Text, trimEndMatches p s <+: s :=
  fun p _ s => trimEndMatches_isPrefix p s

theorem strip_shortens {fs : List (Text → Option Text)} (hfs : fs ⊆ strippers) :
    ∀ strip ∈ fs, ∀ s : Text, (strip s).getD s <+: s := by
  intro strip hstrip s
  cases h : strip s with
  | none => exact List.prefix_refl s
  | some t =>
    obtain ⟨_, _, d, rfl, -⟩ := exists_ending (hfs hstrip) h
    exact List.prefix_append t d

/-- A stripper changes every text to which it applies. -/
theorem strip_getD_eq_self {strip : Text → Option Text} (hstrip : strip ∈ strippers) {s : Text} :
    (strip s).getD s = s ↔ strip s = none := by
  cases h : strip s with
  | none => simp
  | some t =>
    obtain ⟨_, _, d, rfl, hd⟩ := exists_ending hstrip h
    obtain ⟨u, ds, -, -, rfl⟩ := hd.split
    simp

theorem trimSuffixes_isPrefix (s : Text) : trimSuffixes s <+: s := foldl_isPrefix trimEndMatches_shortens s

theorem trimSuffixes_eq_self_iff {s : Text} : trimSuffixes s = s ↔ ∀ p ∈ modelSuffixes, ¬ p <:+ s := by
  unfold trimSuffixes
  rw [foldl_eq_self_iff trimEndMatches_shortens]
  exact forall₂_congr fun p hp => trimEndMatches_eq_self_iff (suffix_ne_nil hp)

theorem stripAllDynamicSuffixes_isPrefix (s : Text) : stripAllDynamicSuffixes s <+: s :=
  foldl_isPrefix (strip_shortens (List.Subset.refl strippers)) s

theorem stripEach_eq_self_iff {fs : List (Text → Option Text)} (hfs : fs ⊆ strippers) {s : Text} :
    stripEach fs s = s ↔ ∀ strip ∈ fs, strip s = none := by
  unfold stripEach
  rw [foldl_eq_self_iff (strip_shortens hfs)]
  exact forall₂_congr fun strip hstrip => strip_getD_eq_self (hfs hstrip)

theorem stripAllDynamicSuffixes_eq_self_iff {s : Text} :
    stripAllDynamicSuffixes s = s ↔ ∀ strip ∈ strippers, strip s = none :=
  stripEach_eq_self_iff (List.Subset.refl strippers)

theorem length_normalizeModelId_le (id : Text) : (normalizeModelId id).length ≤ (trimSuffixes (lastSegment id)).length := by
  unfold normalizeModelId
  rw [length_normalizeFamily]
  have h := (stripAllDynamicSuffixes_isPrefix (replaceColons (trimSuffixes (lastSegment id)))).length_le
  rwa [length_replaceColons] at h

/-! ### Digits at the end -/

def endsInDigit (s : Text) : Bool := s.getLast?.any Char.isDigit

theorem endsInDigit_of_strip {strip : Text → Option Text} (hstrip : strip ∈ strippers) {s : Text} (h : strip s ≠ none) :
    endsInDigit s = true := by
  obtain ⟨t, ht⟩ := Option.ne_none_iff_exists'.1 h
  obtain ⟨c, n, d, rfl, hd⟩ := exists_ending hstrip ht
  obtain ⟨u, ds, rfl, hds, rfl⟩ := hd.split
  have hne : ds ≠ [] := List.length_pos_iff.1 hd.pos
  unfold endsInDigit
  rw [List.getLast?_append, List.getLast?_append, List.getLast?_cons, List.getLast?_eq_getLast_of_ne_nil hne]
  exact List.all_eq_true.1 hds _ (List.getLast_mem hne)

theorem endsInDigit_of_suffix {p s : Text} (hp : p ∈ modelSuffixes) (hps : p <:+ s) : endsInDigit s = false := by
  have h : modelSuffixes.all fun p => p.getLast?.any fun c => !c.isDigit := by decide
  have hlast := List.all_eq_true.1 h p hp
  obtain ⟨t, rfl⟩ := hps
  unfold endsInDigit
  rw [List.getLast?_append]
  cases hc : p.getLast? with
  | none => rw [hc] at hlast; cases hlast
  | some c => rw [hc] at hlast; simpa using hlast

theorem endsInDigit_replaceColons (s : Text) : endsInDigit (replaceColons s) = endsInDigit s := by
  have hdash : ('-' : Char).isDigit = (':' : Char).isDigit := by decide
  unfold endsInDigit
  rw [replaceColons_eq, replaceChar, List.getLast?_map]
  cases s.getLast? with
  | none => rfl
  | some c =>
    simp only [Option.map_some, Option.any_some]
    split
    · rename_i hc
      rw [hc, hdash]
    · rfl

/-- No stripper applies where a suffix of the table is left. -/
theorem strip_eq_none_of_suffix {p s : Text} (hp : p ∈ modelSuffixes) (hps : p <:+ s) :
    ∀ strip ∈ strippers, strip (replaceColons s) = none := by
  intro strip hstrip
  by_contra h
  have hdigit := endsInDigit_of_strip hstrip h
  rw [endsInDigit_replaceColons, endsInDigit_of_suffix hp hps] at hdigit
  cases hdigit

/-! ### The normal form of a normal form -/

theorem notMem_normalizeModelId (id : Text) : '/' ∉ normalizeModelId id ∧ ':' ∉ normalizeModelId id := by
  have hsub : stripAllDynamicSuffixes (replaceColons (trimSuffixes (lastSegment id))) ⊆
      replaceColons (trimSuffixes (lastSegment id)) := (stripAllDynamicSuffixes_isPrefix _).subset
  unfold normalizeModelId
  rw [replaceColons_eq] at hsub ⊢
  constructor
  · intro h
    have h1 := mem_of_mem_replaceChar (by decide) (hsub (mem_of_mem_normalizeFamily (by decide) h))
    exact notMem_lastSegment id ((trimSuffixes_isPrefix _).subset h1)
  · intro h
    exact notMem_replaceChar (by decide) _ (hsub (mem_of_mem_normalizeFamily (by decide) h))

theorem normalizeModelId_idem_iff (id : Text) :
    normalizeModelId (normalizeModelId id) = normalizeModelId id ↔
      (∀ p ∈ modelSuffixes, ¬ p <:+ normalizeModelId id) ∧ ∀ strip ∈ strippers, strip (normalizeModelId id) = none := by
  have hfamily : normalizeFamily (normalizeModelId id) = normalizeModelId id := normalizeFamily_idem _
  obtain ⟨hslash, hcolon⟩ := notMem_normalizeModelId id
  generalize normalizeModelId id = n at hfamily hslash hcolon
  have hcolons : replaceColons n = n := by rw [replaceColons_eq, replaceChar_eq_self hcolon]
  rw [← trimSuffixes_eq_self_iff, ← stripAllDynamicSuffixes_eq_self_iff]
  constructor
  · intro h
    have htrim : trimSuffixes n = n := by
      have hle := length_normalizeModelId_le n
      rw [h, lastSegment_eq_self hslash] at hle
      exact (trimSuffixes_isPrefix n).eq_of_length_le hle
    refine ⟨htrim, (stripAllDynamicSuffixes_isPrefix n).eq_of_length ?_⟩
    rw [normalizeModelId, lastSegment_eq_self hslash, htrim, hcolons] at h
    have hlen := congrArg List.length h
    rwa [length_normalizeFamily] at hlen
  · rintro ⟨htrim, hstrip⟩
    rw [normalizeModelId, lastSegment_eq_self hslash, htrim, hcolons, hstrip, hfamily]

/-! ### One ending more -/

/-- Of an id with a suffix of the table, the normal form is shorter. -/
theorem length_normalizeModelId_lt {p s : Text} (hs : '/' ∉ s) (hp : p ∈ modelSuffixes) (hps : p <:+ s) :
    (normalizeModelId s).length < s.length := by
  have hle := length_normalizeModelId_le s
  rw [lastSegment_eq_self hs] at hle
  have htrim : trimSuffixes s ≠ s := fun h => trimSuffixes_eq_self_iff.1 h p hp hps
  have hlen : (trimSuffixes s).length ≠ s.length := fun h => htrim ((trimSuffixes_isPrefix s).eq_of_length h)
  have hshort := (trimSuffixes_isPrefix s).length_le
  omega

/-- Where the trimmed id still has a suffix of the table, the later steps leave its length alone. -/
theorem length_normalizeModelId_of_left {id p : Text} (hp : p ∈ modelSuffixes)
    (hps : p <:+ trimSuffixes (lastSegment id)) :
    (normalizeModelId id).length = (trimSuffixes (lastSegment id)).length := by
  have hstrip := stripAllDynamicSuffixes_eq_self_iff.2 (strip_eq_none_of_suffix hp hps)
  rw [normalizeModelId, hstrip, length_normalizeFamily, length_replaceColons]

section Suffix

variable {earlier later : List Text} {p s : Text} (htable : modelSuffixes = earlier ++ p :: later)

include htable

/-- The passes of the other suffixes leave a text with this suffix alone. -/
theorem trimEndMatches_other {q : Text} (hq : q ∈ earlier ∨ q ∈ later) (hps : p <:+ s) : trimEndMatches q s = s := by
  have hmem : q ∈ modelSuffixes := by
    rw [htable, List.mem_append, List.mem_cons]
    exact hq.imp_right .inr
  rw [trimEndMatches_eq_self_iff (suffix_ne_nil hmem)]
  exact suffix_unique htable hq hps

/-- Before the pass of the suffix nothing happens, and this pass takes it off. -/
theorem trimSuffixes_append :
    trimSuffixes (s ++ p) = later.foldl (fun s suffix => trimEndMatches suffix s) (trimEndMatches p s) := by
  have hne : p ≠ [] := suffix_ne_nil (by simp [htable])
  have hfixed : ∀ q ∈ earlier, trimEndMatches q (s ++ p) = s ++ p :=
    fun q hq => trimEndMatches_other htable (.inl hq) (List.suffix_append s p)
  unfold trimSuffixes
  rw [htable, foldl_append_of_fixed hfixed, List.foldl_cons, trimEndMatches_append hne]

/-- Where no earlier pass applies, the pass of the suffix is the first one for the shorter text too. -/
theorem trimSuffixes_of_earlier (h : ∀ q ∈ earlier, ¬ q <:+ s) :
    trimSuffixes s = later.foldl (fun s suffix => trimEndMatches suffix s) (trimEndMatches p s) := by
  have hfixed : ∀ q ∈ earlier, trimEndMatches q s = s := by
    intro q hq
    exact (trimEndMatches_eq_self_iff (suffix_ne_nil (by simp [htable, hq]))).2 (h q hq)
  unfold trimSuffixes
  rw [htable, foldl_append_of_fixed hfixed, List.foldl_cons]

/-- Where an earlier pass applies, it comes too late for the longer text. -/
theorem trimSuffixes_append_of_earlier {q : Text} (hq : q ∈ earlier) (hqs : q <:+ s) : trimSuffixes (s ++ p) = s := by
  obtain ⟨first, second, rfl⟩ := List.append_of_mem hq
  have hsplit : modelSuffixes = first ++ q :: (second ++ p :: later) := by simp [htable]
  have hfixed : ∀ r ∈ p :: later, trimEndMatches r s = s :=
    fun r hr => trimEndMatches_other hsplit (.inr (List.mem_append_right second hr)) hqs
  obtain ⟨hfirst, hrest⟩ := List.forall_mem_cons.1 hfixed
  rw [trimSuffixes_append htable, hfirst]
  exact (foldl_eq_self_iff trimEndMatches_shortens s).2 hrest

theorem normalizeModelId_append_suffix (hs : '/' ∉ s) :
    normalizeModelId (s ++ p) = normalizeModelId s ↔ ∀ q ∈ earlier, ¬ q <:+ s := by
  have hp : p ∈ modelSuffixes := by simp [htable]
  have hslash : '/' ∉ s ++ p := by
    rw [List.mem_append, not_or]
    exact ⟨hs, notMem_suffix hp⟩
  constructor
  · intro heq q hq hqs
    have hmem : q ∈ modelSuffixes := by simp [htable, hq]
    have hself : trimSuffixes (lastSegment (s ++ p)) = s := by
      rw [lastSegment_eq_self hslash, trimSuffixes_append_of_earlier htable hq hqs]
    have hlen := length_normalizeModelId_of_left hmem (hself.symm ▸ hqs)
    rw [hself, heq] at hlen
    exact (length_normalizeModelId_lt hs hmem hqs).ne hlen
  · intro hnone
    have hsame : trimSuffixes s = trimSuffixes (s ++ p) := by
      rw [trimSuffixes_append htable, trimSuffixes_of_earlier htable hnone]
    rw [normalizeModelId, normalizeModelId, lastSegment_eq_self hslash, lastSegment_eq_self hs, hsame]

end Suffix

/-- What a stripper takes off one id is an ending of its kind. -/
theorem TakesOff.isEnding {strip : Text → Option Text} (hstrip : strip ∈ strippers) {d : Text} (h : TakesOff strip d) :
    ∃ c n, IsEnding strip c n d := by
  obtain ⟨t, -, ht⟩ := h
  obtain ⟨c, n, d', happ, hd⟩ := exists_ending hstrip ht
  obtain rfl := List.append_cancel_left happ
  exact ⟨c, n, hd⟩

section Ending

variable {earlier later : List (Text → Option Text)} {strip : Text → Option Text}
  (htable : strippers = earlier ++ strip :: later)

include htable

/-- The strippers that do not come before the one that applies change nothing after it. -/
theorem none_of_exclusive {s : Text} (f : Text → Option Text) (hf : f ∈ earlier ++ [strip]) (hsome : f s ≠ none) :
    ∀ g ∈ later, g s = none := by
  have hexclusive := strippers_exclusive
  rw [htable, List.append_cons, List.pairwise_append] at hexclusive
  exact fun g hg => hexclusive.2.2 f hf g hg s hsome

/-- The run over a text with an ending goes on with the text before it. -/
theorem stripEach_append {t d : Text} (ht : strip (t ++ d) = some t) : stripEach strippers (t ++ d) = stripEach later t := by
  have hexclusive := strippers_exclusive
  rw [htable, List.pairwise_append] at hexclusive
  have hfixed : ∀ f ∈ earlier, (f (t ++ d)).getD (t ++ d) = t ++ d := by
    intro f hf
    have hnone : f (t ++ d) = none := by
      by_contra hsome
      have h := hexclusive.2.2 f hf strip List.mem_cons_self _ hsome
      rw [ht] at h
      cases h
    rw [hnone, Option.getD_none]
  unfold stripEach
  rw [htable, foldl_append_of_fixed hfixed, List.foldl_cons, ht, Option.getD_some]

/-- The normal form of an id with one more date or version. -/
theorem normalizeModelId_append_eq {s d : Text} (hne : s ≠ []) (hs : '/' ∉ s) (hd : TakesOff strip d) :
    normalizeModelId (s ++ d) = normalizeFamily (stripEach later (replaceColons s)) := by
  have hstrip : strip ∈ strippers := by simp [htable]
  obtain ⟨c, n, hending⟩ := hd.isEnding hstrip
  have hplain : ∀ x ∈ d, x ≠ '/' ∧ x ≠ ':' := by
    intro x hx
    have hchar := List.all_eq_true.1 hending.chars x hx
    constructor <;> rintro rfl <;> exact absurd hchar (by decide)
  have hslash : '/' ∉ s ++ d := by
    rw [List.mem_append, not_or]
    exact ⟨hs, fun h => (hplain _ h).1 rfl⟩
  have hreplaced : replaceColons (s ++ d) = replaceColons s ++ d := by
    rw [replaceColons_eq, replaceColons_eq, replaceChar_append, replaceChar_eq_self (s := d)]
    exact fun h => (hplain _ h).2 rfl
  have htake : strip (replaceColons s ++ d) = some (replaceColons s) := by
    apply hending.strip_append
    rw [← List.length_pos_iff, length_replaceColons]
    exact List.length_pos_iff.2 hne
  have htrim : trimSuffixes (s ++ d) = s ++ d := by
    rw [trimSuffixes_eq_self_iff]
    intro p hp hps
    have hnone := strip_eq_none_of_suffix hp hps strip hstrip
    rw [hreplaced, htake] at hnone
    cases hnone
  rw [normalizeModelId, lastSegment_eq_self hslash, htrim, hreplaced, stripAllDynamicSuffixes,
    stripEach_append htable htake]

theorem normalizeModelId_append_ending {s d : Text} (hne : s ≠ []) (hs : '/' ∉ s) (hd : TakesOff strip d) :
    normalizeModelId (s ++ d) = normalizeModelId s ↔
      (∀ p ∈ modelSuffixes, ¬ p <:+ s) ∧ ∀ f ∈ earlier ++ [strip], f (replaceColons s) = none := by
  have hlater : later ⊆ strippers := fun f hf => by simp [htable, hf]
  have hearlier : ∀ f ∈ earlier ++ [strip], f ∈ strippers := by
    intro f hf
    rw [htable, List.append_cons]
    exact List.mem_append_left later hf
  rw [normalizeModelId_append_eq htable hne hs hd]
  constructor
  · intro heq
    have hsuffixes : ∀ p ∈ modelSuffixes, ¬ p <:+ s := by
      intro p hp hps
      have hkeep : stripEach later (replaceColons s) = replaceColons s :=
        (stripEach_eq_self_iff hlater).2 fun f hf => strip_eq_none_of_suffix hp hps f (hlater hf)
      have hlt := length_normalizeModelId_lt hs hp hps
      rw [← heq, hkeep, length_normalizeFamily, length_replaceColons] at hlt
      omega
    refine ⟨hsuffixes, ?_⟩
    intro f hf
    by_contra hsome
    have hkeep : stripEach later (replaceColons s) = replaceColons s :=
      (stripEach_eq_self_iff hlater).2 (none_of_exclusive htable f hf hsome)
    have hshorter : (stripEach strippers (replaceColons s)).length < (replaceColons s).length := by
      refine length_foldl_lt (strip_shortens (List.Subset.refl strippers)) ⟨f, hearlier f hf, ?_⟩
      exact fun h => hsome ((strip_getD_eq_self (hearlier f hf)).1 h)
    have hlen := congrArg List.length heq
    rw [hkeep, normalizeModelId, lastSegment_eq_self hs, trimSuffixes_eq_self_iff.2 hsuffixes,
      length_normalizeFamily, length_normalizeFamily, stripAllDynamicSuffixes] at hlen
    omega
  · rintro ⟨hsuffixes, hnone⟩
    have hsame : stripEach strippers (replaceColons s) = stripEach later (replaceColons s) := by
      have hfixed : ∀ f ∈ earlier ++ [strip], (f (replaceColons s)).getD (replaceColons s) = replaceColons s := by
        intro f hf
        rw [hnone f hf, Option.getD_none]
      unfold stripEach
      rw [htable, List.append_cons, foldl_append_of_fixed hfixed]
    rw [normalizeModelId, lastSegment_eq_self hs, trimSuffixes_eq_self_iff.2 hsuffixes, stripAllDynamicSuffixes, hsame]

end Ending

/-- Normalising twice, and normalising with one ending more: exactly where the normal form stays the same. -/
theorem normalizeModelId_stable :
    (∀ id, normalizeModelId (normalizeModelId id) = normalizeModelId id ↔
      (∀ p ∈ modelSuffixes, ¬ p <:+ normalizeModelId id) ∧
        ∀ strip ∈ strippers, strip (normalizeModelId id) = none) ∧
    (∀ s, s ≠ [] → '/' ∉ s →
      (∀ earlier p later, modelSuffixes = earlier ++ p :: later →
        (normalizeModelId (s ++ p) = normalizeModelId s ↔ ∀ q ∈ earlier, ¬ q <:+ s)) ∧
      ∀ earlier strip later d, strippers = earlier ++ strip :: later → TakesOff strip d →
        (normalizeModelId (s ++ d) = normalizeModelId s ↔
          (∀ p ∈ modelSuffixes, ¬ p <:+ s) ∧ ∀ f ∈ earlier ++ [strip], f (replaceColons s) = none)) := by
  refine ⟨normalizeModelId_idem_iff, ?_⟩
  intro s hne hs
  constructor
  · intro earlier p later htable
    exact normalizeModelId_append_suffix htable hs
  · intro earlier strip later d htable hd
    exact normalizeModelId_append_ending htable hne hs hd

theorem normalizeModelId_stable_dated :
    normalizeModelId ("gpt-4o".toList ++ "-2024-08-06".toList) = normalizeModelId "gpt-4o".toList :=
  ((normalizeModelId_stable.2 "gpt-4o".toList (by decide) (by decide)).2 [] stripDateSuffix
    [stripCompactYyyymmdd, strip4digitSuffix, stripVersionSuffix] "-2024-08-06".toList rfl
    ⟨"gpt-4o".toList, by decide, by decide +kernel⟩).2 ⟨by decide +kernel, by decide +kernel⟩

/-- A second pass takes off the suffix that stands before the last one. -/
theorem normalizeModelId_not_idem :
    let id := "provider/custom-model:thinking:extended".toList
    let s := "custom-model:thinking".toList
    normalizeModelId id = "custom-model-thinking".toList ∧
      normalizeModelId (normalizeModelId id) = "custom-model".toList ∧
      ":extended".toList ∈ modelSuffixes ∧ s ≠ [] ∧ '/' ∉ s ∧
      normalizeModelId (s ++ ":extended".toList) ≠ normalizeModelId s := by
  decide +kernel

end OpenProxy.Models
