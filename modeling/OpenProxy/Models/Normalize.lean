import OpenProxy.Data.Endings
import OpenProxy.Text.Basic

/-!
# Normal forms of model ids

`normalize_model_id` keeps the last segment of an id, trims each of `MODEL_SUFFIXES` in the order of the table, replaces
colons by dashes, tries the four strippers for dates and versions one after the other, and rewrites the name of a family.
Every step is made once.  The strippers exclude each other (`strippers_exclusive`), since each wants its own number of
digits, or its own character before them, at the end.
-/

namespace OpenProxy.Models

def modelSuffixes : List Text :=
  ["-free-trial".toList, "-free".toList, ":free".toList, "-low".toList, "-high".toList, "-medium".toList,
    "-tiered".toList, "-thinking".toList, "-agent".toList, "-preset".toList, "-fast".toList, "-turbo".toList,
    ":thinking".toList, ":online".toList, ":extended".toList, ":nitro".toList]

/-- `str::replace`, of a character by a character. -/
def replaceChar (a b : Char) (s : Text) : Text := s.map fun c => if c = a then b else c

/-! ### The strippers -/

def stripFixedSuffix (s : Text) (suffixLen : Nat) (predicate : Text → Bool) : Option Text :=
  if s.length ≤ suffixLen then none
  else
    let idx := s.length - suffixLen
    if predicate (s.drop idx) then some (s.take idx) else none

def isDashDateSuffix (suffix : Text) : Bool :=
  match suffix with
  | [c0, c1, c2, c3, c4, c5, c6, c7, c8, c9, c10] =>
    c0 == '-' && c5 == '-' && c8 == '-' && ([c1, c2, c3, c4] ++ [c6, c7] ++ [c9, c10]).all Char.isDigit
  | _ => false

def stripDateSuffix (s : Text) : Option Text := stripFixedSuffix s 11 isDashDateSuffix

def strip4digitSuffix (s : Text) : Option Text :=
  stripFixedSuffix s 5 fun suffix => suffix.head? == some '-' && ((suffix.take 5).drop 1).all Char.isDigit

def stripVersionSuffix (s : Text) : Option Text :=
  match rsplitOnce "-v".toList s with
  | some (start, rest) => if rest ≠ [] ∧ rest.all Char.isDigit then some start else none
  | none => none

def stripCompactYyyymmdd (s : Text) : Option Text :=
  stripFixedSuffix s 9 fun suffix =>
    if ¬ ['-'].isPrefixOf suffix then false
    else
      let digits := suffix.drop 1
      if digits.length ≠ 8 ∨ !digits.all Char.isDigit then false
      else
        let year := digits.take 4
        "19".toList.isPrefixOf year || "20".toList.isPrefixOf year

def strippers : List (Text → Option Text) :=
  [stripDateSuffix, stripCompactYyyymmdd, strip4digitSuffix, stripVersionSuffix]

/-! ### The normal form -/

/-- What comes after the last slash. -/
def lastSegment (id : Text) : Text :=
  match rsplitOnce ['/'] id with
  | some (_, rest) => rest
  | none => id

def trimSuffixes (s : Text) : Text := modelSuffixes.foldl (fun s suffix => trimEndMatches suffix s) s

def replaceColons (s : Text) : Text := if ':' ∈ s then replaceChar ':' '-' s else s

/-- Each of the strippers once. -/
def stripEach (strippers : List (Text → Option Text)) (s : Text) : Text :=
  strippers.foldl (fun cur stripper => (stripper cur).getD cur) s

def stripAllDynamicSuffixes (s : Text) : Text := stripEach strippers s

def normalizeFamily (s : Text) : Text :=
  if "gemini-".toList.isPrefixOf s ∧ '_' ∈ s then replaceChar '_' '.' s else s

def normalizeModelId (id : Text) : Text :=
  normalizeFamily (stripAllDynamicSuffixes (replaceColons (trimSuffixes (lastSegment id))))

example : normalizeModelId "google/gemini-2_5-pro-2024-08-06:free".toList = "gemini-2.5-pro".toList := by decide +kernel

/-! ### Replacing characters -/

@[simp] theorem length_replaceChar (a b : Char) (s : Text) : (replaceChar a b s).length = s.length := List.length_map _

@[simp] theorem replaceChar_append (a b : Char) (s t : Text) :
    replaceChar a b (s ++ t) = replaceChar a b s ++ replaceChar a b t := List.map_append

theorem replaceChar_eq_self {a b : Char} {s : Text} (h : a ∉ s) : replaceChar a b s = s := by
  have hfix : ∀ c ∈ s, (if c = a then b else c) = c := by
    intro c hc
    exact if_neg fun he : c = a => h (he ▸ hc)
  unfold replaceChar
  rw [List.map_congr_left hfix, List.map_id']

theorem notMem_replaceChar {a b : Char} (hab : a ≠ b) (s : Text) : a ∉ replaceChar a b s := by
  unfold replaceChar
  rw [List.mem_map]
  rintro ⟨c, -, hc⟩
  split at hc
  · exact hab hc.symm
  · rename_i hne
    exact hne hc

/-- No other character appears than the new one. -/
theorem mem_of_mem_replaceChar {a b c : Char} (hcb : c ≠ b) {s : Text} (h : c ∈ replaceChar a b s) : c ∈ s := by
  unfold replaceChar at h
  obtain ⟨c', hc', rfl⟩ := List.mem_map.1 h
  split at hcb
  · exact absurd rfl hcb
  · rename_i hne
    rwa [if_neg hne]

theorem replaceColons_eq (s : Text) : replaceColons s = replaceChar ':' '-' s := by
  unfold replaceColons
  split
  · rfl
  · rename_i h
    exact (replaceChar_eq_self h).symm

@[simp] theorem length_replaceColons (s : Text) : (replaceColons s).length = s.length := by simp [replaceColons_eq]

@[simp] theorem length_normalizeFamily (s : Text) : (normalizeFamily s).length = s.length := by
  unfold normalizeFamily
  split <;> simp

theorem normalizeFamily_idem (s : Text) : normalizeFamily (normalizeFamily s) = normalizeFamily s := by
  by_cases h : "gemini-".toList.isPrefixOf s ∧ '_' ∈ s
  · have hrepl : normalizeFamily s = replaceChar '_' '.' s := if_pos h
    rw [hrepl]
    exact if_neg fun h' => notMem_replaceChar (by decide) s h'.2
  · have hself : normalizeFamily s = s := if_neg h
    rw [hself, hself]

theorem mem_of_mem_normalizeFamily {c : Char} (hc : c ≠ '.') {s : Text} (h : c ∈ normalizeFamily s) : c ∈ s := by
  unfold normalizeFamily at h
  split at h
  · exact mem_of_mem_replaceChar hc h
  · exact h

/-! ### The last segment -/

theorem lastSegment_eq_self {s : Text} (h : '/' ∉ s) : lastSegment s = s := by
  have hnone : rsplitOnce ['/'] s = none := by
    rw [rsplitOnce_eq_none (List.cons_ne_nil '/' []), List.singleton_infix_iff]
    exact h
  unfold lastSegment
  rw [hnone]

theorem notMem_lastSegment (id : Text) : '/' ∉ lastSegment id := by
  unfold lastSegment
  split
  · rename_i h
    exact notMem_of_rsplitOnce h
  · rename_i h
    rwa [rsplitOnce_eq_none (List.cons_ne_nil '/' []), List.singleton_infix_iff] at h

/-! ### What the strippers take off -/

/-- The ending that the stripper takes off one id, at least. -/
def TakesOff (strip : Text → Option Text) (ending : Text) : Prop := ∃ t, t ≠ [] ∧ strip (t ++ ending) = some t

theorem stripFixedSuffix_eq_some {s t : Text} {n : Nat} {predicate : Text → Bool} :
    stripFixedSuffix s n predicate = some t ↔ t ≠ [] ∧ ∃ d, d.length = n ∧ predicate d ∧ s = t ++ d := by
  unfold stripFixedSuffix
  constructor
  · intro h
    split at h
    · cases h
    · rename_i hlen
      dsimp only at h
      split at h
      · rename_i hp
        obtain rfl := Option.some.inj h
        refine ⟨?_, s.drop (s.length - n), ?_, hp, (List.take_append_drop _ s).symm⟩
        · rw [← List.length_pos_iff, List.length_take]
          omega
        · rw [List.length_drop]
          omega
      · cases h
  · rintro ⟨ht, d, rfl, hp, rfl⟩
    have hpos := List.length_pos_iff.2 ht
    rw [if_neg (by rw [List.length_append]; omega)]
    have hidx : (t ++ d).length - d.length = t.length := by rw [List.length_append]; omega
    dsimp only
    rw [hidx, List.drop_left, List.take_left, if_pos hp]

/-- The characters of the dates and versions. -/
def isEndingChar (c : Char) : Bool := c.isDigit || c == '-' || c == 'v'

/-- An ending of digits, `n` in number, with another character before them. -/
structure DigitsEnd (c : Char) (n : Nat) (d : Text) : Prop where
  notDigit : c.isDigit = false
  pos : 0 < n
  split : ∃ u ds : Text, ds.length = n ∧ ds.all Char.isDigit ∧ d = u ++ c :: ds

theorem DigitsEnd.append {c : Char} {n : Nat} {d : Text} (h : DigitsEnd c n d) (t : Text) : DigitsEnd c n (t ++ d) := by
  obtain ⟨u, ds, hn, hds, rfl⟩ := h.split
  exact ⟨h.notDigit, h.pos, t ++ u, ds, hn, hds, by rw [List.append_assoc]⟩

/-- How a text ends in digits is determined by the text. -/
theorem DigitsEnd.unique {c c' : Char} {n n' : Nat} {s : Text} (h : DigitsEnd c n s) (h' : DigitsEnd c' n' s) :
    c = c' ∧ n = n' := by
  have read : ∀ {c n}, DigitsEnd c n s →
      (s.reverse.dropWhile Char.isDigit).head? = some c ∧ (s.reverse.takeWhile Char.isDigit).length = n := by
    intro c n h
    obtain ⟨u, ds, rfl, hds, rfl⟩ := h.split
    have hrev : ∀ x ∈ ds.reverse, Char.isDigit x := by simpa using hds
    rw [List.reverse_append, List.reverse_cons, List.append_assoc, List.dropWhile_append_of_pos hrev,
      List.takeWhile_append_of_pos hrev]
    simp [h.notDigit]
  have h1 := read h
  have h2 := read h'
  exact ⟨Option.some.inj (h1.1.symm.trans h2.1), h1.2.symm.trans h2.2⟩

/-- An ending that a stripper of dates and versions takes off. -/
structure IsEnding (strip : Text → Option Text) (c : Char) (n : Nat) (d : Text) : Prop extends DigitsEnd c n d where
  chars : d.all isEndingChar
  strip_append : ∀ t, t ≠ [] → strip (t ++ d) = some t

theorem all_isEndingChar {ds : Text} (h : ds.all Char.isDigit) : ds.all isEndingChar := by
  rw [List.all_eq_true] at h ⊢
  intro c hc
  simp [isEndingChar, h c hc]

theorem stripFixedSuffix_append {predicate : Text → Bool} {n : Nat} {d : Text} (hn : d.length = n) (hp : predicate d) :
    ∀ t, t ≠ [] → stripFixedSuffix (t ++ d) n predicate = some t :=
  fun _ ht => stripFixedSuffix_eq_some.2 ⟨ht, d, hn, hp, rfl⟩

theorem of_stripDateSuffix {s t : Text} (h : stripDateSuffix s = some t) :
    ∃ d, s = t ++ d ∧ IsEnding stripDateSuffix '-' 2 d := by
  obtain ⟨-, d, hlen, hd, rfl⟩ := stripFixedSuffix_eq_some.1 h
  refine ⟨d, rfl, ?_⟩
  have hstrip := stripFixedSuffix_append hlen hd
  unfold isDashDateSuffix at hd
  split at hd
  · rename_i c0 c1 c2 c3 c4 c5 c6 c7 c8 c9 c10
    simp only [Bool.and_eq_true, beq_iff_eq, List.all_eq_true, List.cons_append, List.nil_append,
      List.forall_mem_cons, List.not_mem_nil, false_imp_iff, forall_const, and_true] at hd
    obtain ⟨⟨⟨rfl, rfl⟩, rfl⟩, h1, h2, h3, h4, h6, h7, h9, h10⟩ := hd
    refine ⟨⟨by decide, by omega, ['-', c1, c2, c3, c4, '-', c6, c7], [c9, c10], rfl, ?_, rfl⟩, ?_, hstrip⟩
    · simp [h9, h10]
    · simp [isEndingChar, h1, h2, h3, h4, h6, h7, h9, h10]
  · cases hd

/-- The two endings of a dash and digits. -/
theorem isEnding_dashDigits {strip : Text → Option Text} {d : Text} {n : Nat} (hlen : d.length = n + 1) (hpos : 0 < n)
    (hdash : d.head? = some '-') (hdigits : (d.drop 1).all Char.isDigit)
    (hstrip : ∀ t, t ≠ [] → strip (t ++ d) = some t) : IsEnding strip '-' n d := by
  cases d with
  | nil => cases hdash
  | cons c ds =>
    obtain rfl := Option.some.inj hdash
    rw [List.drop_one, List.tail_cons] at hdigits
    refine ⟨⟨by decide, hpos, [], ds, Nat.succ.inj hlen, hdigits, rfl⟩, ?_, hstrip⟩
    rw [List.all_cons, Bool.and_eq_true]
    exact ⟨by decide, all_isEndingChar hdigits⟩

theorem of_stripCompactYyyymmdd {s t : Text} (h : stripCompactYyyymmdd s = some t) :
    ∃ d, s = t ++ d ∧ IsEnding stripCompactYyyymmdd '-' 8 d := by
  obtain ⟨-, d, hlen, hd, rfl⟩ := stripFixedSuffix_eq_some.1 h
  refine ⟨d, rfl, isEnding_dashDigits hlen (by omega) ?_ ?_ (stripFixedSuffix_append hlen hd)⟩
  · split at hd
    · cases hd
    · rename_i hdash
      cases d with
      | nil => cases hlen
      | cons c ds =>
        have hc : '-' = c := by simpa [List.isPrefixOf] using hdash
        rw [hc, List.head?_cons]
  · split at hd
    · cases hd
    · dsimp only at hd
      split at hd
      · cases hd
      · rename_i hdigits
        simpa using (not_or.1 hdigits).2

theorem of_strip4digitSuffix {s t : Text} (h : strip4digitSuffix s = some t) :
    ∃ d, s = t ++ d ∧ IsEnding strip4digitSuffix '-' 4 d := by
  obtain ⟨-, d, hlen, hd, rfl⟩ := stripFixedSuffix_eq_some.1 h
  have hstrip : ∀ t, t ≠ [] → strip4digitSuffix (t ++ d) = some t := stripFixedSuffix_append hlen hd
  rw [List.take_of_length_le (by omega), Bool.and_eq_true, beq_iff_eq] at hd
  exact ⟨d, rfl, isEnding_dashDigits hlen (by omega) hd.1 hd.2 hstrip⟩

theorem stripVersionSuffix_append (t : Text) {ds : Text} (hne : ds ≠ []) (hds : ds.all Char.isDigit) :
    stripVersionSuffix (t ++ ("-v".toList ++ ds)) = some t := by
  have hsep : "-v".toList ≠ [] := by decide
  have hlast : ¬ "-v".toList <:+: ("-v".toList ++ ds).tail := by
    intro h
    have hmem : '-' ∈ 'v' :: ds := h.subset (List.mem_cons_self (a := '-') (l := ['v']))
    rcases List.mem_cons.1 hmem with hv | hd
    · exact absurd hv (by decide)
    · exact absurd (List.all_eq_true.1 hds '-' hd) (by decide)
  unfold stripVersionSuffix
  rw [rsplitOnce_append hsep hlast]
  exact if_pos ⟨hne, hds⟩

theorem of_stripVersionSuffix {s t : Text} (h : stripVersionSuffix s = some t) :
    ∃ d n, s = t ++ d ∧ IsEnding stripVersionSuffix 'v' n d := by
  unfold stripVersionSuffix at h
  split at h
  · rename_i start rest hsplit
    split at h
    · rename_i hrest
      obtain rfl := Option.some.inj h
      refine ⟨"-v".toList ++ rest, rest.length, ?_, ⟨by decide, ?_, ['-'], rest, rfl, hrest.2, rfl⟩, ?_, ?_⟩
      · rw [append_of_rsplitOnce hsplit, List.append_assoc]
      · exact List.length_pos_iff.2 hrest.1
      · rw [List.all_append, Bool.and_eq_true]
        exact ⟨by decide, all_isEndingChar hrest.2⟩
      · exact fun t _ => stripVersionSuffix_append t hrest.1 hrest.2
    · cases h
  · cases h

/-- Every stripper takes off an ending of its own kind. -/
theorem exists_ending {strip : Text → Option Text} (hstrip : strip ∈ strippers) {s t : Text} (h : strip s = some t) :
    ∃ c n d, s = t ++ d ∧ IsEnding strip c n d := by
  simp only [strippers, List.mem_cons, List.not_mem_nil, or_false] at hstrip
  rcases hstrip with rfl | rfl | rfl | rfl
  · exact ⟨'-', 2, of_stripDateSuffix h⟩
  · exact ⟨'-', 8, of_stripCompactYyyymmdd h⟩
  · exact ⟨'-', 4, of_strip4digitSuffix h⟩
  · obtain ⟨d, n, hd⟩ := of_stripVersionSuffix h
    exact ⟨'v', n, d, hd⟩

theorem digitsEnd_of_ne_none {strip : Text → Option Text} {c : Char} {n : Nat}
    (of_some : ∀ {s t : Text}, strip s = some t → ∃ d, s = t ++ d ∧ IsEnding strip c n d) {s : Text}
    (h : strip s ≠ none) : DigitsEnd c n s := by
  obtain ⟨t, ht⟩ := Option.ne_none_iff_exists'.1 h
  obtain ⟨d, rfl, hd⟩ := of_some ht
  exact hd.toDigitsEnd.append t

/-- No text has endings of two kinds. -/
theorem strippers_exclusive :
    strippers.Pairwise fun strip strip' => ∀ s, strip s ≠ none → strip' s = none := by
  have apart : ∀ {strip strip' : Text → Option Text} {s : Text}, (strip s ≠ none → strip' s ≠ none → False) →
      strip s ≠ none → strip' s = none := by
    intro strip strip' s h hs
    by_contra hs'
    exact h hs hs'
  have date : ∀ {s}, stripDateSuffix s ≠ none → DigitsEnd '-' 2 s := digitsEnd_of_ne_none of_stripDateSuffix
  have compact : ∀ {s}, stripCompactYyyymmdd s ≠ none → DigitsEnd '-' 8 s := digitsEnd_of_ne_none of_stripCompactYyyymmdd
  have fourDigits : ∀ {s}, strip4digitSuffix s ≠ none → DigitsEnd '-' 4 s := digitsEnd_of_ne_none of_strip4digitSuffix
  have version : ∀ {s}, stripVersionSuffix s ≠ none → ∃ n, DigitsEnd 'v' n s := by
    intro s h
    obtain ⟨t, ht⟩ := Option.ne_none_iff_exists'.1 h
    obtain ⟨d, n, rfl, hd⟩ := of_stripVersionSuffix ht
    exact ⟨n, hd.toDigitsEnd.append t⟩
  have dashes : ∀ {n n' s}, n ≠ n' → DigitsEnd '-' n s → DigitsEnd '-' n' s → False :=
    fun hn h h' => hn (h.unique h').2
  have dashV : ∀ {n s}, DigitsEnd '-' n s → (∃ n', DigitsEnd 'v' n' s) → False := by
    rintro n s h ⟨n', h'⟩
    exact absurd (h.unique h').1 (by decide)
  simp only [strippers, List.pairwise_cons, List.mem_cons, List.not_mem_nil, or_false, forall_eq_or_imp, forall_eq]
  refine ⟨⟨?_, ?_, ?_⟩, ⟨?_, ?_⟩, ?_, by simp⟩ <;> intro s
  · exact apart fun h h' => dashes (by decide) (date h) (compact h')
  · exact apart fun h h' => dashes (by decide) (date h) (fourDigits h')
  · exact apart fun h h' => dashV (date h) (version h')
  · exact apart fun h h' => dashes (by decide) (compact h) (fourDigits h')
  · exact apart fun h h' => dashV (compact h) (version h')
  · exact apart fun h h' => dashV (fourDigits h) (version h')

end OpenProxy.Models
