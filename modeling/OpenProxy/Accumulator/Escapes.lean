import OpenProxy.Accumulator.Parser

/-!
# Decoding escapes

On a string that JSON allows, `decode_json_escape_into` gives the string that it stands for (`decodeJsonEscape_eq`).
-/

namespace OpenProxy.Accumulator

/-! ### Digits -/

theorem hexValue_lt {c : Char} {d : Nat} (h : hexValue c = some d) : d < 16 := by
  unfold hexValue at h
  dsimp only at h
  split_ifs at h
  all_goals
    cases h
    omega

/-- Four digits are a number of 16 bits. -/
theorem fromStrRadix_digits {a b c d : Char} {x y z w : Nat} (ha : hexValue a = some x) (hb : hexValue b = some y)
    (hc : hexValue c = some z) (hd : hexValue d = some w) :
    fromStrRadix [a, b, c, d] = some (ofHex [x, y, z, w]) ∧ ofHex [x, y, z, w] < 65536 := by
  have hplus : a ≠ '+' := by
    rintro rfl
    have hnone : hexValue '+' = none := by decide
    rw [hnone] at ha
    cases ha
  constructor
  · unfold fromStrRadix
    split
    · rename_i heq
      exact absurd (List.cons.inj heq).1 hplus
    · simp [ha, hb, hc, hd]
  · have := hexValue_lt ha
    have := hexValue_lt hb
    have := hexValue_lt hc
    have := hexValue_lt hd
    simp only [ofHex, List.foldl_cons, List.foldl_nil]
    omega

theorem charFromU32_of_valid {n : Nat} (h : n.isValidChar) : charFromU32 n = some (Char.ofNat n) := if_pos h

/-! ### The lexer in a string -/

variable {s r : Text} {t : Text}

/-- One character of the lexer. -/
theorem exists_lexStep {y : LexState} (h : lexFrom y t = some (.string r, [])) (hy : ∀ s, y ≠ .string s) :
    ∃ c rest y', t = c :: rest ∧ lexStep y c = some (y', []) ∧ lexFrom y' rest = some (.string r, []) := by
  cases t with
  | nil =>
    cases h
    exact absurd rfl (hy r)
  | cons c rest =>
    obtain ⟨⟨y', ts⟩, hstep, hrest⟩ := Option.bind_eq_some_iff.mp h
    obtain ⟨⟨z, us⟩, hlast, heq⟩ := Option.map_eq_some_iff.mp hrest
    simp only [Prod.mk.injEq, List.append_eq_nil_iff] at heq
    obtain ⟨rfl, rfl, rfl⟩ := heq
    exact ⟨c, rest, y', rfl, hstep, hlast⟩

/-- The four digits behind `\u`. -/
theorem exists_digits (more : List Nat → LexState) (next : Nat → Option LexState) (hmore : ∀ hex s, more hex ≠ .string s)
    (hstep : ∀ hex c, lexStep (more hex) c = (withDigit hex c more next).map fun y => (y, []))
    (h : lexFrom (more []) t = some (.string r, [])) :
    ∃ a b c d rest n y, t = a :: b :: c :: d :: rest ∧ hexAfter t = some (n, rest) ∧ n < 65536 ∧ next n = some y ∧
      lexFrom y rest = some (.string r, []) := by
  have hdigit : ∀ {hex : List Nat} {c : Char} {y : LexState}, lexStep (more hex) c = some (y, []) →
      ∃ d, hexValue c = some d ∧
        if hex.length = 3 then next (ofHex (hex ++ [d])) = some y else y = more (hex ++ [d]) := by
    intro hex c y hy
    rw [hstep] at hy
    obtain ⟨y', hy', heq⟩ := Option.map_eq_some_iff.mp hy
    cases heq
    obtain ⟨d, hd, hlast⟩ := Option.bind_eq_some_iff.mp hy'
    refine ⟨d, hd, ?_⟩
    split
    · rename_i hlen
      rwa [if_pos hlen] at hlast
    · rename_i hlen
      rw [if_neg hlen] at hlast
      exact (Option.some_inj.mp hlast).symm
  obtain ⟨a, t₁, y₁, rfl, hstep₁, h₁⟩ := exists_lexStep h (hmore [])
  obtain ⟨x, ha, rfl⟩ := hdigit hstep₁
  obtain ⟨b, t₂, y₂, rfl, hstep₂, h₂⟩ := exists_lexStep h₁ (hmore _)
  obtain ⟨y, hb, rfl⟩ := hdigit hstep₂
  obtain ⟨c, t₃, y₃, rfl, hstep₃, h₃⟩ := exists_lexStep h₂ (hmore _)
  obtain ⟨z, hc, rfl⟩ := hdigit hstep₃
  obtain ⟨d, t₄, y₄, rfl, hstep₄, h₄⟩ := exists_lexStep h₃ (hmore _)
  obtain ⟨w, hd, hnext⟩ := hdigit hstep₄
  obtain ⟨hradix, hlt⟩ := fromStrRadix_digits ha hb hc hd
  exact ⟨a, b, c, d, t₄, ofHex [x, y, z, w], y₄, rfl, by rw [hexAfter, hradix, Option.map_some], hlt, hnext, h₄⟩

/-- What is written behind `\u` is decoded as the lexer does. -/
theorem exists_unicode (h : lexFrom (.unicode s []) t = some (.string r, [])) :
    ∃ c n, unicodeAt t = some (c, n) ∧ n ≤ t.length ∧ lexFrom (.string (s ++ [c])) (t.drop n) = some (.string r, []) := by
  obtain ⟨a, b, c, d, rest, n, y, rfl, hhex, hlt, hnext, hrest⟩ :=
    exists_digits (.unicode s) (afterUnicode s) (by simp) (fun _ _ => rfl) h
  unfold afterUnicode at hnext
  have hunicode : unicodeAt (a :: b :: c :: d :: rest) =
      ((if 0xD800 ≤ n ∧ n ≤ 0xDBFF then (lowAfter rest).bind (pairChar n) else none).map fun c => (c, 10)).or
        ((charFromU32 n).map fun c => (c, 4)) := by
    rw [unicodeAt, hhex]
    rfl
  split_ifs at hnext with hhigh hlow
  · -- a surrogate pair
    cases hnext
    obtain ⟨e, rest₁, y₁, rfl, hstep₁, h₁⟩ := exists_lexStep hrest (by simp)
    simp only [lexStep] at hstep₁
    split_ifs at hstep₁ with he
    cases hstep₁
    obtain ⟨f, rest₂, y₂, rfl, hstep₂, h₂⟩ := exists_lexStep h₁ (by simp)
    simp only [lexStep] at hstep₂
    split_ifs at hstep₂ with hf
    cases hstep₂
    obtain ⟨a', b', c', d', rest₃, low, y₃, rfl, hhex', hlt', hnext', hrest'⟩ :=
      exists_digits (.low s n) (afterLow s n) (by simp) (fun _ _ => rfl) h₂
    unfold afterLow at hnext'
    split_ifs at hnext' with hrange
    cases hnext'
    have hlowAfter : lowAfter (e :: f :: a' :: b' :: c' :: d' :: rest₃) = some low := by
      rw [he, hf, lowAfter, hhex', Option.bind_some]
      exact if_pos hrange
    have hvalue : (n - 0xD800) <<< 10 ||| (low - 0xDC00) = (n - 0xD800) * 0x400 + (low - 0xDC00) := by
      rw [← Nat.shiftLeft_add_eq_or_of_lt (by omega), Nat.shiftLeft_eq]
    have hvalid : (0x10000 + (n - 0xD800) * 0x400 + (low - 0xDC00)).isValidChar := by
      right
      omega
    have hpair : pairChar n low = some (Char.ofNat (0x10000 + (n - 0xD800) * 0x400 + (low - 0xDC00))) := by
      rw [pairChar, hvalue, ← Nat.add_assoc]
      exact charFromU32_of_valid hvalid
    refine ⟨_, 10, ?_, ?_, hrest'⟩
    · rw [hunicode, if_pos hhigh, hlowAfter, Option.bind_some, hpair]
      rfl
    · simp only [List.length_cons]
      omega
  · cases hnext
    have hvalid : n.isValidChar := by
      unfold Nat.isValidChar
      omega
    refine ⟨_, 4, ?_, ?_, hrest⟩
    · rw [hunicode, if_neg hhigh, charFromU32_of_valid hvalid]
      rfl
    · simp only [List.length_cons]
      omega

/-! ### Strings -/

theorem decodeFrom_drop (n : Nat) (hn : n ≤ t.length) : decodeFrom n t = decodeFrom 0 (t.drop n) := by
  induction n generalizing t with
  | zero => rfl
  | succ n ih =>
    cases t with
    | nil => exact absurd hn (Nat.not_succ_le_zero n)
    | cons c t => exact ih (Nat.le_of_succ_le_succ hn)

/-- What is written after a backslash is decoded as the lexer does. -/
theorem exists_escape (h : lexFrom (.escape s) t = some (.string r, [])) :
    ∃ c n, escapeAt t = some (c, n) ∧ 1 ≤ n ∧ n ≤ t.length ∧
      lexFrom (.string (s ++ [c])) (t.drop n) = some (.string r, []) := by
  obtain ⟨c, rest, y, rfl, hstep, hrest⟩ := exists_lexStep h (by simp)
  obtain ⟨y', hafter, heq⟩ := Option.map_eq_some_iff.mp hstep
  cases heq
  have hlen : 1 ≤ (c :: rest).length := Nat.succ_le_succ (Nat.zero_le _)
  unfold afterEscape at hafter
  split_ifs at hafter with h₁ h₂ h₃ h₄ h₅ h₆ h₇
  · rcases h₁ with rfl | rfl | rfl
    all_goals
      cases hafter
      exact ⟨_, 1, rfl, Nat.le_refl 1, hlen, hrest⟩
  · subst h₂
    cases hafter
    exact ⟨_, 1, rfl, Nat.le_refl 1, hlen, hrest⟩
  · subst h₃
    cases hafter
    exact ⟨_, 1, rfl, Nat.le_refl 1, hlen, hrest⟩
  · subst h₄
    cases hafter
    exact ⟨_, 1, rfl, Nat.le_refl 1, hlen, hrest⟩
  · subst h₅
    cases hafter
    exact ⟨_, 1, rfl, Nat.le_refl 1, hlen, hrest⟩
  · subst h₆
    cases hafter
    exact ⟨_, 1, rfl, Nat.le_refl 1, hlen, hrest⟩
  · subst h₇
    cases hafter
    obtain ⟨d, n, hunicode, hn, hlast⟩ := exists_unicode hrest
    refine ⟨d, n + 1, ?_, Nat.le_add_left 1 n, Nat.succ_le_succ hn, hlast⟩
    rw [escapeAt, hunicode, Option.map_some]

theorem decodeFrom_eq (h : lexFrom (.string s) t = some (.string r, [])) : r = s ++ decodeFrom 0 t := by
  induction hlen : t.length using Nat.strong_induction_on generalizing s t with
  | _ len ih =>
    subst hlen
    cases t with
    | nil =>
      cases h
      exact (List.append_nil _).symm
    | cons c rest =>
      obtain ⟨⟨y, ts⟩, hstep, hmap⟩ := Option.bind_eq_some_iff.mp h
      obtain ⟨⟨z, us⟩, hrest, heq⟩ := Option.map_eq_some_iff.mp hmap
      simp only [Prod.mk.injEq, List.append_eq_nil_iff] at heq
      obtain ⟨rfl, rfl, rfl⟩ := heq
      simp only [lexStep] at hstep
      split_ifs at hstep with hquote hescape hcontrol
      · cases hstep
      · cases hstep
        obtain ⟨d, n, hat, hpos, hn, hlast⟩ := exists_escape hrest
        have hdrop : (rest.drop n).length < (c :: rest).length := by
          rw [List.length_drop, List.length_cons]
          omega
        rw [ih _ hdrop hlast rfl, decodeFrom, if_pos hescape, hat, List.append_assoc]
        dsimp only
        rw [decodeFrom_drop n hn]
        rfl
      · cases hstep
        rw [ih _ (Nat.lt_succ_self _) hrest rfl, decodeFrom, if_neg hescape, List.append_assoc]
        rfl

theorem decodeFrom_of_plain (h : '\\' ∉ t) : decodeFrom 0 t = t := by
  induction t with
  | nil => rfl
  | cons c t ih =>
    rw [List.mem_cons, not_or] at h
    rw [decodeFrom, if_neg fun heq => h.1 heq.symm, ih h.2]

/-- A string is decoded to what it stands for. -/
theorem decodeJsonEscape_eq {raw : Text} (h : decodeString raw = some s) : decodeJsonEscape raw = s := by
  have hlex : lexFrom (.string []) raw = some (.string s, []) := by
    unfold decodeString at h
    split at h
    · rename_i s' heq
      cases h
      exact heq
    · cases h
  have hdecode := decodeFrom_eq hlex
  rw [List.nil_append] at hdecode
  unfold decodeJsonEscape
  split
  · exact hdecode.symm
  · rename_i hplain
    rw [hdecode, decodeFrom_of_plain hplain]

end OpenProxy.Accumulator
