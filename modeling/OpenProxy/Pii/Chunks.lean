import OpenProxy.Pii.Spelling
import OpenProxy.Pii.Streaming

/-!
# Restoration does not depend on the chunks

The patterns of the replacer of a session do not depend on the order in which its hash maps list their entries, and all
end in a token character.  For every session that a run of calls leads to, the chunks of a text that end at safe offsets are
restored as the whole text is (`restoreChunks_eq_restoreText`).
-/

namespace OpenProxy.Pii

namespace PiiSession

variable {s : PiiSession}

/-! ### The mapping -/

/-- The spellings that are kept stand for one original each, and the ambiguous ones for several. -/
theorem lookup_foldl_addAlias (s : PiiSession) (spellings : List (Text × Text)) (a : Text) :
    (∀ o, (spellings.foldl s.addAlias (∅, [])).1.lookup a = some o ↔
      s.reverse.lookup a = none ∧ (a, o) ∈ spellings ∧ ∀ o', (a, o') ∈ spellings → o' = o) ∧
    (a ∈ (spellings.foldl s.addAlias (∅, [])).2 ↔
      s.reverse.lookup a = none ∧ ∃ o o', (a, o) ∈ spellings ∧ (a, o') ∈ spellings ∧ o ≠ o') := by
  induction spellings using List.reverseRecOn with
  | nil => simp
  | append_singleton spellings entry ih =>
    obtain ⟨k, v⟩ := entry
    rw [List.foldl_append, List.foldl_cons, List.foldl_nil]
    generalize spellings.foldl s.addAlias (∅, []) = state at ih
    obtain ⟨aliases, ambiguous⟩ := state
    obtain ⟨ih1, ih2⟩ := ih
    simp only at ih1 ih2
    simp only [List.mem_append, List.mem_singleton, Prod.mk.injEq]
    by_cases hak : a = k
    · subst hak
      unfold addAlias
      simp only
      cases hrev : s.reverse.lookup a with
      | some x =>
        simp only [hrev, Option.isSome_some, Bool.true_or, ↓reduceIte, reduceCtorEq, false_and, iff_false] at ih1 ih2 ⊢
        exact ⟨ih1, ih2⟩
      | none =>
        simp only [hrev, true_and] at ih1 ih2
        simp only [Option.isSome_none, Bool.false_or, true_and]
        by_cases hamb : a ∈ ambiguous
        · obtain ⟨o₁, o₂, h₁, h₂, hne⟩ := ih2.mp hamb
          simp only [List.contains_iff_mem.mpr hamb, ↓reduceIte]
          constructor
          · intro o
            constructor
            · intro h
              have hall := ((ih1 o).mp h).2
              exact absurd ((hall o₁ h₁).trans (hall o₂ h₂).symm) hne
            · rintro ⟨-, hall⟩
              exact absurd ((hall o₁ (Or.inl h₁)).trans (hall o₂ (Or.inl h₂)).symm) hne
          · exact ⟨fun _ => ⟨o₁, o₂, Or.inl h₁, Or.inl h₂, hne⟩, fun _ => hamb⟩
        · have hcont : ambiguous.contains a = false := by simpa using hamb
          have hsame : ∀ o o', (a, o) ∈ spellings → (a, o') ∈ spellings → o = o' := by
            intro o o' h h'
            by_contra hne
            exact hamb (ih2.mpr ⟨o, o', h, h', hne⟩)
          simp only [hcont, Bool.false_eq_true, ↓reduceIte]
          cases hl : aliases.lookup a with
          | none =>
            -- the first time that the spelling is met
            have hno : ∀ o, (a, o) ∉ spellings := by
              intro o h
              have := (ih1 o).mpr ⟨h, fun o' h' => hsame o' o h' h⟩
              rw [hl] at this
              exact absurd this (by simp)
            simp only [Option.any_none, Bool.false_eq_true, ↓reduceIte, AList.lookup_insert, Option.some.injEq, hno,
              false_or, forall_eq]
            exact ⟨fun o => ⟨fun h => ⟨h.symm, h⟩, fun h => h.2⟩,
              ⟨fun h => absurd h hamb, fun ⟨o, o', h, h', hne⟩ => absurd (h.trans h'.symm) hne⟩⟩
          | some x =>
            obtain ⟨hx, hxall⟩ := (ih1 x).mp hl
            by_cases hxv : x = v
            · subst hxv
              simp only [Option.any_some, bne_self_eq_false, Bool.false_eq_true, ↓reduceIte, AList.lookup_insert,
                Option.some.injEq]
              constructor
              · intro o
                constructor
                · rintro rfl
                  exact ⟨Or.inl hx, fun o' h' => h'.elim (hxall o') id⟩
                · rintro ⟨-, hall⟩
                  exact hall x (Or.inl hx)
              · constructor
                · intro h
                  exact absurd h hamb
                · rintro ⟨o, o', h, h', hne⟩
                  have h1 : o = x := h.elim (hxall o) id
                  have h2 : o' = x := h'.elim (hxall o') id
                  exact absurd (h1.trans h2.symm) hne
            · have hany : (x != v) = true := by simpa using hxv
              simp only [Option.any_some, hany, ↓reduceIte, AList.lookup_erase, reduceCtorEq, List.mem_cons, true_or,
                true_iff, false_iff]
              constructor
              · rintro o ⟨-, hall⟩
                exact hxv ((hall x (Or.inl hx)).trans (hall v (Or.inr rfl)).symm)
              · exact ⟨x, v, Or.inl hx, Or.inr rfl, hxv⟩
    · have hlookup : ((s.addAlias (aliases, ambiguous) (k, v)).1.lookup a = aliases.lookup a) ∧
          (a ∈ (s.addAlias (aliases, ambiguous) (k, v)).2 ↔ a ∈ ambiguous) := by
        unfold addAlias
        simp only
        split
        · exact ⟨rfl, Iff.rfl⟩
        · split
          · exact ⟨AList.lookup_erase_ne hak, by simp [hak]⟩
          · exact ⟨AList.lookup_insert_ne hak, Iff.rfl⟩
      rw [hlookup.1, hlookup.2]
      simpa [hak] using And.intro ih1 ih2

/-- The mapping does not depend on the order of the hash map. -/
theorem lookup_restorationMapping_order (s : PiiSession) (order order' : HashOrder) (a : Text) :
    (s.restorationMapping order).lookup a = (s.restorationMapping order').lookup a := by
  unfold restorationMapping
  split
  · dsimp only
    by_cases ha : a ∈ s.reverse
    · rw [AList.lookup_union_left ha, AList.lookup_union_left ha]
    · rw [AList.lookup_union_right ha, AList.lookup_union_right ha]
      have hperm := ((order.perm s.reverse.entries).trans (order'.perm s.reverse.entries).symm).flatMap_right fun e =>
        formattingAliases e.1 e.2 (s.placeholderEntities.lookup e.1)
      apply Option.ext
      intro o
      rw [(lookup_foldl_addAlias s _ a).1 o, (lookup_foldl_addAlias s _ a).1 o]
      simp only [hperm.mem_iff]
  · rfl

/-- A placeholder of the session has the spelling `a`, which is restored to `v`. -/
def SpelledAs (s : PiiSession) (a v : Text) : Prop :=
  ∃ placeholder original, s.reverse.lookup placeholder = some original ∧
    (a, v) ∈ formattingAliases placeholder original (s.placeholderEntities.lookup placeholder)

/-- The spellings that are offered to the mapping are those of the placeholders, in whatever order they are listed. -/
private theorem mem_spellings {order : HashOrder} {a v : Text} :
    (a, v) ∈ ((order.arrange s.reverse.entries).flatMap fun e =>
      formattingAliases e.1 e.2 (s.placeholderEntities.lookup e.1)) ↔ s.SpelledAs a v := by
  rw [List.mem_flatMap]
  constructor
  · rintro ⟨e, he, hspelled⟩
    have hentry : e ∈ s.reverse.entries := (order.perm _).mem_iff.mp he
    exact ⟨e.1, e.2, AList.mem_lookup_iff.mpr hentry, hspelled⟩
  · rintro ⟨placeholder, original, hlookup, hspelled⟩
    have hentry : (⟨placeholder, original⟩ : Σ _ : Text, Text) ∈ s.reverse.entries := AList.mem_lookup_iff.mp hlookup
    exact ⟨_, (order.perm _).mem_iff.mpr hentry, hspelled⟩

/-- The mapping of a reversible session has every placeholder with its original.  Any other key is a spelling of
placeholders all of which restore it to the same text, and the order of the hash map plays no part. -/
theorem restorationMapping_conservative (s : PiiSession) (h : s.reversible = true) (order : HashOrder) :
    (∀ placeholder original, s.reverse.lookup placeholder = some original →
      (s.restorationMapping order).lookup placeholder = some original) ∧
    (∀ a v, s.reverse.lookup a = none → ((s.restorationMapping order).lookup a = some v ↔
      s.SpelledAs a v ∧ ∀ v', s.SpelledAs a v' → v' = v)) ∧
    ∀ order' a, (s.restorationMapping order).lookup a = (s.restorationMapping order').lookup a := by
  refine ⟨?_, ?_, fun order' a => s.lookup_restorationMapping_order order order' a⟩
  · intro placeholder original hlookup
    have hmem : placeholder ∈ s.reverse := by
      rw [← AList.lookup_isSome, hlookup]
      rfl
    unfold restorationMapping
    rw [if_pos h, AList.lookup_union_left hmem, hlookup]
  · intro a v hnone
    have hmem : a ∉ s.reverse := by
      rw [← AList.lookup_isSome, hnone]
      simp
    unfold restorationMapping
    rw [if_pos h, AList.lookup_union_right hmem, (lookup_foldl_addAlias s _ a).1 v]
    simp only [hnone, true_and, mem_spellings]

/-- A phone number and a card. -/
def phoneCalls : List Call :=
  [.getOrCreatePlaceholder .phone "+34 600 111 222".toList .latestFirst,
    .getOrCreatePlaceholder .creditCard "4111 1111 1111 1111".toList .latestFirst]

/-- The session after the two calls, in which the digits of the pseudonym are one of its spellings. -/
theorem restorationMapping_conservative_phone :
    ∃ s registered, run .ascii true phoneCalls = some (s, registered) ∧
      (s.restorationMapping .latestFirst).lookup "+12025550111".toList = some "+34 600 111 222".toList ∧
      ((∀ placeholder original, s.reverse.lookup placeholder = some original →
        (s.restorationMapping .latestFirst).lookup placeholder = some original) ∧
      (∀ a v, s.reverse.lookup a = none → ((s.restorationMapping .latestFirst).lookup a = some v ↔
        s.SpelledAs a v ∧ ∀ v', s.SpelledAs a v' → v' = v)) ∧
      ∀ order' a, (s.restorationMapping .latestFirst).lookup a = (s.restorationMapping order').lookup a) := by
  have hread : (run .ascii true phoneCalls).map (fun r =>
      ((r.1.restorationMapping .latestFirst).lookup "+12025550111".toList, r.1.reversible)) =
      some (some "+34 600 111 222".toList, true) := by decide
  simp only [Option.map_eq_some_iff, Prod.mk.injEq] at hread
  obtain ⟨⟨s, registered⟩, hrun, hlookup, hreversible⟩ := hread
  exact ⟨s, registered, hrun, hlookup, restorationMapping_conservative s hreversible .latestFirst⟩

/-! ### The spellings of pseudonyms -/

private theorem endsInWord_filter {t : Text} {p : Char → Bool} (h : endsInWord t = true)
    (hp : ∀ c, (c.isAlphanum || c == '_') = true → p c = true) : endsInWord (t.filter p) = true := by
  unfold endsInWord at h ⊢
  cases hl : t.getLast? with
  | none => simp [hl] at h
  | some c =>
    rw [hl, Option.any_some] at h
    obtain ⟨front, rfl⟩ := List.getLast?_eq_some_iff.mp hl
    rw [List.filter_append, List.filter_singleton, hp c h]
    simpa using h

private theorem endsInWord_map {t : Text} {x y : Char} (h : endsInWord t = true)
    (hx : (x.isAlphanum || x == '_') = false) : endsInWord (t.map fun c => if c = x then y else c) = true := by
  unfold endsInWord at h ⊢
  cases hl : t.getLast? with
  | none => simp [hl] at h
  | some c =>
    rw [hl, Option.any_some] at h
    have hcx : c ≠ x := by
      rintro rfl
      rw [h] at hx
      exact absurd hx (by simp)
    obtain ⟨front, rfl⟩ := List.getLast?_eq_some_iff.mp hl
    simpa [hcx] using h

private theorem endsInWord_joinColon {segments : List Nat} {f : Nat → Text} (hne : segments ≠ [])
    (h : ∀ n, endsInWord (f n) = true) : endsInWord (Net.joinColon (segments.map f)) = true := by
  unfold Net.joinColon
  induction segments with
  | nil => exact absurd rfl hne
  | cons a segments ih =>
    cases segments with
    | nil => simpa [List.intercalate] using h a
    | cons b segments =>
      exact endsInWord_append (f a) (endsInWord_append [':'] (ih (by simp)))

private theorem parseIpv6Addr_ne_nil {t : Text} {segments : List Nat} (h : Net.parseIpv6Addr t = some segments) :
    segments ≠ [] := by
  simp only [Net.parseIpv6Addr, Option.bind_eq_some_iff] at h
  obtain ⟨⟨found, rest⟩, hread, h⟩ := h
  simp only [Net.readIpv6Addr] at hread
  split at h
  · simp only [Option.some.injEq] at h
    subst h
    split at hread
    · rename_i hlen
      cases hread
      intro hnil
      simp [hnil] at hlen
    · split at hread
      · simp at hread
      · split at hread
        · simp only [Option.some.injEq, Prod.mk.injEq] at hread
          rw [← hread.1]
          generalize (Net.readGroups true 8 t).1 = head, (Net.readGroups true _ _).1 = tail
          intro hnil
          have := congrArg List.length hnil
          simp only [List.length_append, List.length_replicate, List.length_nil] at this
          omega
        · simp at hread
  · simp at h

/-- The other spellings of a pseudonym of a session end in a word. -/
theorem WellSpelled.formattingAliases (h : s.WellSpelled) {ph original : Text} {entry : Text × Text}
    (hph : endsInWord ph = true)
    (hentry : entry ∈ formattingAliases ph original (s.placeholderEntities.lookup ph)) : endsInWord entry.1 = true := by
  unfold PiiSession.formattingAliases at hentry
  have hgt : ¬ (ph.head? = some '<' ∧ ph.getLast? = some '>') := by
    rintro ⟨-, hlast⟩
    simp [endsInWord, hlast] at hph
  dsimp only at hentry
  rw [if_neg hgt] at hentry
  cases he : s.placeholderEntities.lookup ph with
  | none => simp [he] at hentry
  | some entity =>
    rw [he] at hentry
    cases entity with
    | email => simp at hentry
    | person => simp at hentry
    | phone =>
      obtain ⟨d, hd, hdigit⟩ := h.phone ph he
      have hdigits : endsInWord (ph.filter Char.isDigit) = true := by
        refine endsInWord_of_digits ?_ (by simp)
        intro hnil
        rw [List.filter_eq_nil_iff] at hnil
        exact hnil d hd hdigit
      simp only [List.mem_cons, List.not_mem_nil, or_false] at hentry
      rcases hentry with rfl | rfl | rfl
      · exact endsInWord_append ['+'] hdigits
      · exact hdigits
      · exact endsInWord_map hph (by decide)
    | secret =>
      rw [List.mem_singleton.mp hentry]
      exact endsInWord_append ['-', 'p'] hph
    | creditCard =>
      simp only [List.mem_cons, List.not_mem_nil, or_false] at hentry
      rcases hentry with rfl | rfl
      · refine endsInWord_filter hph ?_
        intro c hc
        rw [Bool.and_eq_true, bne_iff_ne, bne_iff_ne]
        constructor
        · rintro rfl
          exact absurd hc (by decide)
        · rintro rfl
          exact absurd hc (by decide)
      · exact endsInWord_map hph (by decide)
    | ip =>
      cases hparse : Net.parseIpv6Addr ph with
      | none => simp [hparse] at hentry
      | some segments =>
        have hne := parseIpv6Addr_ne_nil hparse
        simp only [hparse, List.mem_cons, List.not_mem_nil, or_false] at hentry
        rcases hentry with rfl | rfl | rfl
        · exact h.ip ph he segments hparse
        · exact endsInWord_joinColon hne fun n => endsInWord_leftpad (endsInWord_toDigits (by omega) (by omega))
        · exact endsInWord_joinColon hne fun n => endsInWord_toDigits (by omega) (by omega)

/-- Everything that is restored ends in a word. -/
theorem WellSpelled.restorationMapping (h : s.WellSpelled) {order : HashOrder} {a o : Text}
    (ha : (s.restorationMapping order).lookup a = some o) : endsInWord a = true := by
  unfold PiiSession.restorationMapping at ha
  split at ha
  · dsimp only at ha
    by_cases hmem : a ∈ s.reverse
    · rw [AList.lookup_union_left hmem] at ha
      exact h.reverse a o ha
    · rw [AList.lookup_union_right hmem, (lookup_foldl_addAlias s _ a).1 o, List.mem_flatMap] at ha
      obtain ⟨-, ⟨e, he, hentry⟩, -⟩ := ha
      have hrev := AList.mem_lookup_iff.mpr ((order.perm s.reverse.entries).mem_iff.mp he)
      exact h.formattingAliases (h.reverse e.1 e.2 hrev) hentry
  · simp at ha

end PiiSession

/-! ### The replacer of a session -/

namespace StreamingWindowReplacer

private theorem byLength_antisymm {a b : Text × Text} (hab : byLength a b) (hba : byLength b a) : a = b := by
  unfold byLength at hab hba
  rcases hab with hab | ⟨hlen, hab⟩
  · omega
  · rcases hba with hba | ⟨-, hba⟩
    · omega
    · rcases hab with hab | ⟨hab, hv⟩
      · rcases hba with hba | ⟨hba, -⟩
        · have := textLt_trans hab hba
          rw [textLt_irrefl] at this
          exact absurd this (by simp)
        · rw [hba, textLt_irrefl] at hab
          exact absurd hab (by simp)
      · rcases hba with hba | ⟨-, hv'⟩
        · rw [hab, textLt_irrefl] at hba
          exact absurd hba (by simp)
        · rcases textLt_trichotomy a.2 b.2 with h | h | h
          · rw [h] at hv'
            exact absurd hv' (by simp)
          · exact Prod.ext hab h
          · rw [h] at hv
            exact absurd hv (by simp)

/-- The replacer is determined by the mapping. -/
theorem new_congr {mapping mapping' : Table Text Text} (h : ∀ a, mapping.lookup a = mapping'.lookup a)
    (order order' : HashOrder) : new mapping order = new mapping' order' := by
  have hperm : mapping.entries.Perm mapping'.entries :=
    List.lookup_ext mapping.nodupKeys mapping'.nodupKeys fun a o => by
      rw [Option.mem_def, Option.mem_def]
      exact Eq.congr_left (h a)
  have hentries := ((order.perm mapping.entries).trans (hperm.trans (order'.perm mapping'.entries).symm)).map
    fun e => (e.1, e.2)
  have : Std.Total byLength := ⟨byLength_total⟩
  have : IsTrans (Text × Text) byLength := ⟨byLength_trans⟩
  have hpairs := eq_insertionSort_of_perm byLength_total byLength_trans
    ((List.perm_insertionSort byLength _).trans hentries) (List.pairwise_insertionSort byLength _)
    fun a _ b _ => byLength_antisymm
  unfold new
  simp only [hpairs]

theorem fromSession_congr (s : PiiSession) (order order' order₂ order₂' : HashOrder) :
    fromSession s order order' = fromSession s order₂ order₂' := by
  unfold fromSession
  split
  · exact new_congr (s.lookup_restorationMapping_order order order₂) order' order₂'
  · exact new_congr (fun _ => rfl) order' order₂'

theorem mem_new_pairs {mapping : Table Text Text} {order : HashOrder} {pair : Text × Text} :
    pair ∈ (new mapping order).pairs ↔ mapping.lookup pair.1 = some pair.2 := by
  unfold new
  rw [(List.perm_insertionSort byLength _).mem_iff, List.mem_map]
  constructor
  · rintro ⟨e, he, rfl⟩
    exact AList.mem_lookup_iff.mpr ((order.perm _).mem_iff.mp he)
  · intro h
    exact ⟨⟨pair.1, pair.2⟩, (order.perm _).mem_iff.mpr (AList.mem_lookup_iff.mp h), rfl⟩

theorem patEndsToken_fromSession (u : CharTables) {s : PiiSession} (h : s.WellSpelled) {order order' : HashOrder}
    {pair : Text × Text} (hpair : pair ∈ (fromSession s order order').pairs) : patEndsToken u pair.1 = true := by
  unfold fromSession at hpair
  split at hpair
  · exact patEndsToken_of_endsInWord u (h.restorationMapping (mem_new_pairs.mp hpair))
  · simpa using mem_new_pairs.mp hpair

/-- Without pseudonyms there are no patterns. -/
theorem fromSession_pairs_of_empty {s : PiiSession} (h : s.reversible = false ∨ s.reverse.entries = [])
    (order order' : HashOrder) : (fromSession s order order').pairs = [] := by
  have hnew : (new ∅ order').pairs = [] := by
    have : order'.arrange [] = [] := List.perm_nil.mp (order'.perm [])
    show ((order'.arrange []).map _).insertionSort byLength = []
    rw [this]
    rfl
  unfold fromSession
  split
  · rename_i hrev
    have hentries : s.reverse.entries = [] := by simpa [hrev] using h
    have hmap : ∀ a, (s.restorationMapping order).lookup a = (∅ : Table Text Text).lookup a := by
      intro a
      have : order.arrange [] = [] := List.perm_nil.mp (order.perm [])
      have hempty : s.reverse = ∅ := AList.ext hentries
      unfold PiiSession.restorationMapping
      rw [if_pos hrev, hentries, this, hempty]
      rfl
    rw [new_congr hmap order' order', hnew]
  · exact hnew

/-- A text in one chunk is restored as `restore_text` does it. -/
theorem restoreChunks_singleton (u : CharTables) (s : PiiSession) (order order' order₂ order₂' : HashOrder) (t : Text) :
    (fromSession s order order').restoreChunks u [t] = s.restoreText u order₂ order₂' t := by
  have hfresh : (fromSession s order order').pending = [] := by
    unfold fromSession
    split <;> rfl
  unfold PiiSession.restoreText
  split
  · rename_i hnone
    by_cases hpairs : (fromSession s order order').pairs = []
    · rw [restoreChunks_nil hpairs hfresh]
      simp
    · have hempty : t = [] := by
        simp only [Bool.or_eq_true, Bool.not_eq_true', List.isEmpty_iff] at hnone
        rcases hnone with hnone | hnone
        · exact absurd (fromSession_pairs_of_empty hnone order order') hpairs
        · exact hnone
      subst hempty
      simp [restoreChunks, processAll, process, processInternal, flush, hfresh, hpairs]
  · rename_i hsome
    have hrev : s.reversible = true := by
      simp only [Bool.or_eq_true, not_or, Bool.not_eq_true', Bool.not_eq_false] at hsome
      exact hsome.1.1
    have hsame : new (s.restorationMapping order₂) order₂' = fromSession s order order' := by
      rw [fromSession_congr s order order' order₂ order₂']
      unfold fromSession
      rw [if_pos hrev]
    rw [hsame]

/-- Chunk-split independence: for every session that a run of calls leads to, and every text, the chunks of the text, in
whatever way it is cut, are restored as the whole text is, if the offsets at which they end are safe. -/
theorem restoreChunks_eq_restoreText (u : CharTables) (reversible : Bool) (calls : List Call) (s : PiiSession)
    (registered : Table Text PiiEntity) (hrun : PiiSession.run u reversible calls = some (s, registered))
    (order order' order₂ order₂' : HashOrder) (t : Text) (chunks : List Text) (hchunks : chunks.flatten = t)
    (hsafe : ChunksSafe u (fromSession s order order').pairs none chunks) :
    (fromSession s order order').restoreChunks u chunks = s.restoreText u order₂ order₂' t := by
  have hspelled : s.WellSpelled := (PiiSession.new_wellSpelled reversible).runFrom hrun
  have hfresh : (fromSession s order order').pending = [] ∧ (fromSession s order order').lastChar = none := by
    unfold fromSession
    split <;> exact ⟨rfl, rfl⟩
  subst hchunks
  rw [← restoreChunks_singleton u s order order']
  exact restoreChunks_whole (fun _ hp => patEndsToken_fromSession u hspelled hp) hfresh.1 hfresh.2 hsafe

/-- The calls for a person and a secret. -/
def secretCalls : List Call :=
  [.getOrCreatePlaceholder .person "John Smith".toList .latestFirst,
    .getOrCreatePlaceholder .secret "pw6".toList .latestFirst]

def nameChunks : List Text := ["xAlex met Al".toList, "ex V".toList, [], "ance.".toList]

/-- A name that is a part of a longer word, and a name that is cut twice. -/
theorem restoreChunks_eq_restoreText_name :
    ∃ s registered, PiiSession.run .ascii true secretCalls = some (s, registered) ∧
      ChunksSafe .ascii (fromSession s .latestFirst .latestFirst).pairs none nameChunks ∧
      (fromSession s .latestFirst .latestFirst).restoreChunks .ascii nameChunks =
        s.restoreText .ascii .latestFirst .latestFirst "xAlex met Alex Vance.".toList := by
  have hread : (PiiSession.run .ascii true secretCalls).map (fun r => decide
      (ChunksSafe .ascii (fromSession r.1 .latestFirst .latestFirst).pairs none nameChunks)) = some true := by
    decide +kernel
  simp only [Option.map_eq_some_iff] at hread
  obtain ⟨⟨s, registered⟩, hrun, hsafe⟩ := hread
  refine ⟨s, registered, hrun, of_decide_eq_true hsafe, ?_⟩
  exact restoreChunks_eq_restoreText .ascii true secretCalls s registered hrun .latestFirst .latestFirst .latestFirst
    .latestFirst _ nameChunks (by decide) (of_decide_eq_true hsafe)

/-- The pending text begins inside a match that was rejected: after the secret `sec_5694189a`, which is a part of a longer
word, the name is found in the whole text but not in its two chunks. -/
theorem restoreChunks_inside_rejected :
    ∃ s registered, PiiSession.run .ascii true secretCalls = some (s, registered) ∧
      s.restoreText .ascii .latestFirst .latestFirst "xsec_5694189alex vance.".toList =
        "xsec_5694189alex Smith.".toList ∧
      (fromSession s .latestFirst .latestFirst).restoreChunks .ascii ["xsec_5694189al".toList, "ex vance.".toList] =
        "xsec_5694189alex vance.".toList := by
  have hread : (PiiSession.run .ascii true secretCalls).map (fun r =>
      (r.1.restoreText .ascii .latestFirst .latestFirst "xsec_5694189alex vance.".toList,
        (fromSession r.1 .latestFirst .latestFirst).restoreChunks .ascii
          ["xsec_5694189al".toList, "ex vance.".toList])) =
      some ("xsec_5694189alex Smith.".toList, "xsec_5694189alex vance.".toList) := by decide +kernel
  simp only [Option.map_eq_some_iff, Prod.mk.injEq] at hread
  obtain ⟨⟨s, registered⟩, hrun, hwhole, hchunks⟩ := hread
  exact ⟨s, registered, hrun, hwhole, hchunks⟩

end StreamingWindowReplacer

end OpenProxy.Pii
