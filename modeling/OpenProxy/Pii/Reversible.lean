import OpenProxy.Pii.Collision

/-!
# Reversibility of the pseudonym table

The pseudonym of an original leads back to it: exactly, or up to ASCII case for persons.  The invariant (`Inv`) says
this of every entry of the forward map, together with what keeps the aliases of names apart from the pseudonyms.  It is
kept by every call but one kind: a person call that finds the original in another case under another entity may rewrite
that entity's entry, or give the original itself as its pseudonym (`safeCall` excludes both).
-/

namespace OpenProxy.Pii

open AList (lookup_insert_ne lookup_insert)

namespace PiiSession

/-! ### What a call does -/

/-- The cases of `get_or_create_placeholder`. -/
theorem getOrCreatePlaceholder_cases {u : CharTables} {s s' : PiiSession} {entity : PiiEntity} {original ph : Text}
    {order : HashOrder} (h : s.getOrCreatePlaceholder u entity original order = some (ph, s')) :
    (s.forward.lookup original = some ph ∧ s' = s) ∨
    (s.forward.lookup original = none ∧ entity = .person ∧ ∃ key, s.findCaseVariant order original = some (key, ph) ∧
      s' = s.shareCaseVariant u key ph original) ∨
    (s.forward.lookup original = none ∧ ∃ c, 0 < c ∧
      ∃ s₁ : PiiSession, s₁ = { s with counts := s.counts.insert entity (generatePlaceholder entity c original).2 } ∧
      s₁.resolveCollision original (generatePlaceholder entity c original).1 = some ph ∧
      ∃ s₂ : PiiSession, s₂ = { s₁ with
        forward := s.forward.insert original ph
        reverse := s.reverse.insert ph original
        placeholderEntities := s.placeholderEntities.insert ph entity } ∧
      s' = if entity = .person then s₂.registerNameParts ph original else s₂) := by
  unfold getOrCreatePlaceholder at h
  split at h
  · rename_i existing hf
    simp only [Option.some.injEq, Prod.mk.injEq] at h
    exact Or.inl ⟨by rw [hf, h.1], h.2.symm⟩
  · rename_i hf
    split at h
    · rename_i key placeholder hk
      simp only [Option.some.injEq, Prod.mk.injEq] at h
      obtain ⟨rfl, rfl⟩ := h
      split at hk
      · rename_i he
        exact Or.inr (Or.inl ⟨hf, he, key, hk, rfl⟩)
      · exact absurd hk (by simp)
    · split at h
      · cases h
      · simp only [Option.map_eq_some_iff, Prod.mk.injEq] at h
        obtain ⟨p, hp, rfl, rfl⟩ := h
        exact Or.inr (Or.inr ⟨hf, _, Nat.lt_min.mpr ⟨Nat.succ_pos _, by decide⟩, _, rfl, hp, _, rfl, rfl⟩)

/-- The key that a person call finds is one of the session, and is the original in another case. -/
theorem findCaseVariant_spec {s : PiiSession} {order : HashOrder} {original key ph : Text}
    (h : s.findCaseVariant order original = some (key, ph)) :
    s.forward.lookup key = some ph ∧ lower key = lower original := by
  simp only [findCaseVariant, Option.map_eq_some_iff, Prod.mk.injEq] at h
  obtain ⟨entry, hentry, rfl, rfl⟩ := h
  have hmem := (order.perm _).mem_iff.mp (List.mem_of_find?_eq_some hentry)
  have heq := List.find?_some hentry
  rw [eqIgnoreAsciiCase_iff] at heq
  exact ⟨AList.mem_lookup_iff.mpr hmem, heq⟩

theorem findCaseVariant_isSome {s : PiiSession} {order : HashOrder} {original : Text} :
    (s.findCaseVariant order original).isSome = true ↔
      ∃ key, (s.forward.lookup key).isSome = true ∧ eqIgnoreAsciiCase key original = true := by
  unfold findCaseVariant
  rw [Option.isSome_map, List.find?_isSome]
  constructor
  · rintro ⟨entry, hentry, heq⟩
    have hlookup := AList.mem_lookup_iff.mpr ((order.perm _).mem_iff.mp hentry)
    exact ⟨entry.1, by rw [Option.mem_def.mp hlookup]; rfl, heq⟩
  · rintro ⟨key, hkey, heq⟩
    obtain ⟨ph, hph⟩ := Option.isSome_iff_exists.mp hkey
    have hentry : (⟨key, ph⟩ : Σ _ : Text, Text) ∈ s.forward.entries := AList.mem_lookup_iff.mp hph
    exact ⟨_, (order.perm _).mem_iff.mpr hentry, heq⟩

/-- The counters are all that `seed_existing_placeholders` changes. -/
theorem seedExistingPlaceholders_eq (s : PiiSession) (text : Text) :
    ∃ counts, s.seedExistingPlaceholders text = { s with counts := counts } := by
  have hraise : ∀ (entity : PiiEntity) (numbers : List Nat) (s : PiiSession),
      ∃ counts, s.raiseCount entity numbers = { s with counts := counts } := by
    intro entity numbers
    induction numbers with
    | nil => exact fun s => ⟨s.counts, rfl⟩
    | cons n numbers ih =>
      intro s
      obtain ⟨counts, hc⟩ := ih { s with counts := s.counts.insert entity (max ((s.counts.lookup entity).getD 0) n) }
      exact ⟨counts, hc⟩
  have hseed : ∀ (entity : PiiEntity) (needle : Text) (read) (s t : PiiSession),
      (∃ counts, t = { s with counts := counts }) →
        ∃ counts, t.seed entity needle read text = { s with counts := counts } := by
    rintro entity needle read s t ⟨counts, rfl⟩
    obtain ⟨counts', h⟩ := hraise entity (seedLoop needle read text (text.length + 1) 0) { s with counts := counts }
    exact ⟨counts', h⟩
  have hfold : ∀ {α : Type} (l : List α) (f : PiiSession → α → PiiSession) (t : PiiSession),
      (∀ t a, (∃ counts, t = { s with counts := counts }) → ∃ counts, f t a = { s with counts := counts }) →
      (∃ counts, t = { s with counts := counts }) → ∃ counts, l.foldl f t = { s with counts := counts } := by
    intro α l f t hf ht
    induction l generalizing t with
    | nil => exact ht
    | cons a l ih => exact ih (f t a) (hf t a ht)
  unfold seedExistingPlaceholders
  split
  · exact ⟨s.counts, rfl⟩
  · apply hseed
    apply hfold
    · exact fun t secPrefix ht => hseed _ _ _ _ _ ht
    apply hseed
    apply hseed
    apply hseed
    apply hseed
    apply hseed
    split
    · apply hfold
      · exact fun t entity ht => hseed _ _ _ _ _ ht
      · exact ⟨s.counts, rfl⟩
    · exact ⟨s.counts, rfl⟩

/-- The names of a person change the aliases only. -/
theorem registerNameParts_eq (s : PiiSession) (placeholder original : Text) :
    ∃ reverse ambiguousAliases, s.registerNameParts placeholder original =
      { s with reverse := reverse, ambiguousAliases := ambiguousAliases } := by
  have halias : ∀ (s : PiiSession) (aliasPh original : Text), ∃ reverse ambiguousAliases,
      s.registerPersonAlias aliasPh original = { s with reverse := reverse, ambiguousAliases := ambiguousAliases } := by
    intro s aliasPh original
    unfold registerPersonAlias
    dsimp only
    split_ifs <;> exact ⟨_, _, rfl⟩
  unfold registerNameParts
  split
  · exact ⟨s.reverse, s.ambiguousAliases, rfl⟩
  · dsimp only
    obtain ⟨reverse, ambiguous, h⟩ := halias s _ ((splitWhitespace original).head?.getD original)
    rw [h]
    obtain ⟨reverse', ambiguous', h'⟩ := halias { s with reverse := reverse, ambiguousAliases := ambiguous } _
      ((splitWhitespace original).getLast?.getD original)
    exact ⟨reverse', ambiguous', h'⟩

/-- A call gives the original its pseudonym and leaves the other pseudonyms as they are. -/
theorem getOrCreatePlaceholder_forward {u : CharTables} {s s' : PiiSession} {entity : PiiEntity} {original ph : Text}
    {order : HashOrder} (h : s.getOrCreatePlaceholder u entity original order = some (ph, s')) :
    s'.forward.lookup original = some ph ∧ (∀ o p, s.forward.lookup o = some p → s'.forward.lookup o = some p) ∧
      s'.reversible = s.reversible := by
  have hinsert : s.forward.lookup original = none → s'.forward = s.forward.insert original ph →
      s'.reversible = s.reversible → s'.forward.lookup original = some ph ∧
        (∀ o p, s.forward.lookup o = some p → s'.forward.lookup o = some p) ∧ s'.reversible = s.reversible := by
    intro hnew heq hrev
    rw [heq]
    refine ⟨lookup_insert _, ?_, hrev⟩
    intro o p ho
    have hne : o ≠ original := by
      rintro rfl
      rw [hnew] at ho
      exact absurd ho (by simp)
    rw [lookup_insert_ne hne]
    exact ho
  rcases getOrCreatePlaceholder_cases h with ⟨hf, rfl⟩ | ⟨hnew, -, key, -, rfl⟩ | ⟨hnew, c, -, s₁, rfl, -, s₂, rfl, rfl⟩
  · exact ⟨hf, fun _ _ ho => ho, rfl⟩
  · have heq : ∃ reverse ambiguousAliases, s.shareCaseVariant u key ph original =
        { s with forward := s.forward.insert original ph, reverse := reverse, ambiguousAliases := ambiguousAliases } := by
      unfold shareCaseVariant
      dsimp only
      split
      · obtain ⟨reverse, ambiguous, h⟩ := registerNameParts_eq
          { s with forward := s.forward.insert original ph, reverse := s.reverse.insert ph original } ph original
        exact ⟨reverse, ambiguous, h⟩
      · exact ⟨s.reverse, s.ambiguousAliases, rfl⟩
    obtain ⟨reverse, ambiguous, heq⟩ := heq
    rw [heq] at hinsert ⊢
    exact hinsert hnew rfl rfl
  · apply hinsert hnew
    · split
      · obtain ⟨reverse, ambiguous, heq⟩ := registerNameParts_eq _ ph original
        rw [heq]
      · rfl
    · split
      · obtain ⟨reverse, ambiguous, heq⟩ := registerNameParts_eq _ ph original
        rw [heq]
      · rfl

/-! ### Aliases -/

/-- Two sessions that differ in aliases only. -/
structure SameButAliases (s s' : PiiSession) : Prop where
  forward : s'.forward = s.forward
  placeholderEntities : s'.placeholderEntities = s.placeholderEntities
  reverse : ∀ k, isAlias k = false → s'.reverse.lookup k = s.reverse.lookup k

theorem registerPersonAlias_sameButAliases (s : PiiSession) {aliasPh : Text} (original : Text)
    (h : isAlias aliasPh = true) : SameButAliases s (s.registerPersonAlias aliasPh original) := by
  have hne : ∀ k, isAlias k = false → k ≠ aliasPh := by
    rintro k hk rfl
    rw [h] at hk
    exact absurd hk (by simp)
  unfold registerPersonAlias
  split
  · exact ⟨rfl, rfl, fun _ _ => rfl⟩
  · split
    · dsimp only
      split
      · exact ⟨rfl, rfl, fun k hk => lookup_insert_ne (hne k hk)⟩
      · exact ⟨rfl, rfl, fun k hk => AList.lookup_erase_ne (hne k hk)⟩
    · exact ⟨rfl, rfl, fun k hk => lookup_insert_ne (hne k hk)⟩

theorem SameButAliases.trans {s s' s'' : PiiSession} (h : SameButAliases s s') (h' : SameButAliases s' s'') :
    SameButAliases s s'' where
  forward := h'.forward.trans h.forward
  placeholderEntities := h'.placeholderEntities.trans h.placeholderEntities
  reverse := fun k hk => (h'.reverse k hk).trans (h.reverse k hk)

theorem registerNameParts_sameButAliases (s : PiiSession) {ph : Text} (original : Text) (h : PersonShape ph) :
    SameButAliases s (s.registerNameParts ph original) := by
  obtain ⟨first, last, hsplit, hfirst, hlast⟩ := h
  simp only [registerNameParts, hsplit]
  exact (registerPersonAlias_sameButAliases s _ hfirst).trans (registerPersonAlias_sameButAliases _ _ hlast)

/-! ### The invariant -/

/-- The invariant of a session and of the entities under which its originals are registered. -/
structure Inv (s : PiiSession) (registered : Table Text PiiEntity) : Prop where
  /-- A pseudonym leads back to each of its originals, up to case. -/
  back : ∀ o ph, s.forward.lookup o = some ph → ∃ r, s.reverse.lookup ph = some r ∧ lower r = lower o
  /-- It is not the original itself. -/
  ne : ∀ o ph, s.forward.lookup o = some ph → ph ≠ o
  /-- It is not an alias. -/
  notAlias : ∀ o ph, s.forward.lookup o = some ph → isAlias ph = false
  /-- Apart from aliases, the reverse map leads to originals of the session. -/
  known : ∀ ph r, isAlias ph = false → s.reverse.lookup ph = some r → (s.forward.lookup r).isSome = true
  /-- The originals of the session are the registered ones. -/
  domain : ∀ o, (registered.lookup o).isSome = (s.forward.lookup o).isSome
  /-- The pseudonym of an original that is not a person has its entity and leads back to it exactly. -/
  exact : ∀ o e ph, registered.lookup o = some e → e ≠ .person → s.forward.lookup o = some ph →
    s.reverse.lookup ph = some o ∧ s.placeholderEntities.lookup ph = some e
  /-- The pseudonyms of persons have the shape of names. -/
  person : ∀ ph, s.placeholderEntities.lookup ph = some .person → PersonShape ph

theorem new_inv (reversible : Bool) : (new reversible).Inv ∅ := by
  constructor <;> simp [new]

theorem Inv.sameButAliases {s s' : PiiSession} {registered : Table Text PiiEntity} (h : s.Inv registered)
    (hs : SameButAliases s s') : s'.Inv registered where
  back := by
    intro o ph ho
    rw [hs.forward] at ho
    rw [hs.reverse ph (h.notAlias o ph ho)]
    exact h.back o ph ho
  ne := by
    intro o ph ho
    rw [hs.forward] at ho
    exact h.ne o ph ho
  notAlias := by
    intro o ph ho
    rw [hs.forward] at ho
    exact h.notAlias o ph ho
  known := by
    intro ph r hph hr
    rw [hs.reverse ph hph] at hr
    rw [hs.forward]
    exact h.known ph r hph hr
  domain := by
    intro o
    rw [hs.forward]
    exact h.domain o
  exact := by
    intro o e ph ho he hf
    rw [hs.forward] at hf
    rw [hs.reverse ph (h.notAlias o ph hf), hs.placeholderEntities]
    exact h.exact o e ph ho he hf
  person := by
    intro ph hph
    rw [hs.placeholderEntities] at hph
    exact h.person ph hph

/-- The counters play no part in the invariant. -/
theorem Inv.counts {s : PiiSession} {registered : Table Text PiiEntity} (h : s.Inv registered)
    (counts : Table PiiEntity Nat) : { s with counts := counts }.Inv registered :=
  h.sameButAliases ⟨rfl, rfl, fun _ _ => rfl⟩

/-! ### New originals -/

theorem lookup_insert_cases {forward : Table Text Text} {original ph o p : Text}
    (h : (forward.insert original ph).lookup o = some p) :
    o = original ∧ p = ph ∨ o ≠ original ∧ forward.lookup o = some p := by
  by_cases heq : o = original
  · subst heq
    rw [lookup_insert, Option.some.injEq] at h
    exact Or.inl ⟨rfl, h.symm⟩
  · rw [lookup_insert_ne heq] at h
    exact Or.inr ⟨heq, h⟩

/-- A new original with a free pseudonym. -/
theorem Inv.fresh {s : PiiSession} {registered : Table Text PiiEntity} (h : s.Inv registered) {entity : PiiEntity}
    {original ph : Text} (hnew : s.forward.lookup original = none) (hne : ph ≠ original)
    (hfree : s.reverse.lookup ph = none) (halias : isAlias ph = false)
    (hperson : entity = .person → PersonShape ph) :
    Inv { s with
      forward := s.forward.insert original ph
      reverse := s.reverse.insert ph original
      placeholderEntities := s.placeholderEntities.insert ph entity } (registered.insert original entity) := by
  -- the free pseudonym belongs to no other original
  have hother : ∀ o p, s.forward.lookup o = some p → p ≠ ph := by
    rintro o p ho rfl
    obtain ⟨r, hr, -⟩ := h.back o p ho
    rw [hfree] at hr
    exact absurd hr (by simp)
  constructor
  · intro o p ho
    rcases lookup_insert_cases ho with ⟨rfl, rfl⟩ | ⟨-, ho⟩
    · exact ⟨o, lookup_insert _, rfl⟩
    · rw [lookup_insert_ne (hother o p ho)]
      exact h.back o p ho
  · intro o p ho
    rcases lookup_insert_cases ho with ⟨rfl, rfl⟩ | ⟨-, ho⟩
    · exact hne
    · exact h.ne o p ho
  · intro o p ho
    rcases lookup_insert_cases ho with ⟨rfl, rfl⟩ | ⟨-, ho⟩
    · exact halias
    · exact h.notAlias o p ho
  · intro p r hp hr
    dsimp only at hr ⊢
    by_cases hro : r = original
    · rw [hro, lookup_insert]
      rfl
    · rw [lookup_insert_ne hro]
      by_cases hpp : p = ph
      · rw [hpp, lookup_insert, Option.some.injEq] at hr
        exact absurd hr.symm hro
      · rw [lookup_insert_ne hpp] at hr
        exact h.known p r hp hr
  · intro o
    dsimp only
    by_cases ho : o = original
    · rw [ho, lookup_insert, lookup_insert]
      rfl
    · rw [lookup_insert_ne ho, lookup_insert_ne ho]
      exact h.domain o
  · intro o e p ho he hf
    dsimp only
    rcases lookup_insert_cases hf with ⟨rfl, rfl⟩ | ⟨hne', hf⟩
    · rw [lookup_insert] at ho ⊢
      rw [lookup_insert]
      exact ⟨rfl, ho⟩
    · rw [lookup_insert_ne hne'] at ho
      rw [lookup_insert_ne (hother o p hf), lookup_insert_ne (hother o p hf)]
      exact h.exact o e p ho he hf
  · intro p hp
    dsimp only at hp
    by_cases hpp : p = ph
    · rw [hpp, lookup_insert, Option.some.injEq] at hp
      rw [hpp]
      exact hperson hp
    · rw [lookup_insert_ne hpp] at hp
      exact h.person p hp

/-- A new original of a person that shares the pseudonym of a key which differs from it in case only. -/
theorem Inv.share {s : PiiSession} {registered : Table Text PiiEntity} (h : s.Inv registered) {key original ph : Text}
    (hkey : s.forward.lookup key = some ph) (hlower : lower key = lower original)
    (hne : ph ≠ original) :
    Inv { s with forward := s.forward.insert original ph } (registered.insert original .person) := by
  constructor
  · intro o p ho
    rcases lookup_insert_cases ho with ⟨rfl, rfl⟩ | ⟨-, ho⟩
    · obtain ⟨r, hr, hrk⟩ := h.back key p hkey
      exact ⟨r, hr, hrk.trans hlower⟩
    · exact h.back o p ho
  · intro o p ho
    rcases lookup_insert_cases ho with ⟨rfl, rfl⟩ | ⟨-, ho⟩
    · exact hne
    · exact h.ne o p ho
  · intro o p ho
    rcases lookup_insert_cases ho with ⟨rfl, rfl⟩ | ⟨-, ho⟩
    · exact h.notAlias key p hkey
    · exact h.notAlias o p ho
  · intro p r hp hr
    dsimp only at hr ⊢
    by_cases hro : r = original
    · rw [hro, lookup_insert]
      rfl
    · rw [lookup_insert_ne hro]
      exact h.known p r hp hr
  · intro o
    dsimp only
    by_cases ho : o = original
    · rw [ho, lookup_insert, lookup_insert]
      rfl
    · rw [lookup_insert_ne ho, lookup_insert_ne ho]
      exact h.domain o
  · intro o e p ho he hf
    dsimp only at hf ⊢
    rcases lookup_insert_cases hf with ⟨rfl, rfl⟩ | ⟨hne', hf⟩
    · rw [lookup_insert, Option.some.injEq] at ho
      exact absurd ho.symm he
    · rw [lookup_insert_ne hne'] at ho
      exact h.exact o e p ho he hf
  · exact h.person

/-- The pseudonym of a person leads to one of its originals instead of another. -/
theorem Inv.upgrade {s : PiiSession} {registered : Table Text PiiEntity} (h : s.Inv registered) {original ph : Text}
    (hf : s.forward.lookup original = some ph) (hperson : s.placeholderEntities.lookup ph = some .person) :
    Inv { s with reverse := s.reverse.insert ph original } registered := by
  constructor
  · intro o p ho
    by_cases hp : p = ph
    · subst hp
      obtain ⟨r, hr, hro⟩ := h.back o p ho
      obtain ⟨r', hr', hro'⟩ := h.back original p hf
      have : r = r' := by simpa [hr] using hr'
      refine ⟨original, lookup_insert _, ?_⟩
      rw [← hro', ← this, hro]
    · dsimp only
      rw [lookup_insert_ne hp]
      exact h.back o p ho
  · exact h.ne
  · exact h.notAlias
  · intro p r hp hr
    by_cases hpp : p = ph
    · rw [hpp] at hr
      have : original = r := by simpa using hr
      rw [← this]
      simp [hf]
    · dsimp only at hr
      rw [lookup_insert_ne hpp] at hr
      exact h.known p r hp hr
  · exact h.domain
  · intro o e p ho he hfo
    obtain ⟨hr, hent⟩ := h.exact o e p ho he hfo
    refine ⟨?_, hent⟩
    have hpp : p ≠ ph := by
      rintro rfl
      rw [hperson, Option.some.injEq] at hent
      exact he hent.symm
    dsimp only
    rw [lookup_insert_ne hpp]
    exact hr
  · exact h.person

/-! ### Calls and runs -/

/-- A person call that finds its original in another case does no harm: the pseudonym it gives is not the original
itself, and the entry it rewrites belongs to a person. -/
def safeCall (u : CharTables) (s : PiiSession) : Call → Bool
  | .seedExistingPlaceholders _ => true
  | .getOrCreatePlaceholder entity original order =>
    match s.forward.lookup original, if entity = .person then s.findCaseVariant order original else none with
    | none, some (key, ph) =>
      ph != original && (!isCaseUpgrade u key original || s.placeholderEntities.lookup ph == some .person)
    | _, _ => true

/-- All calls of a run do no harm. -/
def safeRun (u : CharTables) (s : PiiSession) : List Call → Bool
  | [] => true
  | c :: calls => s.safeCall u c && (s.call u c).all fun s' => s'.safeRun u calls

theorem Inv.getOrCreatePlaceholder {u : CharTables} {s s' : PiiSession} {registered : Table Text PiiEntity}
    (h : s.Inv registered) {entity : PiiEntity} {original ph : Text} {order : HashOrder}
    (hsafe : s.safeCall u (.getOrCreatePlaceholder entity original order) = true)
    (hcall : s.getOrCreatePlaceholder u entity original order = some (ph, s')) :
    s'.Inv (s.register registered (.getOrCreatePlaceholder entity original order)) := by
  unfold register
  rcases getOrCreatePlaceholder_cases hcall with ⟨hf, rfl⟩ | ⟨hnew, rfl, key, hkey, rfl⟩ |
    ⟨hnew, c, -, s₁, hs₁, hres, s₂, hs₂, rfl⟩
  · simpa [hf] using h
  · simp only [safeCall, hnew, ↓reduceIte, hkey, Bool.and_eq_true, bne_iff_ne, Bool.or_eq_true,
      Bool.not_eq_true', beq_iff_eq] at hsafe
    obtain ⟨hne, hup⟩ := hsafe
    obtain ⟨hfk, hlower⟩ := findCaseVariant_spec hkey
    have hshare := h.share hfk hlower hne
    simp only [hnew, Option.isSome_none, Bool.false_eq_true, ↓reduceIte, shareCaseVariant]
    split
    · rename_i hcase
      rw [hcase] at hup
      have hperson : s.placeholderEntities.lookup ph = some .person := by simpa using hup
      have hupgrade := hshare.upgrade (lookup_insert _) hperson
      exact hupgrade.sameButAliases (registerNameParts_sameButAliases _ _ (h.person ph hperson))
    · exact hshare
  · simp only [hnew, Option.isSome_none, Bool.false_eq_true, ↓reduceIte]
    have halias := resolveCollision_not_alias hres (generatePlaceholder_not_alias entity c original)
    obtain ⟨hne, hfree, -⟩ := resolveCollision_spec hres
    have hrev : s₁.reverse = s.reverse := by rw [hs₁]
    -- a pseudonym that stands for the original already would make the original known
    have hnone : s.reverse.lookup ph = none := by
      rw [hrev] at hfree
      rcases hfree with hfree | hfree
      · exact hfree
      · have := h.known ph original halias hfree
        rw [hnew] at this
        exact absurd this (by simp)
    have hperson : entity = .person → PersonShape ph := by
      rintro rfl
      exact resolveCollision_person hres
    have hfresh : s₂.Inv (registered.insert original entity) := by
      subst hs₂ hs₁
      exact (h.counts (s.counts.insert entity (generatePlaceholder entity c original).2)).fresh hnew hne hnone halias hperson
    split
    · rename_i he
      exact hfresh.sameButAliases (registerNameParts_sameButAliases _ _ (hperson he))
    · exact hfresh

/-- One call keeps the invariant. -/
theorem Inv.call {u : CharTables} {s s' : PiiSession} {registered : Table Text PiiEntity} (h : s.Inv registered)
    {c : Call} (hsafe : s.safeCall u c = true) (hcall : s.call u c = some s') :
    s'.Inv (s.register registered c) := by
  cases c with
  | seedExistingPlaceholders text =>
    obtain ⟨counts, hcounts⟩ := seedExistingPlaceholders_eq s text
    simp only [PiiSession.call, Option.some.injEq, hcounts] at hcall
    subst hcall
    exact h.counts counts
  | getOrCreatePlaceholder entity original order =>
    simp only [PiiSession.call, Option.map_eq_some_iff] at hcall
    obtain ⟨⟨ph, s₁⟩, hcall, rfl⟩ := hcall
    exact h.getOrCreatePlaceholder hsafe hcall

/-- So does a sequence of calls. -/
theorem Inv.runFrom {u : CharTables} {calls : List Call} {s s' : PiiSession} {registered registered' : Table Text PiiEntity}
    (h : s.Inv registered) (hsafe : s.safeRun u calls = true)
    (hrun : s.runFrom u registered calls = some (s', registered')) : s'.Inv registered' := by
  induction calls generalizing s registered with
  | nil =>
    simp only [PiiSession.runFrom, Option.some.injEq, Prod.mk.injEq] at hrun
    obtain ⟨rfl, rfl⟩ := hrun
    exact h
  | cons c calls ih =>
    simp only [PiiSession.runFrom, Option.bind_eq_some_iff] at hrun
    obtain ⟨s₁, hcall, hrun⟩ := hrun
    simp only [safeRun, hcall, Option.all_some, Bool.and_eq_true] at hsafe
    exact ih (h.call hsafe.1 hcall) hsafe.2 hrun

/-! ### Reversibility -/

/-- The pseudonym table of a session can be reversed. -/
structure Reversible (s : PiiSession) (registered : Table Text PiiEntity) : Prop where
  /-- The pseudonym of an original that is not a person leads back to it. -/
  exact : ∀ o e, registered.lookup o = some e → e ≠ .person →
    ∃ ph, s.forward.lookup o = some ph ∧ s.reverse.lookup ph = some o
  /-- That of a person leads back up to ASCII case. -/
  person : ∀ o, registered.lookup o = some .person →
    ∃ ph r, s.forward.lookup o = some ph ∧ s.reverse.lookup ph = some r ∧ eqIgnoreAsciiCase r o = true
  /-- No original is its own pseudonym. -/
  ne : ∀ o ph, s.forward.lookup o = some ph → ph ≠ o
  /-- Originals that differ by more than ASCII case have different pseudonyms. -/
  separate : ∀ o o' ph, s.forward.lookup o = some ph → s.forward.lookup o' = some ph → eqIgnoreAsciiCase o o' = true

theorem Inv.reversible {s : PiiSession} {registered : Table Text PiiEntity} (h : s.Inv registered) :
    s.Reversible registered := by
  have hforward : ∀ o e, registered.lookup o = some e → ∃ ph, s.forward.lookup o = some ph := by
    intro o e ho
    have := h.domain o
    rw [ho, Option.isSome_some] at this
    exact Option.isSome_iff_exists.mp this.symm
  constructor
  · intro o e ho he
    obtain ⟨ph, hph⟩ := hforward o e ho
    exact ⟨ph, hph, (h.exact o e ph ho he hph).1⟩
  · intro o ho
    obtain ⟨ph, hph⟩ := hforward o _ ho
    obtain ⟨r, hr, hro⟩ := h.back o ph hph
    exact ⟨ph, r, hph, hr, eqIgnoreAsciiCase_iff.mpr hro⟩
  · exact h.ne
  · intro o o' ph ho ho'
    obtain ⟨r, hr, hro⟩ := h.back o ph ho
    obtain ⟨r', hr', hro'⟩ := h.back o' ph ho'
    have : r = r' := by simpa [hr] using hr'
    rw [eqIgnoreAsciiCase_iff, ← hro, this, hro']

/-- Reversibility of the pseudonym table, in the session after any run all of whose calls are safe. -/
theorem run_reversible (u : CharTables) (reversible : Bool) (calls : List Call) (s : PiiSession)
    (registered : Table Text PiiEntity) (hrun : run u reversible calls = some (s, registered))
    (hsafe : (new reversible).safeRun u calls = true) : s.Reversible registered :=
  ((new_inv reversible).runFrom hsafe hrun).reversible

/-- The calls for a person in small letters and then with capitals. -/
def personCalls : List Call :=
  [.getOrCreatePlaceholder .email "bob@example.com".toList .latestFirst,
    .getOrCreatePlaceholder .person "bob jones".toList .latestFirst,
    .getOrCreatePlaceholder .person "Bob Jones".toList .latestFirst]

/-- A run of safe calls in which a person is met in two cases. -/
theorem run_reversible_person :
    ∃ s registered, run .ascii true personCalls = some (s, registered) ∧ s.Reversible registered := by
  have hsome : (run .ascii true personCalls).isSome = true := by decide
  obtain ⟨⟨s, registered⟩, hrun⟩ := Option.isSome_iff_exists.mp hsome
  exact ⟨s, registered, hrun, run_reversible .ascii true personCalls s registered hrun (by decide)⟩

/-- The calls for an address and then for a person of the same name in another case. -/
def addressCalls : List Call :=
  [.getOrCreatePlaceholder .email "bob@example.com".toList .latestFirst,
    .getOrCreatePlaceholder .person "Bob@example.com".toList .latestFirst]

/-- The person takes the address over: the pseudonym of `bob@example.com`, registered as an address, leads to
`Bob@example.com`. -/
theorem run_person_after_email :
    ∃ s registered, run .ascii true addressCalls = some (s, registered) ∧
      registered.lookup "bob@example.com".toList = some .email ∧
      s.forward.lookup "bob@example.com".toList = some "alex.turner1@fastmail.com".toList ∧
      s.reverse.lookup "alex.turner1@fastmail.com".toList = some "Bob@example.com".toList ∧
      ¬ s.Reversible registered := by
  have hread : (run .ascii true addressCalls).map (fun r => (r.2.lookup "bob@example.com".toList,
      r.1.forward.lookup "bob@example.com".toList, r.1.reverse.lookup "alex.turner1@fastmail.com".toList)) =
      some (some .email, some "alex.turner1@fastmail.com".toList, some "Bob@example.com".toList) := by decide
  simp only [Option.map_eq_some_iff, Prod.mk.injEq] at hread
  obtain ⟨⟨s, registered⟩, hrun, hreg, hf, hr⟩ := hread
  refine ⟨s, registered, hrun, hreg, hf, hr, ?_⟩
  intro h
  obtain ⟨ph, hf', hr'⟩ := h.exact _ _ hreg (by decide)
  rw [hf, Option.some.injEq] at hf'
  rw [← hf', hr] at hr'
  exact absurd hr' (by decide)

end PiiSession

end OpenProxy.Pii
