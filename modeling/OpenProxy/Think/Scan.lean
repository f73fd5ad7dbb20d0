import OpenProxy.Think.Extractor

/-!
# The reference scanner

A left-to-right scan of a whole text that reads one character at a time and knows whether it is inside a reasoning
block.  It says what the two extractors are for: the characters outside the blocks are content, those inside are
reasoning, the tags are neither.  The scan also notes every position outside a block at which a close tag starts.
-/

namespace OpenProxy.Think

/-- A character of the scanned text that belongs to no tag: outside the blocks (with a note whether a close tag
starts there), or inside one. -/
inductive Token
  | outside (c : Char) (orphan : Bool)
  | inside (c : Char)
  deriving DecidableEq, Repr

/-- The open tag at the start of a text, with its close tag. -/
def openTagAt (s : Text) : Option (Text × Text) :=
  (thinkOpenTags.zip thinkCloseTags).find? fun tags => startsWithIgnoreAsciiCase s tags.1

/-- A close tag stands at the start of the text. -/
def closeTagAt (s : Text) : Bool := thinkCloseTags.any fun tag => startsWithIgnoreAsciiCase s tag

/-- What the scan of a piece of text leaves behind: its tokens, the close tag of the block that is open at its end,
and the number of characters of a tag that are still to be skipped there. -/
structure Scanned where
  toks : List Token
  mode : Option Text
  skip : Nat
  deriving DecidableEq, Repr

/-- The scan of a piece of text that is followed by `next`, in the given mode and with `skip` characters of a tag
still to be skipped. -/
@[simp] def scan : Option Text → Nat → Text → Text → Scanned
  | mode, skip, [], _ => ⟨[], mode, skip⟩
  | mode, skip + 1, _ :: s, next => scan mode skip s next
  | none, 0, c :: s, next =>
    match openTagAt (c :: s ++ next) with
    | some tags => scan (some tags.2) (tags.1.length - 1) s next
    | none =>
      let r := scan none 0 s next
      { r with toks := .outside c (closeTagAt (c :: s ++ next)) :: r.toks }
  | some ct, 0, c :: s, next =>
    if startsWithIgnoreAsciiCase (c :: s ++ next) ct then scan none (ct.length - 1) s next
    else
      let r := scan (some ct) 0 s next
      { r with toks := .inside c :: r.toks }

/-- The tokens of a whole text. -/
def scanAll (t : Text) : List Token := (scan none 0 t []).toks

def contentOf (toks : List Token) : Text :=
  toks.filterMap fun | .outside c _ => some c | .inside _ => none

def reasoningOf (toks : List Token) : Text :=
  toks.filterMap fun | .outside _ _ => none | .inside c => some c

/-- No close tag was met outside the blocks. -/
def orphanFree (toks : List Token) : Bool :=
  toks.all fun | .outside _ orphan => !orphan | .inside _ => true

/-- A left-to-right scan of the text meets no close tag outside an open block. -/
def OrphanFree (t : Text) : Prop := orphanFree (scanAll t) = true

instance (t : Text) : Decidable (OrphanFree t) := inferInstanceAs (Decidable (_ = true))

@[simp] theorem contentOf_nil : contentOf [] = [] := rfl

@[simp] theorem reasoningOf_nil : reasoningOf [] = [] := rfl

@[simp] theorem contentOf_append (a b : List Token) : contentOf (a ++ b) = contentOf a ++ contentOf b :=
  List.filterMap_append

@[simp] theorem reasoningOf_append (a b : List Token) : reasoningOf (a ++ b) = reasoningOf a ++ reasoningOf b :=
  List.filterMap_append

@[simp] theorem orphanFree_append (a b : List Token) :
    orphanFree (a ++ b) = (orphanFree a && orphanFree b) := List.all_append

/-! ### The shape of the tags -/

/-- What the scanners use of the shape of a tag: it starts with `<`, has no other `<`, and has no capitals. -/
def isTag (tag : Text) : Bool :=
  match tag with
  | [] => false
  | c :: s => c == '<' && !s.contains '<' && lower (c :: s) == c :: s

theorem isTag_of_open {tags : Text × Text} (h : tags ∈ thinkOpenTags.zip thinkCloseTags) :
    isTag tags.1 = true ∧ isTag tags.2 = true ∧ 7 ≤ tags.1.length ∧ tags.1.length ≤ 11 ∧ 8 ≤ tags.2.length ∧
      tags.2 ∈ thinkCloseTags ∧ tags.1 ∈ thinkOpenTags := by
  revert tags
  simp only [thinkOpenTags, thinkCloseTags]
  decide

theorem isTag_of_close {tag : Text} (h : tag ∈ thinkCloseTags) : isTag tag = true ∧ 8 ≤ tag.length := by
  revert tag
  simp only [thinkCloseTags]
  decide

theorem isTag_cons {tag : Text} (h : isTag tag = true) :
    ∃ s, tag = '<' :: s ∧ '<' ∉ s ∧ lower tag = tag := by
  cases tag with
  | nil => simp [isTag] at h
  | cons c s =>
    simp only [isTag, Bool.and_eq_true, beq_iff_eq, Bool.not_eq_true', List.contains_eq_mem,
      decide_eq_false_iff_not] at h
    obtain ⟨⟨rfl, hs⟩, hl⟩ := h
    exact ⟨s, rfl, hs, hl⟩

/-- A text that begins with a tag begins with `<`. -/
theorem head_of_startsWith {s tag : Text} (ht : isTag tag = true) (h : startsWithIgnoreAsciiCase s tag = true) :
    ∃ s', s = '<' :: s' := by
  obtain ⟨s', rfl, -, hl⟩ := isTag_cons ht
  rw [startsWith_iff, hl] at h
  cases s with
  | nil => simp at h
  | cons c s =>
    rw [lower_cons, List.cons_prefix_cons] at h
    exact ⟨s, by rw [eq_of_toLower_eq (by decide) h.1.symm]⟩

/-- No tag begins at a character other than `<`. -/
theorem not_startsWith_of_ne {c : Char} {s tag : Text} (hc : c ≠ '<') (ht : isTag tag = true) :
    startsWithIgnoreAsciiCase (c :: s) tag = false := by
  rw [Bool.eq_false_iff]
  intro h
  obtain ⟨s', hs⟩ := head_of_startsWith ht h
  simp only [List.cons.injEq] at hs
  exact hc hs.1

theorem openTagAt_eq_none {s : Text} :
    openTagAt s = none ↔ ∀ tag ∈ thinkOpenTags, startsWithIgnoreAsciiCase s tag = false := by
  simp [openTagAt, thinkOpenTags, thinkCloseTags]

theorem openTagAt_eq_some {s : Text} {tags : Text × Text} (h : openTagAt s = some tags) :
    tags ∈ thinkOpenTags.zip thinkCloseTags ∧ startsWithIgnoreAsciiCase s tags.1 = true := by
  unfold openTagAt at h
  have hp := List.find?_some h
  exact ⟨List.mem_of_find?_eq_some h, hp⟩

theorem closeTagAt_eq_false {s : Text} :
    closeTagAt s = false ↔ ∀ tag ∈ thinkCloseTags, startsWithIgnoreAsciiCase s tag = false := by
  simp [closeTagAt]

theorem openTagAt_cons_ne {c : Char} {s : Text} (hc : c ≠ '<') : openTagAt (c :: s) = none := by
  rw [openTagAt_eq_none]
  intro tag ht
  have hshape : ∀ tag ∈ thinkOpenTags, isTag tag = true := by
    simp only [thinkOpenTags]
    decide
  exact not_startsWith_of_ne hc (hshape tag ht)

/-! ### Runs of the scan -/

/-- The scan of two pieces is the scan of the first, then the scan of the second from where the first stopped. -/
theorem scan_append (mode : Option Text) (skip : Nat) (a b next : Text) :
    scan mode skip (a ++ b) next =
      ⟨(scan mode skip a (b ++ next)).toks ++
          (scan (scan mode skip a (b ++ next)).mode (scan mode skip a (b ++ next)).skip b next).toks,
        (scan (scan mode skip a (b ++ next)).mode (scan mode skip a (b ++ next)).skip b next).mode,
        (scan (scan mode skip a (b ++ next)).mode (scan mode skip a (b ++ next)).skip b next).skip⟩ := by
  induction a generalizing mode skip with
  | nil => simp [scan]
  | cons c a ih =>
    cases skip with
    | succ skip => simp only [List.cons_append, scan, ih]
    | zero =>
      cases mode with
      | none =>
        simp only [List.cons_append, scan, List.append_assoc]
        cases openTagAt (c :: (a ++ (b ++ next))) <;> simp [ih]
      | some ct =>
        simp only [List.cons_append, scan, List.append_assoc]
        cases startsWithIgnoreAsciiCase (c :: (a ++ (b ++ next))) ct <;> simp [ih]

theorem scan_trans {mode mode' mode'' : Option Text} {a b next : Text} {toks toks' : List Token}
    (h : scan mode 0 a (b ++ next) = ⟨toks, mode', 0⟩) (h' : scan mode' 0 b next = ⟨toks', mode'', 0⟩) :
    scan mode 0 (a ++ b) next = ⟨toks ++ toks', mode'', 0⟩ := by
  rw [scan_append]
  simp only [h, h']

/-- The characters of a tag are skipped. -/
theorem scan_skip (mode : Option Text) {a : Text} {skip : Nat} (h : a.length ≤ skip) (next : Text) :
    scan mode skip a next = ⟨[], mode, skip - a.length⟩ := by
  induction a generalizing skip with
  | nil => rfl
  | cons c a ih =>
    cases skip with
    | zero => simp at h
    | succ skip =>
      rw [scan, ih (by simpa using h)]
      simp

/-- An open tag that is complete switches the scan to the inside of its block. -/
theorem scan_open {a next : Text} {tags : Text × Text} (h : openTagAt (a ++ next) = some tags)
    (hlen : a.length = tags.1.length) : scan none 0 a next = ⟨[], some tags.2, 0⟩ := by
  have h7 := (isTag_of_open (openTagAt_eq_some h).1).2.2.1
  cases a with
  | nil =>
    simp only [List.length_nil] at hlen
    omega
  | cons c a =>
    simp only [List.length_cons] at hlen
    simp only [scan, h]
    rw [scan_skip _ (by omega)]
    simp [← hlen]

/-- The close tag switches it back. -/
theorem scan_close {a next ct : Text} (hct : ct ∈ thinkCloseTags)
    (h : startsWithIgnoreAsciiCase (a ++ next) ct = true) (hlen : a.length = ct.length) :
    scan (some ct) 0 a next = ⟨[], none, 0⟩ := by
  have h8 := (isTag_of_close hct).2
  cases a with
  | nil =>
    simp only [List.length_nil] at hlen
    omega
  | cons c a =>
    simp only [List.length_cons] at hlen
    simp only [scan, h, ↓reduceIte]
    rw [scan_skip _ (by omega)]
    simp [← hlen]

/-- The tokens of a piece `a` of text outside the blocks that is followed by `b`. -/
def outs : Text → Text → List Token
  | [], _ => []
  | c :: a, b => .outside c (closeTagAt (c :: a ++ b)) :: outs a b

@[simp] theorem contentOf_outs (a b : Text) : contentOf (outs a b) = a := by
  induction a with
  | nil => rfl
  | cons c a ih =>
    change c :: contentOf (outs a b) = c :: a
    rw [ih]

@[simp] theorem reasoningOf_outs (a b : Text) : reasoningOf (outs a b) = [] := by
  induction a with
  | nil => rfl
  | cons c a ih => exact ih

@[simp] theorem contentOf_inside (a : Text) : contentOf (a.map Token.inside) = [] := by
  induction a with
  | nil => rfl
  | cons c a ih => exact ih

@[simp] theorem reasoningOf_inside (a : Text) : reasoningOf (a.map Token.inside) = a := by
  induction a with
  | nil => rfl
  | cons c a ih =>
    change c :: reasoningOf (a.map Token.inside) = c :: a
    rw [ih]

theorem orphanFree_outs {a b : Text} :
    orphanFree (outs a b) = true ↔ ∀ n < a.length, closeTagAt ((a ++ b).drop n) = false := by
  induction a with
  | nil => simp [outs, orphanFree]
  | cons c a ih =>
    change (!closeTagAt (c :: a ++ b) && orphanFree (outs a b)) = true ↔ _
    rw [Bool.and_eq_true, ih, Bool.not_eq_true']
    constructor
    · rintro ⟨h0, h⟩ n hn
      cases n with
      | zero => exact h0
      | succ n => exact h n (by simpa using hn)
    · intro h
      exact ⟨h 0 (by simp), fun n hn => h (n + 1) (by simpa using hn)⟩

/-- A piece of text in which no open tag starts is outside. -/
theorem scan_outs {a next : Text} (h : ∀ n < a.length, openTagAt ((a ++ next).drop n) = none) :
    scan none 0 a next = ⟨outs a next, none, 0⟩ := by
  induction a with
  | nil => rfl
  | cons c a ih =>
    have h0 : openTagAt (c :: a ++ next) = none := h 0 (by simp)
    have hr := ih fun n hn => h (n + 1) (by simpa using hn)
    simp only [scan, h0, outs, hr]

/-- A piece of text inside a block in which its close tag does not start is inside. -/
theorem scan_inside {ct a next : Text}
    (h : ∀ n < a.length, startsWithIgnoreAsciiCase ((a ++ next).drop n) ct = false) :
    scan (some ct) 0 a next = ⟨a.map Token.inside, some ct, 0⟩ := by
  induction a with
  | nil => rfl
  | cons c a ih =>
    have h0 : startsWithIgnoreAsciiCase (c :: a ++ next) ct = false := h 0 (by simp)
    have hr := ih fun n hn => h (n + 1) (by simpa using hn)
    simp only [scan, h0, Bool.false_eq_true, ↓reduceIte, hr, List.map_cons]

end OpenProxy.Think
