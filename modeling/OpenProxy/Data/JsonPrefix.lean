import OpenProxy.Data.JsonDecode
import OpenProxy.Data.JsonTokens

/-!
# Documents that are cut off

What the reader knows of a document at a place inside it: the brackets that are missing, the members of the outermost object
that are complete, and how deep the document is so far.  From there on only more members come and the document becomes only
deeper; the missing brackets after a value complete the document, and make it no deeper (`exists_closed`).
-/

namespace OpenProxy

open Json

theorem hexValue_of_isWhitespace {c : Char} (h : isWhitespace c = true) : hexValue c = none := by
  unfold hexValue
  dsimp only
  simp only [isWhitespace, Bool.or_eq_true, Bool.and_eq_true, beq_iff_eq, decide_eq_true_eq] at h
  rw [if_neg (by omega), if_neg (by omega), if_neg (by omega)]

/-- No escape sequence begins with white space. -/
theorem afterEscape_of_isWhitespace {c : Char} (h : isWhitespace c = true) (w : Text) : afterEscape w c = none := by
  have hne : ∀ d : Char, isWhitespace d = false → c ≠ d := by
    rintro d hd rfl
    rw [hd] at h
    cases h
  have hsame : ¬ (c = '"' ∨ c = '\\' ∨ c = '/') := by
    rintro (hc | hc | hc) <;> exact hne _ (by decide) hc
  rw [afterEscape, if_neg hsame, if_neg (hne _ (by decide)), if_neg (hne _ (by decide)), if_neg (hne _ (by decide)),
    if_neg (hne _ (by decide)), if_neg (hne _ (by decide)), if_neg (hne _ (by decide))]

/-! ### Places in a text -/

/-- Between the quotes of a string. -/
def LexState.inQuote : LexState → Bool
  | .between | .word _ => false
  | _ => true

/-- After a backslash. -/
def LexState.escaped : LexState → Bool
  | .escape _ | .surrogateEscape _ _ => true
  | _ => false

/-- In an escape sequence, or between the two halves of a surrogate pair. -/
def LexState.inEscape : LexState → Bool
  | .between | .word _ | .string _ => false
  | _ => true

/-- The reader waits for a value. -/
def ReadState.expectsValue : ReadState → Bool
  | .value _ | .firstItem _ => true
  | _ => false

/-- White space is between tokens, if it is white space of JSON. -/
theorem lexBetween_of_isWhitespace {c : Char} (h : isWhitespace c = true) :
    lexBetween c = none ∨ lexBetween c = some (.between, []) := by
  have hpunctuation : punctuation c = none := by
    unfold punctuation
    repeat' split
    all_goals first | rfl | (rename_i hc; subst hc; revert h; decide)
  have hquote : c ≠ '"' := by
    rintro rfl
    revert h
    decide
  have hword := not_isWordChar_of_isWhitespace h
  unfold lexBetween
  rw [hpunctuation]
  dsimp only
  by_cases hspace : isJsonWhitespace c = true
  · rw [if_pos hspace]
    exact Or.inr rfl
  · rw [if_neg hspace, if_neg hquote, if_neg (by rw [hword]; exact Bool.false_ne_true)]
    exact Or.inl rfl

theorem lexFrom_lead {lead t : Text} (hlead : ∀ c ∈ lead, isWhitespace c = true) {y : LexState} {ts : List Token}
    (h : lexFrom .between (lead ++ t) = some (y, ts)) : lexFrom .between t = some (y, ts) := by
  induction lead with
  | nil => exact h
  | cons c lead ih =>
    refine ih (fun d hd => hlead d (List.mem_cons_of_mem _ hd)) ?_
    obtain ⟨x₁, us, vs, hstep, hrest, rfl⟩ := exists_lexFrom_cons h
    rcases lexBetween_of_isWhitespace (hlead c List.mem_cons_self) with hc | hc
    · rw [lexStep, hc] at hstep
      cases hstep
    · rw [lexStep, hc] at hstep
      cases hstep
      exact hrest

/-- White space in a string is read; elsewhere it completes a word. -/
theorem lexStep_of_isWhitespace {x y : LexState} {c : Char} {ts : List Token} (hc : isWhitespace c = true)
    (h : lexStep x c = some (y, ts)) :
    (∃ w w', x = .string w ∧ y = .string w' ∧ ts = []) ∨ (x.inQuote = false ∧ y = .between ∧ lexEnd x = some ts) := by
  have hword := not_isWordChar_of_isWhitespace hc
  cases x with
  | between =>
    rcases lexBetween_of_isWhitespace hc with hnone | hspace
    · rw [lexStep, hnone] at h
      cases h
    · rw [lexStep, hspace] at h
      cases h
      exact Or.inr ⟨rfl, rfl, rfl⟩
  | word w =>
    rw [lexStep, if_neg (by rw [hword]; exact Bool.false_ne_true)] at h
    obtain ⟨token, htoken, h⟩ := Option.bind_eq_some_iff.mp h
    obtain ⟨⟨z, us⟩, hnext, heq⟩ := Option.map_eq_some_iff.mp h
    rcases lexBetween_of_isWhitespace hc with hnone | hspace
    · rw [hnone] at hnext
      cases hnext
    · rw [hspace] at hnext
      cases hnext
      cases heq
      exact Or.inr ⟨rfl, rfl, by rw [lexEnd, htoken]; rfl⟩
  | string w =>
    have hne : c ≠ '"' ∧ c ≠ '\\' := by
      constructor <;> (rintro rfl; revert hc; decide)
    rw [lexStep, if_neg hne.1, if_neg hne.2] at h
    split at h
    · cases h
    · cases h
      exact Or.inl ⟨w, _, rfl, rfl, rfl⟩
  | escape w =>
    obtain ⟨z, hz, -⟩ := Option.map_eq_some_iff.mp h
    rw [afterEscape_of_isWhitespace hc] at hz
    cases hz
  | surrogate w high =>
    rw [lexStep] at h
    split at h
    · rename_i heq
      subst heq
      exact absurd hc (by decide)
    · cases h
  | surrogateEscape w high =>
    rw [lexStep] at h
    split at h
    · rename_i heq
      subst heq
      exact absurd hc (by decide)
    · cases h
  | unicode w hex | low w high hex =>
    obtain ⟨z, hz, -⟩ := Option.map_eq_some_iff.mp h
    obtain ⟨d, hd, -⟩ := Option.bind_eq_some_iff.mp hz
    rw [hexValue_of_isWhitespace hc] at hd
    cases hd

section

variable {trail : Text} {x y : LexState} {ts : List Token}

theorem lexFrom_trail_string (htrail : ∀ c ∈ trail, isWhitespace c = true) {w : Text}
    (h : lexFrom x trail = some (.string w, ts)) : ts = [] ∧ ∃ w', x = .string w' := by
  induction trail generalizing x ts with
  | nil =>
    cases h
    exact ⟨rfl, w, rfl⟩
  | cons c trail ih =>
    obtain ⟨x₁, us, vs, hstep, hrest, rfl⟩ := exists_lexFrom_cons h
    obtain ⟨rfl, w₁, hx₁⟩ := ih (fun d hd => htrail d (List.mem_cons_of_mem _ hd)) hrest
    rcases lexStep_of_isWhitespace (htrail c List.mem_cons_self) hstep with ⟨w', w'', hx, -, rfl⟩ | ⟨-, hy, -⟩
    · exact ⟨rfl, w', hx⟩
    · exact LexState.noConfusion (hx₁.symm.trans hy)

/-- No white space follows inside an escape sequence. -/
theorem trail_eq_nil (htrail : ∀ c ∈ trail, isWhitespace c = true) (h : lexFrom x trail = some (y, ts))
    (hy : y.inEscape = true) : trail = [] := by
  induction trail generalizing x ts with
  | nil => rfl
  | cons c trail ih =>
    obtain ⟨x₁, us, vs, hstep, hrest, rfl⟩ := exists_lexFrom_cons h
    have hnil := ih (fun d hd => htrail d (List.mem_cons_of_mem _ hd)) hrest
    rw [hnil] at hrest
    cases hrest
    rcases lexStep_of_isWhitespace (htrail c List.mem_cons_self) hstep with ⟨-, w', -, rfl, -⟩ | ⟨-, rfl, -⟩ <;> cases hy

/-- White space at the end completes nothing that the end would not. -/
theorem lexEnd_trail (htrail : ∀ c ∈ trail, isWhitespace c = true) (h : lexFrom x trail = some (y, ts)) {us : List Token}
    (hy : lexEnd y = some us) : lexEnd x = some (ts ++ us) := by
  induction trail generalizing x ts with
  | nil =>
    cases h
    exact hy
  | cons c trail ih =>
    obtain ⟨x₁, vs, vs', hstep, hrest, rfl⟩ := exists_lexFrom_cons h
    have hend := ih (fun d hd => htrail d (List.mem_cons_of_mem _ hd)) hrest
    rcases lexStep_of_isWhitespace (htrail c List.mem_cons_self) hstep with ⟨-, w', -, rfl, -⟩ | ⟨-, rfl, hx⟩
    · cases hend
    · rw [lexEnd, Option.some.injEq] at hend
      rw [hx, List.append_assoc, ← hend, List.append_nil]

end

/-! ### What is missing -/

def Frame.closer : Frame → Char
  | .array _ => ']'
  | .object _ _ => '\x7d'

def Frame.closeToken : Frame → Token
  | .array _ => .closeBracket
  | .object _ _ => .closeBrace

/-- The brackets that are missing, the innermost one first. -/
def ReadState.missing : ReadState → Text
  | .value stack => stack.map Frame.closer
  | .firstItem stack | .items _ stack => ']' :: stack.map Frame.closer
  | .firstKey stack | .fields _ stack | .key _ stack | .colon _ _ stack => '\x7d' :: stack.map Frame.closer
  | .done _ => []

theorem missing_deliver (v : Json) (stack : List Frame) : (deliver v stack).missing = stack.map Frame.closer := by
  cases stack with
  | nil => rfl
  | cons frame stack => cases frame <;> rfl

/-- What a token does to the missing brackets. -/
def Token.shift (missing : Text) : Token → Text
  | .openBrace => '\x7d' :: missing
  | .openBracket => ']' :: missing
  | .closeBrace | .closeBracket => missing.tail
  | _ => missing

/-- A closing bracket is the one that is missing. -/
def Token.Closes (missing : Text) : Token → Prop
  | .closeBrace => missing.head? = some '\x7d'
  | .closeBracket => missing.head? = some ']'
  | _ => True

theorem missing_readValue {stack : List Frame} {token : Token} {r : ReadState} (h : readValue stack token = some r) :
    r.missing = token.shift (stack.map Frame.closer) ∧ token.Closes (stack.map Frame.closer) := by
  cases token <;> cases h
  case openBrace => exact ⟨rfl, trivial⟩
  case openBracket => exact ⟨rfl, trivial⟩
  all_goals exact ⟨missing_deliver _ _, trivial⟩

/-- At the beginning of an array it is closed, or its first item comes. -/
theorem readStep_firstItem {stack : List Frame} {token : Token} {r : ReadState}
    (h : readStep (.firstItem stack) token = some r) :
    token = .closeBracket ∧ r = deliver (.array []) stack ∨ readValue (.array [] :: stack) token = some r := by
  cases token with
  | closeBracket => exact Or.inl ⟨rfl, (Option.some.inj h).symm⟩
  | _ => exact Or.inr h

theorem missing_readStep {r r' : ReadState} {token : Token} (h : readStep r token = some r') :
    r'.missing = token.shift r.missing ∧ token.Closes r.missing := by
  cases r with
  | value stack => exact missing_readValue h
  | firstItem stack =>
    rcases readStep_firstItem h with ⟨rfl, rfl⟩ | h
    · exact ⟨missing_deliver _ _, rfl⟩
    · exact missing_readValue h
  | firstKey stack | fields fs stack | key fs stack | colon fs name stack | items vs stack =>
    cases token <;> cases h <;> first | exact ⟨rfl, trivial⟩ | exact ⟨missing_deliver _ _, rfl⟩
  | done v => cases token <;> cases h

/-! ### The outermost object -/

/-- The members of the outermost object that are complete, and the name of the one that is not. -/
def outermost : List Frame → List (Text × Json) × Option Text
  | [] => ([], none)
  | [.array _] => ([], none)
  | [.object fields key] => (fields, some key)
  | _ :: frame :: stack => outermost (frame :: stack)

def ReadState.outermost : ReadState → List (Text × Json) × Option Text
  | .fields fs [] | .key fs [] | .done (.object fs) => (fs, none)
  | .colon fs name [] => (fs, some name)
  | .value stack | .firstItem stack | .items _ stack | .firstKey stack | .fields _ stack | .key _ stack
  | .colon _ _ stack => OpenProxy.outermost stack
  | .done _ => ([], none)

def ReadState.members (r : ReadState) : List (Text × Json) := r.outermost.1

/-- The names in an object, also of the member that is not complete. -/
def namesOf : List (Text × Json) × Option Text → List Text
  | (fields, none) => fields.map Prod.fst
  | (fields, some name) => fields.map Prod.fst ++ [name]

def ReadState.names (r : ReadState) : List Text := namesOf r.outermost

/-- Members and names are kept. -/
structure Grows (o o' : List (Text × Json) × Option Text) : Prop where
  members : o.1 <+: o'.1
  names : namesOf o <+: namesOf o'

theorem Grows.refl (o : List (Text × Json) × Option Text) : Grows o o := ⟨List.prefix_rfl, List.prefix_rfl⟩

theorem Grows.nil (o : List (Text × Json) × Option Text) : Grows ([], none) o := ⟨List.nil_prefix, List.nil_prefix⟩

theorem names_deliver (v : Json) (frame : Frame) (stack : List Frame) :
    (deliver v (frame :: stack)).names = namesOf (outermost (frame :: stack)) := by
  cases stack with
  | nil =>
    cases frame with
    | array items => rfl
    | object fields key => exact List.map_append
  | cons frame' stack => cases frame <;> rfl

theorem grows_deliver (v : Json) (stack : List Frame) : Grows (outermost stack) (deliver v stack).outermost := by
  cases stack with
  | nil => exact Grows.nil _
  | cons frame stack =>
    refine ⟨?_, (names_deliver v frame stack).symm ▸ List.prefix_rfl⟩
    cases stack with
    | nil =>
      cases frame with
      | array items => exact List.prefix_rfl
      | object fields key => exact List.prefix_append _ _
    | cons frame' stack => cases frame <;> exact List.prefix_rfl

theorem grows_readValue {stack : List Frame} {token : Token} {r : ReadState} (h : readValue stack token = some r) :
    Grows (outermost stack) r.outermost := by
  cases token <;> cases h
  case openBrace => exact Grows.refl _
  case openBracket => exact Grows.refl _
  all_goals exact grows_deliver _ stack

theorem grows_readStep {r r' : ReadState} {token : Token} (h : readStep r token = some r') :
    Grows r.outermost r'.outermost := by
  cases r with
  | value stack => exact grows_readValue h
  | firstItem stack =>
    rcases readStep_firstItem h with ⟨rfl, rfl⟩ | h
    · exact grows_deliver _ stack
    · cases stack with
      | nil => exact Grows.nil _
      | cons frame stack =>
        have hgrows : Grows (outermost (.array [] :: frame :: stack)) r'.outermost := grows_readValue h
        exact hgrows
  | firstKey stack =>
    cases token <;> cases h
    · exact grows_deliver _ stack
    · cases stack with
      | nil => exact Grows.nil _
      | cons frame stack => exact Grows.refl _
  | items vs stack =>
    cases token <;> cases h
    · exact grows_deliver _ stack
    · cases stack <;> exact Grows.refl _
  | fields fs stack =>
    cases token <;> cases h
    · cases stack with
      | nil => exact Grows.refl _
      | cons frame stack => exact grows_deliver _ _
    · cases stack <;> exact Grows.refl _
  | key fs stack =>
    cases token <;> cases h
    cases stack with
    | nil => exact ⟨List.prefix_rfl, List.prefix_append _ _⟩
    | cons frame stack => exact Grows.refl _
  | colon fs name stack =>
    cases token <;> cases h
    cases stack <;> exact Grows.refl _
  | done v => cases token <;> cases h

/-- Members that are complete stay, and names stay. -/
theorem grows_watch {r r' : ReadState} {ts : List Token} (h : watch readStep r ts = some r') :
    Grows r.outermost r'.outermost := by
  have hstep : ∀ m token m', Grows r.outermost m.outermost → readStep m token = some m' → Grows r.outermost m'.outermost :=
    fun m token m' hm h => ⟨hm.members.trans (grows_readStep h).members, hm.names.trans (grows_readStep h).names⟩
  exact doomed_watch hstep (Grows.refl _) h

/-! ### Depth -/

/-- The depth of the document when a value of depth `d` is put into the innermost frame and all frames are closed. -/
def closeDepth (d : Nat) : List Frame → Nat
  | [] => d
  | .array items :: stack => closeDepth (max (itemsDepth items) d + 1) stack
  | .object fields _ :: stack => closeDepth (max (fieldsDepth fields) d + 1) stack

/-- How deep the document is so far. -/
def ReadState.depth : ReadState → Nat
  | .value stack => closeDepth 0 stack
  | .firstItem stack | .firstKey stack => closeDepth 1 stack
  | .items vs stack => closeDepth (itemsDepth vs + 1) stack
  | .fields fs stack | .key fs stack | .colon fs _ stack => closeDepth (fieldsDepth fs + 1) stack
  | .done v => v.depth

theorem closeDepth_mono {d d' : Nat} (h : d ≤ d') (stack : List Frame) : closeDepth d stack ≤ closeDepth d' stack := by
  induction stack generalizing d d' with
  | nil => exact h
  | cons frame stack ih =>
    cases frame with
    | array items => exact ih (Nat.succ_le_succ (max_le_max le_rfl h))
    | object fields key => exact ih (Nat.succ_le_succ (max_le_max le_rfl h))

theorem itemsDepth_concat (items : List Json) (v : Json) : itemsDepth (items ++ [v]) = max (itemsDepth items) v.depth := by
  induction items with
  | nil => simp [itemsDepth]
  | cons item items ih => rw [List.cons_append, itemsDepth, ih, itemsDepth, max_assoc]

theorem fieldsDepth_concat (fields : List (Text × Json)) (key : Text) (v : Json) :
    fieldsDepth (fields ++ [(key, v)]) = max (fieldsDepth fields) v.depth := by
  induction fields with
  | nil => simp [fieldsDepth]
  | cons field fields ih =>
    obtain ⟨name, value⟩ := field
    rw [List.cons_append, fieldsDepth, ih, fieldsDepth, max_assoc]

theorem depth_deliver (v : Json) (stack : List Frame) : (deliver v stack).depth = closeDepth v.depth stack := by
  cases stack with
  | nil => rfl
  | cons frame stack =>
    cases frame with
    | array items => rw [deliver, ReadState.depth, itemsDepth_concat, closeDepth]
    | object fields key => rw [deliver, ReadState.depth, fieldsDepth_concat, closeDepth]

theorem depth_readValue {stack : List Frame} {token : Token} {r : ReadState} (h : readValue stack token = some r) :
    closeDepth 0 stack ≤ r.depth := by
  cases token <;> cases h
  case openBrace => exact closeDepth_mono (Nat.zero_le 1) stack
  case openBracket => exact closeDepth_mono (Nat.zero_le 1) stack
  all_goals
    rw [depth_deliver]
    exact closeDepth_mono (Nat.zero_le _) stack

theorem depth_readStep {r r' : ReadState} {token : Token} (h : readStep r token = some r') : r.depth ≤ r'.depth := by
  cases r with
  | value stack => exact depth_readValue h
  | firstItem stack =>
    rcases readStep_firstItem h with ⟨rfl, rfl⟩ | h
    · rw [depth_deliver]
      exact le_rfl
    · exact depth_readValue h
  | firstKey stack =>
    cases token <;> cases h
    · rw [depth_deliver]
      exact le_rfl
    · exact le_rfl
  | items vs stack =>
    cases token <;> cases h
    · rw [depth_deliver]
      exact le_rfl
    · show closeDepth _ stack ≤ closeDepth (max _ 0 + 1) stack
      rw [Nat.max_zero]
  | fields fs stack =>
    cases token <;> cases h
    · rw [depth_deliver]
      exact le_rfl
    · exact le_rfl
  | key fs stack =>
    cases token <;> cases h
    exact le_rfl
  | colon fs name stack =>
    cases token <;> cases h
    show closeDepth _ stack ≤ closeDepth (max _ 0 + 1) stack
    rw [Nat.max_zero]
  | done v => cases token <;> cases h

/-- The document becomes only deeper. -/
theorem depth_watch {r r' : ReadState} {ts : List Token} (h : watch readStep r ts = some r') : r.depth ≤ r'.depth :=
  doomed_watch (fun m _ _ (hm : r.depth ≤ m.depth) hstep => hm.trans (depth_readStep hstep)) le_rfl h

/-! ### Closing -/

theorem lexFrom_closer (stack : List Frame) :
    lexFrom .between (stack.map Frame.closer) = some (.between, stack.map Frame.closeToken) := by
  induction stack with
  | nil => rfl
  | cons frame stack ih =>
    have hstep : lexStep .between frame.closer = some (.between, [frame.closeToken]) := by
      cases frame <;> rfl
    exact lexFrom_cons hstep ih

/-- A closed array or object goes into the frame around it; no name comes. -/
theorem names_close (v : Json) (frame : Frame) (stack : List Frame) :
    (deliver (match frame with
      | .array items => .array (items ++ [v])
      | .object fields key => .object (fields ++ [(key, v)])) stack).names = (deliver v (frame :: stack)).names := by
  cases stack with
  | nil => cases frame <;> rfl
  | cons frame' stack =>
    rw [names_deliver, names_deliver]
    cases frame <;> rfl

theorem exists_closed_deliver (v : Json) (stack : List Frame) :
    ∃ doc, watch readStep (deliver v stack) (stack.map Frame.closeToken) = some (.done doc) ∧
      doc.depth = closeDepth v.depth stack ∧ (ReadState.done doc).names = (deliver v stack).names := by
  induction stack generalizing v with
  | nil => exact ⟨v, rfl, rfl, rfl⟩
  | cons frame stack ih =>
    cases frame with
    | array items =>
      obtain ⟨doc, hdoc, hdepth, hnames⟩ := ih (.array (items ++ [v]))
      refine ⟨doc, hdoc, hdepth.trans ?_, hnames.trans (names_close v (.array items) stack)⟩
      rw [Json.depth, itemsDepth_concat, closeDepth]
    | object fields key =>
      obtain ⟨doc, hdoc, hdepth, hnames⟩ := ih (.object (fields ++ [(key, v)]))
      refine ⟨doc, hdoc, hdepth.trans ?_, hnames.trans (names_close v (.object fields key) stack)⟩
      rw [Json.depth, fieldsDepth_concat, closeDepth]

theorem lex_closers {t : Text} {ts : List Token} (ht : lex t = some ts) (frame : Frame) (stack : List Frame) :
    lex (t ++ frame.closer :: stack.map Frame.closer) =
      some (ts ++ frame.closeToken :: stack.map Frame.closeToken) := by
  have hcloser : punctuation frame.closer = some frame.closeToken := by
    cases frame <;> rfl
  rw [List.append_cons, List.append_cons ts]
  exact lex_append (lexFrom_punctuation ht hcloser) (lex_of_between (lexFrom_closer stack))

/-- After a value the missing brackets complete the document; it is as deep as it was so far, and no name comes. -/
theorem exists_closed {t : Text} {ts : List Token} {r : ReadState} (hlex : lex t = some ts) (hr : r.afterValue = true) :
    ∃ us doc, lex (t ++ r.missing) = some (ts ++ us) ∧ watch readStep r us = some (.done doc) ∧
      doc.depth = r.depth ∧ (ReadState.done doc).names = r.names := by
  cases r with
  | items vs stack =>
    obtain ⟨doc, hdoc, hdepth, hnames⟩ := exists_closed_deliver (.array vs) stack
    refine ⟨.closeBracket :: stack.map Frame.closeToken, doc, lex_closers hlex (.array []) stack, hdoc, hdepth,
      hnames.trans ?_⟩
    cases stack with
    | nil => rfl
    | cons frame stack => exact names_deliver _ _ _
  | fields fs stack =>
    obtain ⟨doc, hdoc, hdepth, hnames⟩ := exists_closed_deliver (.object fs) stack
    refine ⟨.closeBrace :: stack.map Frame.closeToken, doc, lex_closers hlex (.object [] []) stack, hdoc, hdepth,
      hnames.trans ?_⟩
    cases stack with
    | nil => rfl
    | cons frame stack => exact names_deliver _ _ _
  | done v => exact ⟨[], v, by rw [ReadState.missing, List.append_nil, List.append_nil, hlex], rfl, rfl, rfl⟩
  | _ => cases hr

/-- Brackets in a string are characters. -/
theorem lexFrom_string_missing (w : Text) (r : ReadState) :
    lexFrom (.string w) r.missing = some (.string (w ++ r.missing), []) := by
  have hclosers : ∀ t : Text, (∀ c ∈ t, c = ']' ∨ c = '\x7d') → ∀ w,
      lexFrom (.string w) t = some (.string (w ++ t), []) := by
    intro t
    induction t with
    | nil =>
      intro _ w
      rw [List.append_nil]
      rfl
    | cons c t ih =>
      intro h w
      have hstep : lexStep (.string w) c = some (.string (w ++ [c]), []) := by
        rcases h c List.mem_cons_self with rfl | rfl <;> rfl
      rw [List.append_cons]
      exact lexFrom_cons hstep (ih (fun d hd => h d (List.mem_cons_of_mem _ hd)) _)
  have hstack : ∀ stack : List Frame, ∀ c ∈ stack.map Frame.closer, c = ']' ∨ c = '\x7d' := by
    intro stack c hc
    obtain ⟨frame, -, rfl⟩ := List.mem_map.mp hc
    cases frame with
    | array items => exact Or.inl rfl
    | object fields key => exact Or.inr rfl
  refine hclosers _ ?_ w
  cases r with
  | value stack => exact hstack stack
  | firstItem stack | items vs stack => exact hstack (.array [] :: stack)
  | firstKey stack | fields fs stack | key fs stack | colon fs key stack => exact hstack (.object [] [] :: stack)
  | done v => exact fun c hc => absurd hc List.not_mem_nil

/-! ### What is left of a text that is trimmed -/

section

variable {s : Text} {x : LexState} {ts : List Token}

private theorem exists_lexFrom_trim (h : lexFrom .between s = some (x, ts)) :
    ∃ trail x' us vs, (∀ c ∈ trail, isWhitespace c = true) ∧ lexFrom .between (trim s) = some (x', us) ∧
      lexFrom x' trail = some (x, vs) ∧ ts = us ++ vs := by
  obtain ⟨lead, trail, hs, hlead, htrail⟩ := exists_eq_trim s
  rw [hs] at h
  obtain ⟨x', us, vs, hx', hx, hts⟩ := exists_lexFrom (lexFrom_lead hlead h)
  exact ⟨trail, x', us, vs, htrail, hx', hx, hts⟩

theorem lexFrom_trim_string {w : Text} (h : lexFrom .between s = some (.string w, ts)) :
    ∃ w', lexFrom .between (trim s) = some (.string w', ts) := by
  obtain ⟨trail, x', us, vs, htrail, hx', hx, rfl⟩ := exists_lexFrom_trim h
  obtain ⟨rfl, w', rfl⟩ := lexFrom_trail_string htrail hx
  exact ⟨w', by rw [List.append_nil, hx']⟩

theorem lexFrom_trim_escape (h : lexFrom .between s = some (x, ts)) (hx : x.inEscape = true) :
    lexFrom .between (trim s) = some (x, ts) := by
  obtain ⟨trail, x', us, vs, htrail, hx', htail, rfl⟩ := exists_lexFrom_trim h
  cases trail_eq_nil htrail htail hx
  cases htail
  rw [List.append_nil, hx']

theorem lex_trim {us : List Token} (h : lexFrom .between s = some (x, ts)) (hx : lexEnd x = some us) :
    lex (trim s) = some (ts ++ us) := by
  obtain ⟨trail, x', as, bs, htrail, hx', htail, rfl⟩ := exists_lexFrom_trim h
  exact lex_eq_some.mpr ⟨x', as, bs ++ us, hx', lexEnd_trail htrail htail hx, List.append_assoc _ _ _⟩

end

end OpenProxy
