import OpenProxy.Data.JsonText

/-!
# Replacing a string in a JSON text

A program that replaces the string value of a member in the text of a document, without reading the document, leaves a
text that can be read (`read_replaced`): wherever the member's name is found in the text, it is the end of a name, and
the two documents are the same up to the string values in them (`blank`).
-/

namespace OpenProxy

namespace Json

mutual

/-- The document with all string values left empty. -/
def blank : Json → Json
  | null => null
  | bool b => bool b
  | number n => number n
  | string _ => string []
  | array items => array (blankItems items)
  | object fields => object (blankFields fields)

def blankItems : List Json → List Json
  | [] => []
  | item :: items => blank item :: blankItems items

def blankFields : List (Text × Json) → List (Text × Json)
  | [] => []
  | (key, value) :: fields => (key, blank value) :: blankFields fields

end

@[simp] theorem blankItems_append (items items' : List Json) :
    blankItems (items ++ items') = blankItems items ++ blankItems items' := by
  induction items with
  | nil => rfl
  | cons item items ih => simp only [List.cons_append, blankItems, ih]

@[simp] theorem blankFields_append (fields fields' : List (Text × Json)) :
    blankFields (fields ++ fields') = blankFields fields ++ blankFields fields' := by
  induction fields with
  | nil => rfl
  | cons field fields ih => simp only [List.cons_append, blankFields, ih]

theorem getField_blankFields (fields : List (Text × Json)) (key : Text) :
    getField (blankFields fields) key = (getField fields key).map blank := by
  induction fields with
  | nil => rfl
  | cons field fields ih =>
    obtain ⟨key', value⟩ := field
    simp only [blankFields, getField_cons, ih]
    cases getField fields key <;> by_cases h : key' = key <;> simp [h]

end Json

open Json

/-! ### The reader up to string values -/

def Frame.blank : Frame → Frame
  | .array items => .array (blankItems items)
  | .object fields key => .object (blankFields fields) key

/-- The state of the reader with all string values left empty. -/
def ReadState.blank : ReadState → ReadState
  | .value stack => .value (stack.map Frame.blank)
  | .firstItem stack => .firstItem (stack.map Frame.blank)
  | .firstKey stack => .firstKey (stack.map Frame.blank)
  | .items xs stack => .items (blankItems xs) (stack.map Frame.blank)
  | .fields fs stack => .fields (blankFields fs) (stack.map Frame.blank)
  | .key fs stack => .key (blankFields fs) (stack.map Frame.blank)
  | .colon fs name stack => .colon (blankFields fs) name (stack.map Frame.blank)
  | .done v => .done v.blank

theorem blank_deliver (v : Json) (stack : List Frame) :
    (deliver v stack).blank = deliver v.blank (stack.map Frame.blank) := by
  cases stack with
  | nil => rfl
  | cons frame stack =>
    cases frame with
    | array items =>
      show ReadState.items (blankItems (items ++ [v])) _ = ReadState.items (blankItems items ++ [v.blank]) _
      rw [blankItems_append]
      rfl
    | object fields key =>
      show ReadState.fields (blankFields (fields ++ [(key, v)])) _ =
        ReadState.fields (blankFields fields ++ [(key, v.blank)]) _
      rw [blankFields_append]
      rfl

/-- A token with string values left empty: in these states, a string is a value and no name. -/
def ReadState.blankToken : ReadState → Token → Token
  | .value _, .string _ => .string []
  | .firstItem _, .string _ => .string []
  | _, token => token

private theorem blank_readValue (stack : List Frame) (token : Token) :
    (readValue stack token).map ReadState.blank =
      readValue (stack.map Frame.blank) ((ReadState.value stack).blankToken token) := by
  cases token with
  | openBrace | closeBrace | openBracket | closeBracket | comma | colon => rfl
  | string s | number n | bool b | null => exact congrArg some (blank_deliver _ stack)

/-- The reader with string values left empty is the reader on the tokens with string values left empty. -/
theorem blank_readStep (x : ReadState) (token : Token) :
    (readStep x token).map ReadState.blank = readStep x.blank (x.blankToken token) := by
  cases x with
  | value stack => exact blank_readValue stack token
  | firstItem stack =>
    have hvalue := blank_readValue (.array [] :: stack) token
    cases token with
    | closeBracket => exact congrArg some (blank_deliver _ stack)
    | openBrace | closeBrace | openBracket | comma | colon | string s | number n | bool b | null => exact hvalue
  | firstKey stack | items items stack | fields fields stack | key fields stack | colon fields key stack | done v =>
    cases token <;> first | rfl | exact congrArg some (blank_deliver _ stack)

theorem blankToken_blank (x : ReadState) (token : Token) : x.blank.blankToken token = x.blankToken token := by
  cases x <;> cases token <;> rfl

/-- States that agree up to string values make the same steps up to string values. -/
theorem blank_watch {x y : ReadState} (h : x.blank = y.blank) (tokens : List Token) :
    (watch readStep x tokens).map ReadState.blank = (watch readStep y tokens).map ReadState.blank := by
  induction tokens generalizing x y with
  | nil => simp [h]
  | cons token tokens ih =>
    have hstep : (readStep x token).map ReadState.blank = (readStep y token).map ReadState.blank := by
      rw [blank_readStep, blank_readStep, ← blankToken_blank x, ← blankToken_blank y, h]
    rw [watch_cons, watch_cons]
    cases hx : readStep x token with
    | none =>
      rw [hx, Option.map_none, eq_comm, Option.map_eq_none_iff] at hstep
      rw [hstep]
    | some x' =>
      rw [hx, Option.map_some, eq_comm, Option.map_eq_some_iff] at hstep
      obtain ⟨y', hy, hxy⟩ := hstep
      rw [hy]
      exact ih hxy.symm

/-- Exchanging a string after a colon changes string values only. -/
theorem readTokens_replaced {before after : List Token} {s s' : Text} {v : Json}
    (h : readTokens (before ++ .colon :: .string s :: after) = some v) :
    ∃ v', readTokens (before ++ .colon :: .string s' :: after) = some v' ∧ v'.blank = v.blank := by
  unfold readTokens at h ⊢
  rw [watch_append] at h ⊢
  cases hx : watch readStep (.value []) before with
  | none => simp [hx] at h
  | some x =>
    simp only [hx, Option.bind_some, watch_cons] at h ⊢
    -- only in one state is there a step for a colon, and the string after it is a value
    cases x with
    | colon fields key stack =>
      simp only [readStep, readValue, Option.bind_some] at h ⊢
      have hblank : (deliver (.string s) (.object fields key :: stack)).blank =
          (deliver (.string s') (.object fields key :: stack)).blank := by
        rw [blank_deliver, blank_deliver]
        rfl
      have hwatch := blank_watch hblank after
      cases hy : watch readStep (deliver (.string s) (.object fields key :: stack)) after with
      | none => simp [hy] at h
      | some y =>
        rw [hy, Option.map_some, eq_comm, Option.map_eq_some_iff] at hwatch
        obtain ⟨y', hy', hyy'⟩ := hwatch
        rw [hy] at h
        cases y with
        | done u =>
          cases y' with
          | done u' =>
            simp only [Option.some.injEq] at h
            subst h
            refine ⟨u', by rw [hy'], ?_⟩
            injection hyy'
          | value | firstItem | firstKey | items | fields | key | colon => cases hyy'
        | value | firstItem | firstKey | items | fields | key | colon => cases h
    | value | firstItem | firstKey | items | fields | key | done => simp [readStep, readValue] at h

/-! ### The text -/

/-- Characters that stand for themselves in a string. -/
def IsPlain (s : Text) : Prop := ∀ c ∈ s, c ≠ '"' ∧ c ≠ '\\' ∧ 0x20 ≤ c.toNat

instance (s : Text) : Decidable (IsPlain s) := List.decidableBAll (fun c => c ≠ '"' ∧ c ≠ '\\' ∧ 0x20 ≤ c.toNat) s

private theorem lexFrom_plain {s : Text} (hs : IsPlain s) (t : Text) :
    lexFrom (.string t) (s ++ ['"']) = some (.between, [.string (t ++ s)]) := by
  induction s generalizing t with
  | nil => simp [lexFrom, lexStep]
  | cons c s ih =>
    obtain ⟨hquote, hslash, hc⟩ := hs c (by simp)
    have hstep : lexStep (.string t) c = some (.string (t ++ [c]), []) := by
      simp [lexStep, hquote, hslash, Nat.not_lt.mpr hc]
    have h := lexFrom_cons hstep (ih (fun c hc => hs c (by simp [hc])) (t ++ [c]))
    simpa using h

/-- Wherever a quoted name is found, a string ends with it. -/
theorem lexFrom_name {key : Text} (hkey : IsPlain key) (hword : lexFrom .between key = none) {x y : LexState}
    {ts : List Token} (h : lexFrom x ('"' :: (key ++ ['"'])) = some (y, ts)) :
    ∃ us s, y = .between ∧ ts = us ++ [.string s] := by
  have hquote : lexBetween '"' = some (.string [], []) := by decide
  have hopen := lexFrom_plain hkey []
  cases x with
  | between =>
    have h' := lexFrom_cons (show lexStep .between '"' = some (.string [], []) from hquote) hopen
    rw [h'] at h
    cases h
    exact ⟨[], key, rfl, rfl⟩
  | word w =>
    cases hw : wordToken w with
    | none =>
      have hstep : lexStep (.word w) '"' = none := by
        rw [lexStep, hw]
        rfl
      simp [lexFrom, hstep] at h
    | some token =>
      have hstep : lexStep (.word w) '"' = some (.string [], [token]) := by
        rw [lexStep, hw]
        rfl
      rw [lexFrom_cons hstep hopen] at h
      cases h
      exact ⟨[token], key, rfl, rfl⟩
  | string s =>
    -- the quotation mark ends the string, and the name is no token
    have hstep : lexStep (.string s) '"' = some (.between, [.string s]) := by simp [lexStep]
    simp [lexFrom, hstep, lexFrom_append, hword] at h
  | escape s =>
    have hstep : lexStep (.escape s) '"' = some (.string (s ++ ['"']), []) := by simp [lexStep, afterEscape]
    rw [lexFrom_cons hstep (lexFrom_plain hkey _)] at h
    cases h
    exact ⟨[], _, rfl, rfl⟩
  | unicode s hex =>
    have hstep : lexStep (.unicode s hex) '"' = none := by
      have : hexValue '"' = none := by decide
      simp [lexStep, withDigit, this]
    simp [lexFrom, hstep] at h
  | surrogate s high => simp [lexFrom, lexStep] at h
  | surrogateEscape s high => simp [lexFrom, lexStep] at h
  | low s high hex =>
    have hstep : lexStep (.low s high hex) '"' = none := by
      have : hexValue '"' = none := by decide
      simp [lexStep, withDigit, this]
    simp [lexFrom, hstep] at h

/-- The text of a member with a string value, with `sep` between the name and the value. -/
def memberText (key sep s : Text) : Text := '"' :: (key ++ ['"']) ++ (sep ++ '"' :: (s ++ ['"']))

section

variable {key sep : Text} (hkey : IsPlain key) (hword : lexFrom .between key = none)
  (hsep : lexFrom .between sep = some (.between, [.colon]))

include hsep in
private theorem lexFrom_value {s : Text} (hs : IsPlain s) :
    lexFrom .between (sep ++ '"' :: (s ++ ['"'])) = some (.between, [.colon, .string s]) := by
  have hquote : lexStep .between '"' = some (.string [], []) := by decide
  exact lexFrom_trans hsep (lexFrom_cons hquote (lexFrom_plain hs []))

include hkey hword hsep

/-- The tokens of a text in which the member is found. -/
theorem lex_member {a b s : Text} {ts : List Token} (hs : IsPlain s) (h : lex (a ++ memberText key sep s ++ b) = some ts) :
    ∃ us vs, ts = us ++ .colon :: .string s :: vs ∧
      ∀ s', IsPlain s' → lex (a ++ memberText key sep s' ++ b) = some (us ++ .colon :: .string s' :: vs) := by
  obtain ⟨z, ls, es, hz, hend, rfl⟩ := lex_eq_some.mp h
  obtain ⟨y, ls, bs, hy, hb, rfl⟩ := exists_lexFrom hz
  obtain ⟨x, as, ms, ha, hm, rfl⟩ := exists_lexFrom hy
  obtain ⟨w, ks, cs, hname, hvalue, rfl⟩ := exists_lexFrom hm
  obtain ⟨us, name, rfl, rfl⟩ := lexFrom_name hkey hword hname
  rw [lexFrom_value hsep hs] at hvalue
  cases hvalue
  refine ⟨as ++ (us ++ [.string name]), bs ++ es, by simp, ?_⟩
  intro s' hs'
  have hmember := lexFrom_trans (lexFrom_trans ha (lexFrom_trans hname (lexFrom_value hsep hs'))) hb
  exact lex_eq_some.mpr ⟨z, _, es, hmember, hend, by simp⟩

/-- A text stays readable when the string value of a member is replaced by another one in it. -/
theorem read_replaced {a b s s' : Text} {v : Json} (hs : IsPlain s) (hs' : IsPlain s')
    (h : read (a ++ memberText key sep s ++ b) = some v) :
    ∃ v', read (a ++ memberText key sep s' ++ b) = some v' ∧ v'.blank = v.blank := by
  unfold read at h
  rw [Option.bind_eq_some_iff] at h
  obtain ⟨ts, hts, h⟩ := h
  obtain ⟨us, vs, rfl, hother⟩ := lex_member hkey hword hsep hs hts
  obtain ⟨v', hv', hblank⟩ := readTokens_replaced h
  refine ⟨v', ?_, hblank⟩
  rw [read, hother s' hs', Option.bind_some]
  exact hv'

end

end OpenProxy
