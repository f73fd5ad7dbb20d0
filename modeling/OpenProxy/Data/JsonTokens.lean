import OpenProxy.Data.JsonRaw

/-!
# The tokens of a document

The tokens from which a document is read are those of the document (`tokens_of_readTokens`).  A text that holds a document
therefore holds it as it is written, with the strings before they are decoded (`exists_written`).
-/

namespace OpenProxy

/-! ### What has been read -/

/-- Items, each with the comma behind it. -/
def itemsRead (items : List Json) : List Token := items.flatMap fun item => tokens item ++ [.comma]

/-- Members, each with the comma behind it. -/
def fieldsRead (fields : List (Text × Json)) : List Token :=
  fields.flatMap fun field => .string field.1 :: .colon :: (tokens field.2 ++ [.comma])

theorem itemTokens_cons_cons (v v' : Json) (vs : List Json) :
    itemTokens (v :: v' :: vs) = tokens v ++ .comma :: itemTokens (v' :: vs) := rfl

theorem fieldTokens_cons_cons (key : Text) (v : Json) (f : Text × Json) (fs : List (Text × Json)) :
    fieldTokens ((key, v) :: f :: fs) = .string key :: .colon :: (tokens v ++ .comma :: fieldTokens (f :: fs)) := rfl

theorem itemTokens_snoc (items : List Json) (v : Json) : itemTokens (items ++ [v]) = itemsRead items ++ tokens v := by
  induction items with
  | nil => rfl
  | cons item items ih =>
    have hcons : itemTokens (item :: (items ++ [v])) = tokens item ++ .comma :: itemTokens (items ++ [v]) := by
      cases items <;> rfl
    rw [List.cons_append, hcons, ih, itemsRead, itemsRead, List.flatMap_cons, List.append_assoc, List.append_assoc]
    rfl

theorem fieldTokens_snoc (fields : List (Text × Json)) (key : Text) (v : Json) :
    fieldTokens (fields ++ [(key, v)]) = fieldsRead fields ++ .string key :: .colon :: tokens v := by
  induction fields with
  | nil => rfl
  | cons field fields ih =>
    obtain ⟨k, u⟩ := field
    have hcons : fieldTokens ((k, u) :: (fields ++ [(key, v)])) =
        .string k :: .colon :: (tokens u ++ .comma :: fieldTokens (fields ++ [(key, v)])) := by
      cases fields <;> rfl
    rw [List.cons_append, hcons, ih, fieldsRead, fieldsRead, List.flatMap_cons, List.append_assoc]
    simp only [List.cons_append, List.append_assoc, List.nil_append]

theorem itemsRead_eq {items : List Json} (h : items ≠ []) : itemsRead items = itemTokens items ++ [.comma] := by
  obtain ⟨items, v, rfl⟩ := List.eq_nil_or_concat items |>.resolve_left h
  rw [List.concat_eq_append, itemTokens_snoc, itemsRead, List.flatMap_append, List.flatMap_singleton, List.append_assoc]
  rfl

theorem fieldsRead_eq {fields : List (Text × Json)} (h : fields ≠ []) :
    fieldsRead fields = fieldTokens fields ++ [.comma] := by
  obtain ⟨fields, ⟨key, v⟩, rfl⟩ := List.eq_nil_or_concat fields |>.resolve_left h
  rw [List.concat_eq_append, fieldTokens_snoc, fieldsRead, List.flatMap_append, List.flatMap_singleton, List.append_assoc]
  rfl

/-- The tokens of an array or an object that is still open. -/
def Frame.tokensRead : Frame → List Token
  | .array items => .openBracket :: itemsRead items
  | .object fields key => .openBrace :: (fieldsRead fields ++ [.string key, .colon])

def stackRead : List Frame → List Token
  | [] => []
  | frame :: stack => stackRead stack ++ frame.tokensRead

/-- The tokens that have been read. -/
def ReadState.tokensRead : ReadState → List Token
  | .value stack => stackRead stack
  | .firstItem stack => stackRead stack ++ [.openBracket]
  | .firstKey stack => stackRead stack ++ [.openBrace]
  | .items vs stack => stackRead stack ++ .openBracket :: itemTokens vs
  | .fields fs stack => stackRead stack ++ .openBrace :: fieldTokens fs
  | .key fs stack => stackRead stack ++ .openBrace :: fieldsRead fs
  | .colon fs name stack => stackRead stack ++ .openBrace :: (fieldsRead fs ++ [.string name])
  | .done v => tokens v

/-- After an item there is an item. -/
def ReadState.Ok : ReadState → Prop
  | .items vs _ => vs ≠ []
  | .fields fs _ => fs ≠ []
  | _ => True

theorem deliver_ok (v : Json) (stack : List Frame) : (deliver v stack).Ok := by
  cases stack with
  | nil => trivial
  | cons frame stack =>
    cases frame with
    | array items => exact List.append_ne_nil_of_right_ne_nil items (List.cons_ne_nil v [])
    | object fields key => exact List.append_ne_nil_of_right_ne_nil fields (List.cons_ne_nil (key, v) [])

theorem tokensRead_deliver (v : Json) (stack : List Frame) : (deliver v stack).tokensRead = stackRead stack ++ tokens v := by
  cases stack with
  | nil => rfl
  | cons frame stack =>
    cases frame with
    | array items =>
      simp only [deliver, ReadState.tokensRead, stackRead, Frame.tokensRead, itemTokens_snoc, List.append_assoc,
        List.cons_append]
    | object fields key =>
      simp only [deliver, ReadState.tokensRead, stackRead, Frame.tokensRead, fieldTokens_snoc, List.append_assoc,
        List.cons_append, List.nil_append]

theorem readValue_tokensRead {stack : List Frame} {token : Token} {r : ReadState} (h : readValue stack token = some r) :
    r.Ok ∧ r.tokensRead = stackRead stack ++ [token] := by
  cases token <;> cases h
  case openBrace => exact ⟨trivial, rfl⟩
  case openBracket => exact ⟨trivial, rfl⟩
  all_goals exact ⟨deliver_ok _ _, tokensRead_deliver _ _⟩

/-- The step lemma. -/
theorem readStep_tokensRead {r r' : ReadState} {token : Token} (hr : r.Ok) (h : readStep r token = some r') :
    r'.Ok ∧ r'.tokensRead = r.tokensRead ++ [token] := by
  have hempty : ∀ {open' close : Token} {v : Json} {stack : List Frame}, tokens v = [open', close] →
      (deliver v stack).Ok ∧ (deliver v stack).tokensRead = (stackRead stack ++ [open']) ++ [close] := by
    intro open' close v stack hv
    rw [tokensRead_deliver, hv, List.append_assoc]
    exact ⟨deliver_ok _ _, rfl⟩
  have hclose : ∀ {open' close : Token} {inner : List Token} {v : Json} {stack : List Frame},
      tokens v = open' :: (inner ++ [close]) →
      (deliver v stack).Ok ∧ (deliver v stack).tokensRead = (stackRead stack ++ open' :: inner) ++ [close] := by
    intro open' close inner v stack hv
    rw [tokensRead_deliver, hv, List.append_assoc]
    exact ⟨deliver_ok _ _, rfl⟩
  cases r with
  | value stack => exact readValue_tokensRead h
  | done v => cases token <;> cases h
  | firstItem stack =>
    by_cases htoken : token = .closeBracket
    · subst htoken
      cases h
      exact hempty rfl
    · have hvalue : readStep (.firstItem stack) token = readValue (.array [] :: stack) token := by
        cases token <;> first | rfl | exact absurd rfl htoken
      rw [hvalue] at h
      exact readValue_tokensRead h
  | firstKey stack =>
    cases token with
    | closeBrace =>
      cases h
      exact hempty rfl
    | string key =>
      cases h
      exact ⟨trivial, by simp [ReadState.tokensRead, fieldsRead]⟩
    | _ => cases h
  | items items stack =>
    cases token with
    | comma =>
      cases h
      refine ⟨trivial, ?_⟩
      simp only [ReadState.tokensRead, stackRead, Frame.tokensRead, itemsRead_eq hr, List.append_assoc, List.cons_append]
    | closeBracket =>
      cases h
      exact hclose rfl
    | _ => cases h
  | fields fields stack =>
    cases token with
    | comma =>
      cases h
      refine ⟨trivial, ?_⟩
      simp only [ReadState.tokensRead, fieldsRead_eq hr, List.append_assoc, List.cons_append]
    | closeBrace =>
      cases h
      exact hclose rfl
    | _ => cases h
  | key fields stack =>
    cases token with
    | string key =>
      cases h
      refine ⟨trivial, ?_⟩
      simp only [ReadState.tokensRead, List.append_assoc, List.cons_append]
    | _ => cases h
  | colon fields key stack =>
    cases token with
    | colon =>
      cases h
      refine ⟨trivial, ?_⟩
      simp only [ReadState.tokensRead, stackRead, Frame.tokensRead, List.append_assoc, List.cons_append, List.nil_append]
    | _ => cases h

/-- The run lemma. -/
theorem watch_tokensRead {r r' : ReadState} {ts : List Token} (hr : r.Ok) (h : watch readStep r ts = some r') :
    r'.tokensRead = r.tokensRead ++ ts := by
  induction ts generalizing r with
  | nil =>
    cases h
    exact (List.append_nil _).symm
  | cons token ts ih =>
    obtain ⟨r₁, hstep, hrest⟩ := Option.bind_eq_some_iff.mp ((watch_cons r token ts).symm.trans h)
    obtain ⟨hr₁, hread⟩ := readStep_tokensRead hr hstep
    rw [ih hr₁ hrest, hread, List.append_assoc, List.singleton_append]

/-- The tokens of a document. -/
theorem tokens_of_readTokens {ts : List Token} {v : Json} (h : readTokens ts = some v) : ts = tokens v := by
  unfold readTokens at h
  split at h
  · rename_i v' hwatch
    cases h
    exact (@watch_tokensRead (.value []) _ _ trivial hwatch).symm
  · cases h

theorem readTokens_tokens (v : Json) : readTokens (tokens v) = some v := by
  have hwatch := watch_tokens v [] []
  rw [List.append_nil, deliver, watch_nil] at hwatch
  rw [readTokens, hwatch]

/-- After a value only punctuation follows. -/
theorem punctuation_of_afterValue {r r' : ReadState} {token : Token} (hr : r.afterValue = true)
    (h : readStep r token = some r') : token = .comma ∨ token = .closeBracket ∨ token = .closeBrace := by
  cases r with
  | items vs stack | fields fs stack | done v => cases token <;> cases h <;> simp
  | _ => cases hr

/-- Behind a word the document ends, or punctuation follows. -/
theorem follows_word {v : Json} {before rest : List Token} {token : Token} (h : tokens v = before ++ token :: rest)
    (htoken : token.isWord = true) : ∀ next ∈ rest.head?, next = .comma ∨ next = .closeBracket ∨ next = .closeBrace := by
  intro next hnext
  obtain ⟨rest, rfl⟩ : ∃ rest', rest = next :: rest' := by
    cases rest with
    | nil => cases hnext
    | cons next' rest' =>
      cases hnext
      exact ⟨rest', rfl⟩
  have hwatch := watch_tokens v [] []
  rw [List.append_nil, h, watch_append, watch_nil] at hwatch
  obtain ⟨r, -, hrest⟩ := Option.bind_eq_some_iff.mp hwatch
  rw [watch_cons] at hrest
  obtain ⟨r₁, hword, hrest⟩ := Option.bind_eq_some_iff.mp hrest
  rw [watch_cons] at hrest
  obtain ⟨r₂, hnext, -⟩ := Option.bind_eq_some_iff.mp hrest
  exact punctuation_of_afterValue (afterValue_of_isWord htoken hword) hnext

/-! ### Documents as they are written -/

mutual

/-- The document with its strings decoded. -/
def decodeJson : Json → Option Json
  | .string raw => (decodeString raw).map .string
  | .array items => (decodeItems items).map .array
  | .object fields => (decodeFields fields).map .object
  | .number n => some (.number n)
  | .bool b => some (.bool b)
  | .null => some .null

def decodeItems : List Json → Option (List Json)
  | [] => some []
  | item :: items => (decodeJson item).bind fun v => (decodeItems items).map fun vs => v :: vs

def decodeFields : List (Text × Json) → Option (List (Text × Json))
  | [] => some []
  | (key, value) :: fields =>
    (decodeString key).bind fun k => (decodeJson value).bind fun v => (decodeFields fields).map fun fs => (k, v) :: fs

end

theorem decodeTokens_eq_cons {ts us : List Token} {token : Token} (h : decodeTokens ts = some (token :: us)) :
    ∃ token' ts', ts = token' :: ts' ∧ decodeToken token' = some token ∧ decodeTokens ts' = some us := by
  cases ts with
  | nil => cases h
  | cons token' ts' =>
    rw [decodeTokens_cons] at h
    obtain ⟨token₁, htoken, hrest⟩ := Option.bind_eq_some_iff.mp h
    obtain ⟨us₁, hus, heq⟩ := Option.map_eq_some_iff.mp hrest
    cases heq
    exact ⟨token', ts', rfl, htoken, hus⟩

theorem decodeToken_eq_string {token : Token} {s : Text} (h : decodeToken token = some (.string s)) :
    ∃ raw, token = .string raw ∧ decodeString raw = some s := by
  cases token with
  | string raw =>
    obtain ⟨s', hs', heq⟩ := Option.map_eq_some_iff.mp h
    cases heq
    exact ⟨raw, rfl, hs'⟩
  | _ => cases h

theorem decodeToken_eq {token token' : Token} (h : decodeToken token' = some token) (hstring : ∀ s, token ≠ .string s) :
    token' = token := by
  cases token' with
  | string raw =>
    obtain ⟨s, -, heq⟩ := Option.map_eq_some_iff.mp h
    exact absurd heq.symm (hstring s)
  | _ => exact Option.some.inj h

theorem decodeTokens_eq_cons_of {ts us : List Token} {token : Token} (hstring : ∀ s, token ≠ .string s)
    (h : decodeTokens ts = some (token :: us)) : ∃ ts', ts = token :: ts' ∧ decodeTokens ts' = some us := by
  obtain ⟨token', ts', rfl, htoken, hrest⟩ := decodeTokens_eq_cons h
  rw [decodeToken_eq htoken hstring]
  exact ⟨ts', rfl, hrest⟩

theorem decodeTokens_eq_cons_string {ts us : List Token} {s : Text} (h : decodeTokens ts = some (.string s :: us)) :
    ∃ raw ts', ts = .string raw :: ts' ∧ decodeString raw = some s ∧ decodeTokens ts' = some us := by
  obtain ⟨token', ts', rfl, htoken, hrest⟩ := decodeTokens_eq_cons h
  obtain ⟨raw, rfl, hraw⟩ := decodeToken_eq_string htoken
  exact ⟨raw, ts', rfl, hraw, hrest⟩

/-- Tokens that are decoded to those of documents. -/
def Spells {α β : Type} (toks : α → List Token) (decode : α → Option β) (ts rest : List Token) (v : β) : Prop :=
  ∃ w ts', ts = toks w ++ ts' ∧ decode w = some v ∧ decodeTokens ts' = some rest

mutual

theorem exists_written_json : (v : Json) → {ts rest : List Token} → decodeTokens ts = some (tokens v ++ rest) →
    Spells tokens decodeJson ts rest v
  | .null, _, _, h => by
    obtain ⟨ts', rfl, hrest⟩ := decodeTokens_eq_cons_of (by simp) h
    exact ⟨.null, ts', rfl, rfl, hrest⟩
  | .bool b, _, _, h => by
    obtain ⟨ts', rfl, hrest⟩ := decodeTokens_eq_cons_of (by simp) h
    exact ⟨.bool b, ts', rfl, rfl, hrest⟩
  | .number n, _, _, h => by
    obtain ⟨ts', rfl, hrest⟩ := decodeTokens_eq_cons_of (by simp) h
    exact ⟨.number n, ts', rfl, rfl, hrest⟩
  | .string s, _, _, h => by
    obtain ⟨raw, ts', rfl, hraw, hrest⟩ := decodeTokens_eq_cons_string h
    exact ⟨.string raw, ts', rfl, by rw [decodeJson, hraw, Option.map_some], hrest⟩
  | .array items, ts, rest, h => by
    rw [tokens, List.cons_append, List.append_assoc] at h
    obtain ⟨ts₁, rfl, h₁⟩ := decodeTokens_eq_cons_of (by simp) h
    obtain ⟨ws, ts₂, rfl, hws, h₂⟩ := exists_written_items items h₁
    obtain ⟨ts₃, rfl, h₃⟩ := decodeTokens_eq_cons_of (by simp) h₂
    refine ⟨.array ws, ts₃, ?_, by rw [decodeJson, hws, Option.map_some], h₃⟩
    rw [tokens, List.cons_append, List.append_assoc]
    rfl
  | .object fields, ts, rest, h => by
    rw [tokens, List.cons_append, List.append_assoc] at h
    obtain ⟨ts₁, rfl, h₁⟩ := decodeTokens_eq_cons_of (by simp) h
    obtain ⟨ws, ts₂, rfl, hws, h₂⟩ := exists_written_fields fields h₁
    obtain ⟨ts₃, rfl, h₃⟩ := decodeTokens_eq_cons_of (by simp) h₂
    refine ⟨.object ws, ts₃, ?_, by rw [decodeJson, hws, Option.map_some], h₃⟩
    rw [tokens, List.cons_append, List.append_assoc]
    rfl

theorem exists_written_items : (vs : List Json) → {ts rest : List Token} → decodeTokens ts = some (itemTokens vs ++ rest) →
    Spells itemTokens decodeItems ts rest vs
  | [], ts, _, h => ⟨[], ts, rfl, rfl, h⟩
  | [v], _, _, h => by
    obtain ⟨w, ts', rfl, hw, hrest⟩ := exists_written_json v h
    exact ⟨[w], ts', rfl, by simp [decodeItems, hw], hrest⟩
  | v :: v' :: vs, ts, rest, h => by
    rw [itemTokens_cons_cons, List.append_assoc] at h
    obtain ⟨w, ts₁, rfl, hw, h₁⟩ := exists_written_json v h
    obtain ⟨ts₂, rfl, h₂⟩ := decodeTokens_eq_cons_of (by simp) h₁
    obtain ⟨ws, ts₃, rfl, hws, h₃⟩ := exists_written_items (v' :: vs) h₂
    obtain ⟨w', ws, rfl⟩ : ∃ w' ws', ws = w' :: ws' := by
      cases ws with
      | nil => cases hws
      | cons w' ws' => exact ⟨w', ws', rfl⟩
    refine ⟨w :: w' :: ws, ts₃, ?_, ?_, h₃⟩
    · rw [itemTokens_cons_cons, List.append_assoc, List.cons_append]
    · rw [decodeItems, hw, Option.bind_some, hws, Option.map_some]

theorem exists_written_fields : (fs : List (Text × Json)) → {ts rest : List Token} →
    decodeTokens ts = some (fieldTokens fs ++ rest) → Spells fieldTokens decodeFields ts rest fs
  | [], ts, _, h => ⟨[], ts, rfl, rfl, h⟩
  | [(key, v)], _, _, h => by
    obtain ⟨raw, ts₁, rfl, hraw, h₁⟩ := decodeTokens_eq_cons_string h
    obtain ⟨ts₂, rfl, h₂⟩ := decodeTokens_eq_cons_of (by simp) h₁
    obtain ⟨w, ts₃, rfl, hw, h₃⟩ := exists_written_json v h₂
    exact ⟨[(raw, w)], ts₃, rfl, by simp [decodeFields, hraw, hw], h₃⟩
  | (key, v) :: f :: fs, ts, rest, h => by
    rw [fieldTokens_cons_cons, List.cons_append, List.cons_append, List.append_assoc] at h
    obtain ⟨raw, ts₁, rfl, hraw, h₁⟩ := decodeTokens_eq_cons_string h
    obtain ⟨ts₂, rfl, h₂⟩ := decodeTokens_eq_cons_of (by simp) h₁
    obtain ⟨w, ts₃, rfl, hw, h₃⟩ := exists_written_json v h₂
    obtain ⟨ts₄, rfl, h₄⟩ := decodeTokens_eq_cons_of (by simp) h₃
    obtain ⟨ws, ts₅, rfl, hws, h₅⟩ := exists_written_fields (f :: fs) h₄
    obtain ⟨f', ws, rfl⟩ : ∃ f' ws', ws = f' :: ws' := by
      cases ws with
      | nil => cases hws
      | cons f' ws' => exact ⟨f', ws', rfl⟩
    refine ⟨(raw, w) :: f' :: ws, ts₅, ?_, ?_, h₅⟩
    · rw [fieldTokens_cons_cons, List.cons_append, List.cons_append, List.append_assoc, List.cons_append]
    · rw [decodeFields, hraw, Option.bind_some, hw, Option.bind_some, hws, Option.map_some]

end

/-- A text that holds a document is written with the tokens of a document. -/
theorem exists_written {t : Text} {v : Json} (h : read t = some v) :
    ∃ w, rawLex t = some (tokens w) ∧ decodeJson w = some v := by
  obtain ⟨ts, hlex, hread⟩ := Option.bind_eq_some_iff.mp h
  rw [lex_eq_rawLex] at hlex
  obtain ⟨raws, hraw, hdecode⟩ := Option.bind_eq_some_iff.mp hlex
  rw [tokens_of_readTokens hread, ← List.append_nil (tokens v)] at hdecode
  obtain ⟨w, ts', rfl, hw, hrest⟩ := exists_written_json v hdecode
  have hnil : ts' = [] := by
    cases ts' with
    | nil => rfl
    | cons token ts' =>
      rw [decodeTokens_cons] at hrest
      obtain ⟨token₁, -, hmap⟩ := Option.bind_eq_some_iff.mp hrest
      obtain ⟨us, -, heq⟩ := Option.map_eq_some_iff.mp hmap
      cases heq
  rw [hnil, List.append_nil] at hraw
  exact ⟨w, hraw, hw⟩

/-- What is read is the document as it is written, with its strings decoded. -/
theorem decodeJson_of_readRaw {t : Text} {w v : Json} (hraw : readRaw t = some w) (hread : read t = some v) :
    rawLex t = some (tokens w) ∧ decodeJson w = some v := by
  obtain ⟨w', hlex, hdecode⟩ := exists_written hread
  rw [readRaw, hlex, Option.bind_some, readTokens_tokens] at hraw
  cases hraw
  exact ⟨hlex, hdecode⟩

end OpenProxy
