import OpenProxy.Data.JsonReplace

/-!
# JSON documents with a limit and as structures

A reader with a limit reads what is not deeper than the limit.  The edits of a document do not make it deeper than it was
and than what is put into it, and the value that a document stands for stands for itself (`normal_normal`).  A derived
`Deserialize` reads a document as a structure: from its members, of which none that the structure names may be given twice,
or from the list of the values of its fields.
-/

namespace OpenProxy

namespace Json

theorem itemsDepth_le {items : List Json} {d : Nat} : itemsDepth items ≤ d ↔ ∀ item ∈ items, item.depth ≤ d := by
  induction items with
  | nil => simp [itemsDepth]
  | cons item items ih => simp [itemsDepth, ih]

theorem fieldsDepth_le {fields : List (Text × Json)} {d : Nat} :
    fieldsDepth fields ≤ d ↔ ∀ field ∈ fields, field.2.depth ≤ d := by
  induction fields with
  | nil => simp [fieldsDepth]
  | cons field fields ih => simp [fieldsDepth, ih]

theorem depth_array_le {items : List Json} {d : Nat} :
    (array items).depth ≤ d + 1 ↔ ∀ item ∈ items, item.depth ≤ d := by
  rw [depth, Nat.add_le_add_iff_right, itemsDepth_le]

theorem depth_object_le {fields : List (Text × Json)} {d : Nat} :
    (object fields).depth ≤ d + 1 ↔ ∀ field ∈ fields, field.2.depth ≤ d := by
  rw [depth, Nat.add_le_add_iff_right, fieldsDepth_le]

/-! ### Members -/

theorem mem_of_getField {fields : List (Text × Json)} {key : Text} {v : Json} (h : getField fields key = some v) :
    (key, v) ∈ fields := by
  rw [getField, Option.map_eq_some_iff] at h
  obtain ⟨field, hfield, rfl⟩ := h
  have hmem := List.mem_of_find?_eq_some hfield
  have hkey := List.find?_some hfield
  rw [beq_iff_eq] at hkey
  rw [List.mem_reverse] at hmem
  rwa [← hkey]

theorem mem_of_mem_insertField {field : Text × Json} {key : Text} {value : Json} {fields : List (Text × Json)}
    (h : field ∈ insertField key value fields) : field = (key, value) ∨ field ∈ fields := by
  have hrest : ∀ f ∈ removeField key fields, f ∈ fields := fun f hf => (List.mem_filter.mp hf).1
  rw [insertField, List.mem_append, List.mem_cons] at h
  rcases h with h | h | h
  · exact Or.inr (hrest _ ((List.takeWhile_sublist _).subset h))
  · exact Or.inl h
  · exact Or.inr (hrest _ ((List.dropWhile_sublist _).subset h))

theorem mem_of_mem_normalFields {field : Text × Json} {fields : List (Text × Json)} (h : field ∈ normalFields fields) :
    ∃ v, (field.1, v) ∈ fields ∧ field.2 = v.normal := by
  induction fields with
  | nil => simp [normalFields] at h
  | cons first fields ih =>
    obtain ⟨key, value⟩ := first
    have hrest : field ∈ normalFields fields → ∃ v, (field.1, v) ∈ (key, value) :: fields ∧ field.2 = v.normal := by
      intro hmem
      obtain ⟨v, hv, heq⟩ := ih hmem
      exact ⟨v, List.mem_cons_of_mem _ hv, heq⟩
    unfold normalFields at h
    dsimp only at h
    split at h
    · exact hrest h
    · rcases mem_of_mem_insertField h with rfl | hmem
      · exact ⟨value, List.mem_cons_self, rfl⟩
      · exact hrest hmem

/-! ### Edits -/

theorem depth_le_of_getField {fields : List (Text × Json)} {key : Text} {v : Json} (h : getField fields key = some v) :
    v.depth ≤ fieldsDepth fields := fieldsDepth_le.mp le_rfl _ (mem_of_getField h)

theorem depth_lt_of_get {v u : Json} {key : Text} (h : v.get key = some u) : u.depth < v.depth := by
  rw [get, Option.bind_eq_some_iff] at h
  obtain ⟨fields, hfields, hget⟩ := h
  cases v with
  | object fields' =>
    cases hfields
    rw [depth]
    exact Nat.lt_succ_of_le (depth_le_of_getField hget)
  | null | bool b | number n | string s | array items => cases hfields

theorem fieldsDepth_insertField_le (key : Text) (value : Json) (fields : List (Text × Json)) :
    fieldsDepth (insertField key value fields) ≤ max value.depth (fieldsDepth fields) := by
  rw [fieldsDepth_le]
  intro field hfield
  rcases mem_of_mem_insertField hfield with rfl | hmem
  · exact le_max_left _ _
  · exact le_max_of_le_right (fieldsDepth_le.mp le_rfl _ hmem)

theorem fieldsDepth_removeField_le (key : Text) (fields : List (Text × Json)) :
    fieldsDepth (removeField key fields) ≤ fieldsDepth fields :=
  fieldsDepth_le.mpr fun field hfield => fieldsDepth_le.mp le_rfl field (List.mem_filter.mp hfield).1

mutual

/-- The value that a document stands for is not deeper than the document. -/
theorem depth_normal_le : (v : Json) → v.normal.depth ≤ v.depth
  | null | bool _ | number _ | string _ => by simp [normal, depth]
  | array items => by
    rw [normal, depth, depth]
    exact Nat.succ_le_succ (itemsDepth_normalItems_le items)
  | object fields => by
    rw [normal, depth, depth]
    exact Nat.succ_le_succ (fieldsDepth_normalFields_le fields)

theorem itemsDepth_normalItems_le : (items : List Json) → itemsDepth (normalItems items) ≤ itemsDepth items
  | [] => le_rfl
  | item :: items => by
    rw [normalItems, itemsDepth, itemsDepth]
    exact max_le_max (depth_normal_le item) (itemsDepth_normalItems_le items)

theorem fieldsDepth_normalFields_le : (fields : List (Text × Json)) → fieldsDepth (normalFields fields) ≤ fieldsDepth fields
  | [] => le_rfl
  | (key, value) :: fields => by
    have hvalue := depth_normal_le value
    have hrest := fieldsDepth_normalFields_le fields
    rw [normalFields]
    split
    · exact le_max_of_le_right hrest
    · have hinsert := fieldsDepth_insertField_le key value.normal (normalFields fields)
      rw [fieldsDepth]
      omega

end

mutual

theorem depth_blank : (v : Json) → v.blank.depth = v.depth
  | null | bool _ | number _ | string _ => by simp [blank, depth]
  | array items => by rw [blank, depth, depth, itemsDepth_blankItems items]
  | object fields => by rw [blank, depth, depth, fieldsDepth_blankFields fields]

theorem itemsDepth_blankItems : (items : List Json) → itemsDepth (blankItems items) = itemsDepth items
  | [] => rfl
  | item :: items => by rw [blankItems, itemsDepth, itemsDepth, depth_blank item, itemsDepth_blankItems items]

theorem fieldsDepth_blankFields : (fields : List (Text × Json)) → fieldsDepth (blankFields fields) = fieldsDepth fields
  | [] => rfl
  | (key, value) :: fields => by
    rw [blankFields, fieldsDepth, fieldsDepth, depth_blank value, fieldsDepth_blankFields fields]

end

/-! ### Values that stand for themselves -/

/-- The members in the order of their names. -/
def SortedFields (fields : List (Text × Json)) : Prop := fields.Pairwise fun a b => textLt a.1 b.1 = true

theorem sortedFields_insertField {fields : List (Text × Json)} (h : SortedFields fields) (key : Text) (value : Json) :
    SortedFields (insertField key value fields) := by
  have hrest : SortedFields (removeField key fields) := h.filter _
  have hne : ∀ f ∈ removeField key fields, f.1 ≠ key := fun f hf => by simpa using (List.mem_filter.mp hf).2
  have hbefore : ∀ f ∈ (removeField key fields).takeWhile (fun field => textLt field.1 key), textLt f.1 key = true :=
    fun f hf => by simpa using List.mem_takeWhile_imp hf
  have hsplit := List.takeWhile_append_dropWhile (p := fun field => textLt field.1 key) (l := removeField key fields)
  have hparts : SortedFields ((removeField key fields).takeWhile (fun field => textLt field.1 key) ++
      (removeField key fields).dropWhile fun field => textLt field.1 key) := by
    rw [hsplit]
    exact hrest
  obtain ⟨htake, hdrop, hcross⟩ := List.pairwise_append.mp hparts
  have hafter : ∀ f ∈ (removeField key fields).dropWhile (fun field => textLt field.1 key), textLt key f.1 = true := by
    intro f hf
    cases hd : (removeField key fields).dropWhile (fun field => textLt field.1 key) with
    | nil =>
      rw [hd] at hf
      exact absurd hf List.not_mem_nil
    | cons first rest =>
      have hfirst : ¬ textLt first.1 key = true := by
        have hhead := List.head_dropWhile_not (fun field : Text × Json => textLt field.1 key)
          (l := removeField key fields) (by rw [hd]; simp)
        simpa [hd] using hhead
      have hmem : first ∈ removeField key fields :=
        (List.dropWhile_sublist _).subset (by rw [hd]; exact List.mem_cons_self)
      have hlt : textLt key first.1 = true := by
        rcases textLt_trichotomy first.1 key with hlt | heq | hlt
        · exact absurd hlt hfirst
        · exact absurd heq (hne first hmem)
        · exact hlt
      rw [hd] at hf hdrop
      rcases List.mem_cons.mp hf with rfl | hf
      · exact hlt
      · exact textLt_trans hlt ((List.pairwise_cons.mp hdrop).1 f hf)
  refine List.pairwise_append.mpr ⟨htake, List.pairwise_cons.mpr ⟨hafter, hdrop⟩, fun a ha b hb => ?_⟩
  rcases List.mem_cons.mp hb with rfl | hb
  · exact hbefore a ha
  · exact hcross a ha b hb

theorem sortedFields_normalFields (fields : List (Text × Json)) : SortedFields (normalFields fields) := by
  induction fields with
  | nil => exact List.Pairwise.nil
  | cons field fields ih =>
    obtain ⟨key, value⟩ := field
    rw [normalFields]
    split
    · exact ih
    · exact sortedFields_insertField ih key value.normal

/-- Sorted members with values that stand for themselves are what they stand for. -/
theorem normalFields_of_sorted {fields : List (Text × Json)} (h : SortedFields fields)
    (hvalues : ∀ field ∈ fields, field.2.normal = field.2) : normalFields fields = fields := by
  induction fields with
  | nil => rfl
  | cons field fields ih =>
    obtain ⟨key, value⟩ := field
    obtain ⟨hfirst, hrest⟩ := List.pairwise_cons.mp h
    have hne : ∀ f ∈ fields, f.1 ≠ key := by
      intro f hf heq
      have hlt := hfirst f hf
      rw [heq, textLt_irrefl] at hlt
      cases hlt
    have hnone : getField fields key = none := by
      rw [Option.eq_none_iff_forall_ne_some]
      intro v hv
      exact hne _ (mem_of_getField hv) rfl
    have hremove : removeField key fields = fields := List.filter_eq_self.mpr fun f hf => by simpa using hne f hf
    have htake : fields.takeWhile (fun field => textLt field.1 key) = [] ∧
        fields.dropWhile (fun field => textLt field.1 key) = fields := by
      cases fields with
      | nil => exact ⟨rfl, rfl⟩
      | cons first rest =>
        have hnot : ¬ textLt first.1 key = true := by
          intro hlt
          have hself := textLt_trans (hfirst first List.mem_cons_self) hlt
          rw [textLt_irrefl] at hself
          cases hself
        exact ⟨List.takeWhile_cons_of_neg hnot, List.dropWhile_cons_of_neg hnot⟩
    rw [normalFields, ih hrest fun f hf => hvalues f (List.mem_cons_of_mem _ hf)]
    rw [hnone, if_neg (by simp), hvalues _ List.mem_cons_self, insertField, hremove, htake.1, htake.2, List.nil_append]

mutual

theorem normal_normal : (v : Json) → v.normal.normal = v.normal
  | .null | .bool _ | .number _ | .string _ => rfl
  | .array items => by rw [normal, normal, normalItems_normalItems items]
  | .object fields => by
    rw [normal, normal, normalFields_of_sorted (sortedFields_normalFields fields) (normal_of_mem_normalFields fields)]

theorem normalItems_normalItems : (items : List Json) → normalItems (normalItems items) = normalItems items
  | [] => rfl
  | item :: items => by rw [normalItems, normalItems, normal_normal item, normalItems_normalItems items]

theorem normal_of_mem_normalFields : (fields : List (Text × Json)) → ∀ field ∈ normalFields fields,
    field.2.normal = field.2
  | [], _, h => absurd h List.not_mem_nil
  | (key, value) :: fields, field, h => by
    have hrest := normal_of_mem_normalFields fields field
    rw [normalFields] at h
    split at h
    · exact hrest h
    · rcases mem_of_mem_insertField h with rfl | h
      · exact normal_normal value
      · exact hrest h

end

/-! ### Reading with a limit -/

theorem fromStr_eq_some {t : Text} {v : Json} : fromStr t = some v ↔ ∃ u, read t = some u ∧ u.depth ≤ 127 ∧ u.normal = v := by
  rw [fromStr, Option.bind_eq_some_iff]
  refine exists_congr fun u => and_congr_right fun _ => ?_
  split
  · rename_i hdepth
    simp [hdepth]
  · rename_i hdepth
    simp [hdepth]

theorem fromStr_write {v : Json} (h : v.depth ≤ 127) : fromStr (write v) = some v.normal :=
  fromStr_eq_some.mpr ⟨v, read_write v, h, rfl⟩

end Json

/-! ### Structures -/

open Json

/-- The member of a name, if it is given once. -/
def memberOf (fields : List (Text × Json)) (key : Text) : Option (Option Json) :=
  match fields.filter fun field => field.1 == key with
  | [] => some none
  | [(_, v)] => some (some v)
  | _ => none

/-- A field of a structure with `count` fields.  Only fields with a default may be missing at the end of a list. -/
def structMember (key : Text) (position count : Nat) (default : Bool) : Json → Option (Option Json)
  | object fields => memberOf fields key
  | array items =>
    if items.length = count ∨ (default = true ∧ items.length ≤ count) then some items[position]? else none
  | _ => none

/-- An optional field may be missing or null. -/
def asOptional {α : Type} (decode : Json → Option α) : Option Json → Option (Option α)
  | none => some none
  | some .null => some none
  | some v => (decode v).map some

/-- A field with a default value may be missing. -/
def asDefault {α : Type} (default : α) (decode : Json → Option α) : Option Json → Option α
  | none => some default
  | some v => decode v

/-- An optional field of a structure that is given by its members. -/
def optionalField {α : Type} (decode : Json → Option α) (key : Text) (fields : List (Text × Json)) :
    Option (Option α) := (memberOf fields key).bind (asOptional decode)

/-- The members that a structure with a flattened map does not name. -/
def extraFields (known : List Text) (fields : List (Text × Json)) : List (Text × Json) :=
  normalFields (fields.filter fun field => !known.contains field.1)

/-- A list of values of one kind. -/
def decodeList {α : Type} (decode : Json → Option α) (v : Json) : Option (List α) :=
  v.asArray.bind fun items => items.mapM decode

/-- `u64`. -/
def decodeU64 : Json → Option Nat
  | .number n => n.asU64
  | _ => none

/-- `u32`. -/
def decodeU32 (v : Json) : Option Nat := (decodeU64 v).bind fun n => if n < 2 ^ 32 then some n else none

/-- `i64`. -/
def decodeI64 : Json → Option Int
  | .number n =>
    match n.digits with
    | '-' :: digits =>
      if digits.all Char.isDigit ∧ 0 < digitsValue digits ∧ digitsValue digits ≤ 2 ^ 63 then
        some (-(digitsValue digits : Int))
      else none
    | _ => n.asU64.bind fun value => if value < 2 ^ 63 then some value else none
  | _ => none

/-- A value that stands under `outer` arrays and objects. -/
def decodeValue (outer : Nat) (v : Json) : Option Json := if outer + v.depth ≤ 127 then some v.normal else none

/-- The members that are not named do not have a name of a field. -/
theorem getField_extraFields {known : List Text} {key : Text} (h : key ∈ known) (fields : List (Text × Json)) :
    getField (extraFields known fields) key = none := by
  rw [extraFields, getField_normalFields, Option.map_eq_none_iff, getField, Option.map_eq_none_iff, List.find?_eq_none]
  intro field hfield heq
  rw [List.mem_reverse, List.mem_filter] at hfield
  rw [beq_iff_eq] at heq
  simp [heq, h] at hfield

/-- A member is found among the members of its name. -/
theorem getField_eq_getLast? (fields : List (Text × Json)) (key : Text) :
    getField fields key = ((fields.filter fun field => field.1 == key).getLast?).map (·.2) := by
  rw [getField, ← List.head?_filter, List.filter_reverse, List.head?_reverse]

theorem getField_of_memberOf {fields : List (Text × Json)} {key : Text} {v : Option Json}
    (h : memberOf fields key = some v) : getField fields key = v := by
  rw [getField_eq_getLast?]
  unfold memberOf at h
  split at h
  · rename_i hnil
    cases h
    rw [hnil]
    rfl
  · rename_i heq
    cases h
    rw [heq]
    rfl
  · cases h

/-- What a field is read from: nothing, null or a value that is decoded. -/
theorem optionalField_eq_some {α : Type} {decode : Json → Option α} {key : Text} {fields : List (Text × Json)} {r : Option α}
    (h : optionalField decode key fields = some r) :
    (r = none ∧ (getField fields key = none ∨ getField fields key = some .null)) ∨
      ∃ v a, getField fields key = some v ∧ decode v = some a ∧ r = some a := by
  rw [optionalField, Option.bind_eq_some_iff] at h
  obtain ⟨member, hmember, h⟩ := h
  have hget := getField_of_memberOf hmember
  unfold asOptional at h
  split at h
  · cases h
    exact Or.inl ⟨rfl, Or.inl hget⟩
  · cases h
    exact Or.inl ⟨rfl, Or.inr hget⟩
  · rename_i v _
    rw [Option.map_eq_some_iff] at h
    obtain ⟨a, ha, rfl⟩ := h
    exact Or.inr ⟨v, a, hget, ha, rfl⟩

/-- The members that are not named are kept. -/
theorem getField_extraFields_of_not_mem {known : List Text} {key : Text} (h : key ∉ known) (fields : List (Text × Json)) :
    getField (extraFields known fields) key = (getField fields key).map normal := by
  have hsame : (fields.filter fun field => !known.contains field.1).filter (fun field => field.1 == key) =
      fields.filter fun field => field.1 == key := by
    rw [List.filter_filter]
    refine List.filter_congr fun field _ => ?_
    by_cases hkey : field.1 = key
    · simp [hkey, h]
    · simp [hkey]
  rw [extraFields, getField_normalFields, getField_eq_getLast?, getField_eq_getLast?, hsame]

theorem mem_extraFields {known : List Text} {fields : List (Text × Json)} {field : Text × Json}
    (h : field ∈ extraFields known fields) : ∃ v, (field.1, v) ∈ fields ∧ field.2 = v.normal := by
  obtain ⟨v, hv, heq⟩ := mem_of_mem_normalFields h
  exact ⟨v, (List.mem_filter.mp hv).1, heq⟩

end OpenProxy
