import OpenProxy.Data.JsonDecode
import OpenProxy.Data.JsonTokens

/-!
# Places in a document

A place is a path of items and members.  A document whose keys are written without escapes has the same places as the
document that is read from it (`valueAt_decoded`).  The first object of a name, in the order of the text, is at a place of
that name if no object has a key twice (`exists_valueAt_of_firstObject`).
-/

namespace OpenProxy.Json

open Option (bind_eq_some_iff map_eq_some_iff)

/-! ### Places -/

/-- A step into a document. -/
inductive Segment
  | item (i : Nat)
  | member (key : Text)
  deriving DecidableEq

/-- What is found one step into a document. -/
def child (v : Json) : Segment → Option Json
  | .item i => v.asArray.bind (·[i]?)
  | .member key => v.get key

/-- What is found at a place. -/
def valueAt (v : Json) : List Segment → Option Json
  | [] => some v
  | segment :: place => (v.child segment).bind (valueAt · place)

theorem valueAt_append (v : Json) (place place' : List Segment) :
    v.valueAt (place ++ place') = (v.valueAt place).bind (valueAt · place') := by
  induction place generalizing v with
  | nil => rfl
  | cons segment place ih =>
    rw [List.cons_append, valueAt, valueAt, Option.bind_assoc]
    exact congrArg _ (funext ih)

theorem valueAt_snoc (v : Json) (place : List Segment) (segment : Segment) :
    v.valueAt (place ++ [segment]) = (v.valueAt place).bind (child · segment) := by
  rw [valueAt_append]
  exact congrArg _ (funext fun u => Option.bind_fun_some _)

/-! ### Objects -/

mutual

/-- The members of every object of a document. -/
def objects : Json → List (List (Text × Json))
  | array items => itemObjects items
  | object fields => fields :: fieldObjects fields
  | _ => []

def itemObjects : List Json → List (List (Text × Json))
  | [] => []
  | item :: items => objects item ++ itemObjects items

def fieldObjects : List (Text × Json) → List (List (Text × Json))
  | [] => []
  | (_, value) :: fields => objects value ++ fieldObjects fields

end

theorem objects_subset_itemObjects {item : Json} {items : List Json} (h : item ∈ items) :
    objects item ⊆ itemObjects items := by
  induction items with
  | nil => cases h
  | cons first items ih =>
    rcases List.mem_cons.mp h with rfl | hmem
    · exact List.subset_append_left _ _
    · exact List.Subset.trans (ih hmem) (List.subset_append_right _ _)

theorem objects_subset_fieldObjects {field : Text × Json} {fields : List (Text × Json)} (h : field ∈ fields) :
    objects field.2 ⊆ fieldObjects fields := by
  induction fields with
  | nil => cases h
  | cons first fields ih =>
    rcases List.mem_cons.mp h with rfl | hmem
    · exact List.subset_append_left _ _
    · exact List.Subset.trans (ih hmem) (List.subset_append_right _ _)

theorem objects_child {v u : Json} {segment : Segment} (h : v.child segment = some u) : objects u ⊆ objects v := by
  cases segment with
  | item i =>
    obtain ⟨items, hitems, hitem⟩ := bind_eq_some_iff.mp h
    cases v with
    | array items' =>
      cases hitems
      exact objects_subset_itemObjects (List.mem_of_getElem? hitem)
    | _ => cases hitems
  | member key =>
    obtain ⟨fields, hfields, hfield⟩ := bind_eq_some_iff.mp h
    cases v with
    | object fields' =>
      cases hfields
      exact List.Subset.trans (objects_subset_fieldObjects (mem_of_getField hfield)) (List.subset_cons_self _ _)
    | _ => cases hfields

theorem objects_valueAt {v u : Json} {place : List Segment} (h : v.valueAt place = some u) : objects u ⊆ objects v := by
  induction place generalizing v with
  | nil =>
    cases h
    exact List.Subset.refl _
  | cons segment place ih =>
    obtain ⟨v', hchild, hrest⟩ := bind_eq_some_iff.mp h
    exact List.Subset.trans (ih hrest) (objects_child hchild)

/-- No object of the document has a key twice. -/
def DistinctKeys (v : Json) : Prop := ∀ fields ∈ v.objects, (fields.map Prod.fst).Nodup

/-- No key of the document has an escape. -/
def PlainKeys (v : Json) : Prop := ∀ fields ∈ v.objects, ∀ field ∈ fields, '\\' ∉ field.1

instance (v : Json) : Decidable v.DistinctKeys := inferInstanceAs (Decidable (∀ fields ∈ v.objects, (fields.map Prod.fst).Nodup))

instance (v : Json) : Decidable v.PlainKeys :=
  inferInstanceAs (Decidable (∀ fields ∈ v.objects, ∀ field ∈ fields, '\\' ∉ field.1))

/-! ### The first object of a name -/

mutual

/-- The members of the first object that is the value of a member of the name. -/
def firstObject (name : Text) : Json → Option (List (Text × Json))
  | array items => firstOfItems name items
  | object fields => firstOfFields name fields
  | _ => none

def firstOfItems (name : Text) : List Json → Option (List (Text × Json))
  | [] => none
  | item :: items => (firstObject name item).or (firstOfItems name items)

def firstOfFields (name : Text) : List (Text × Json) → Option (List (Text × Json))
  | [] => none
  | (key, value) :: fields =>
    ((if key = name then value.asObject else none).or (firstObject name value)).or (firstOfFields name fields)

end

section

variable {name : Text}

theorem firstObject_of_mem_items {item : Json} {items : List Json} (h : firstOfItems name items = none)
    (hmem : item ∈ items) : firstObject name item = none := by
  induction items with
  | nil => cases hmem
  | cons first items ih =>
    rw [firstOfItems, Option.or_eq_none_iff] at h
    rcases List.mem_cons.mp hmem with rfl | hmem
    · exact h.1
    · exact ih h.2 hmem

theorem firstObject_of_mem_fields {field : Text × Json} {fields : List (Text × Json)} (h : firstOfFields name fields = none)
    (hmem : field ∈ fields) : (field.1 = name → field.2.asObject = none) ∧ firstObject name field.2 = none := by
  induction fields with
  | nil => cases hmem
  | cons first fields ih =>
    rw [firstOfFields, Option.or_eq_none_iff, Option.or_eq_none_iff] at h
    rcases List.mem_cons.mp hmem with rfl | hmem
    · refine ⟨fun hname => ?_, h.1.2⟩
      have hvalue := h.1.1
      rwa [if_pos hname] at hvalue
    · exact ih h.2 hmem

theorem firstObject_child {v u : Json} {segment : Segment} (h : firstObject name v = none)
    (hchild : v.child segment = some u) : firstObject name u = none := by
  cases segment with
  | item i =>
    obtain ⟨items, hitems, hitem⟩ := bind_eq_some_iff.mp hchild
    cases v with
    | array items' =>
      cases hitems
      exact firstObject_of_mem_items h (List.mem_of_getElem? hitem)
    | _ => cases hitems
  | member key =>
    obtain ⟨fields, hfields, hfield⟩ := bind_eq_some_iff.mp hchild
    cases v with
    | object fields' =>
      cases hfields
      exact (firstObject_of_mem_fields h (mem_of_getField hfield)).2
    | _ => cases hfields

/-- Where there is no first object, there is none at any place. -/
theorem valueAt_of_firstObject_eq_none {v : Json} (h : firstObject name v = none) (place : List Segment)
    (fields : List (Text × Json)) : v.valueAt (place ++ [.member name]) ≠ some (object fields) := by
  induction place generalizing v with
  | nil =>
    intro hvalue
    rw [valueAt_snoc, valueAt, Option.bind_some] at hvalue
    obtain ⟨members, hmembers, hfield⟩ := bind_eq_some_iff.mp hvalue
    cases v with
    | object fields' =>
      cases hmembers
      have hnone := (firstObject_of_mem_fields h (mem_of_getField hfield)).1 rfl
      cases hnone
    | _ => cases hmembers
  | cons segment place ih =>
    intro hvalue
    obtain ⟨u, hchild, hrest⟩ := bind_eq_some_iff.mp hvalue
    exact ih (firstObject_child h hchild) hrest

mutual

theorem exists_valueAt_json : (v : Json) → {fields : List (Text × Json)} → v.DistinctKeys →
    firstObject name v = some fields → ∃ place, v.valueAt (place ++ [.member name]) = some (object fields)
  | array items, fields, hkeys, h => by
    obtain ⟨i, item, place, hitem, hplace⟩ := exists_valueAt_items items hkeys h
    refine ⟨.item i :: place, ?_⟩
    rw [List.cons_append, valueAt, child, asArray, Option.bind_some, hitem, Option.bind_some, hplace]
  | object members, fields, hkeys, h => by
    obtain ⟨key, value, hvalue, hplace⟩ := exists_valueAt_fields members (hkeys _ List.mem_cons_self)
      (fun fs hfs => hkeys fs (List.mem_cons_of_mem _ hfs)) h
    rcases hplace with ⟨rfl, rfl⟩ | ⟨place, hplace⟩
    · refine ⟨[], ?_⟩
      rw [List.nil_append, valueAt, child, get_object, hvalue]
      rfl
    · refine ⟨.member key :: place, ?_⟩
      rw [List.cons_append, valueAt, child, get_object, hvalue, Option.bind_some, hplace]
  | null, _, _, h | bool _, _, _, h | number _, _, _, h | string _, _, _, h => by cases h

theorem exists_valueAt_items : (items : List Json) → {fields : List (Text × Json)} →
    (∀ fs ∈ itemObjects items, (fs.map Prod.fst).Nodup) → firstOfItems name items = some fields →
    ∃ (i : Nat) (item : Json) (place : List Segment), items[i]? = some item ∧
      item.valueAt (place ++ [.member name]) = some (object fields)
  | [], _, _, h => by cases h
  | item :: items, fields, hkeys, h => by
    rcases Option.or_eq_some_iff.mp h with hitem | ⟨-, hrest⟩
    · obtain ⟨place, hplace⟩ := exists_valueAt_json item (fun fs hfs => hkeys fs (List.mem_append_left _ hfs)) hitem
      exact ⟨0, item, place, rfl, hplace⟩
    · obtain ⟨i, item', place, hitem, hplace⟩ :=
        exists_valueAt_items items (fun fs hfs => hkeys fs (List.mem_append_right _ hfs)) hrest
      exact ⟨i + 1, item', place, hitem, hplace⟩

theorem exists_valueAt_fields : (members : List (Text × Json)) → {fields : List (Text × Json)} →
    (members.map Prod.fst).Nodup → (∀ fs ∈ fieldObjects members, (fs.map Prod.fst).Nodup) →
    firstOfFields name members = some fields →
    ∃ key value, getField members key = some value ∧
      ((key = name ∧ value = object fields) ∨
        ∃ place : List Segment, value.valueAt (place ++ [.member name]) = some (object fields))
  | [], _, _, _, h => by cases h
  | (key, value) :: members, fields, hnodup, hkeys, h => by
    rw [List.map_cons, List.nodup_cons] at hnodup
    have hhead : getField ((key, value) :: members) key = some value := by
      have hnone : getField members key = none := by
        rw [Option.eq_none_iff_forall_ne_some]
        intro u hu
        exact hnodup.1 (List.mem_map.mpr ⟨(key, u), mem_of_getField hu, rfl⟩)
      rw [getField_cons, hnone, if_pos rfl, Option.none_or]
    rcases Option.or_eq_some_iff.mp h with hvalue | ⟨-, hrest⟩
    · rcases Option.or_eq_some_iff.mp hvalue with hhere | ⟨-, hinside⟩
      · split_ifs at hhere with hname
        cases value with
        | object members' =>
          cases hhere
          exact ⟨key, _, hhead, .inl ⟨hname, rfl⟩⟩
        | _ => cases hhere
      · obtain ⟨place, hplace⟩ :=
          exists_valueAt_json value (fun fs hfs => hkeys fs (List.mem_append_left _ hfs)) hinside
        exact ⟨key, value, hhead, .inr ⟨place, hplace⟩⟩
    · obtain ⟨key', value', hvalue, hplace⟩ := exists_valueAt_fields members hnodup.2
        (fun fs hfs => hkeys fs (List.mem_append_right _ hfs)) hrest
      refine ⟨key', value', ?_, hplace⟩
      rw [getField_cons, hvalue, Option.some_or]

end

theorem exists_valueAt_of_firstObject {v : Json} {fields : List (Text × Json)} (hkeys : v.DistinctKeys)
    (h : firstObject name v = some fields) : ∃ place, v.valueAt (place ++ [.member name]) = some (object fields) :=
  exists_valueAt_json v hkeys h

end

/-! ### What is read -/

/-- A string without escapes stands for itself. -/
theorem lexFrom_of_plain {s r raw : Text} (h : lexFrom (.string s) raw = some (.string r, [])) (hplain : '\\' ∉ raw) :
    r = s ++ raw ∧ '"' ∉ raw := by
  induction raw generalizing s with
  | nil =>
    cases h
    exact ⟨(List.append_nil _).symm, List.not_mem_nil⟩
  | cons c raw ih =>
    obtain ⟨⟨y, ts⟩, hstep, hmap⟩ := bind_eq_some_iff.mp h
    obtain ⟨⟨z, us⟩, hrest, heq⟩ := map_eq_some_iff.mp hmap
    simp only [Prod.mk.injEq, List.append_eq_nil_iff] at heq
    obtain ⟨rfl, rfl, rfl⟩ := heq
    rw [List.mem_cons, not_or] at hplain
    simp only [lexStep] at hstep
    split_ifs at hstep with hquote hescape hcontrol
    · cases hstep
    · exact absurd hescape.symm hplain.1
    · cases hstep
      obtain ⟨heq, hnot⟩ := ih hrest hplain.2
      rw [heq, List.append_assoc, List.mem_cons, not_or]
      exact ⟨rfl, fun h => hquote h.symm, hnot⟩

theorem decodeString_of_plain {s raw : Text} (h : decodeString raw = some s) (hplain : '\\' ∉ raw) :
    s = raw ∧ '"' ∉ raw := by
  unfold decodeString at h
  split at h
  · rename_i s' heq
    cases h
    exact lexFrom_of_plain heq hplain
  · cases h

/-- Members that are read with their keys as they are written. -/
def Reads (fields fields' : List (Text × Json)) : Prop :=
  List.Forall₂ (fun field field' => decodeString field.1 = some field'.1 ∧ decodeJson field.2 = some field'.2) fields fields'

theorem reads_of_decodeFields {fields fields' : List (Text × Json)} (h : decodeFields fields = some fields') :
    Reads fields fields' := by
  induction fields generalizing fields' with
  | nil =>
    cases h
    exact .nil
  | cons field fields ih =>
    obtain ⟨key, hkey, h⟩ := bind_eq_some_iff.mp h
    obtain ⟨value, hvalue, h⟩ := bind_eq_some_iff.mp h
    obtain ⟨rest, hrest, rfl⟩ := map_eq_some_iff.mp h
    exact .cons ⟨hkey, hvalue⟩ (ih hrest)

theorem forall₂_of_decodeItems {items items' : List Json} (h : decodeItems items = some items') :
    List.Forall₂ (fun w v => decodeJson w = some v) items items' := by
  induction items generalizing items' with
  | nil =>
    cases h
    exact .nil
  | cons item items ih =>
    obtain ⟨value, hvalue, h⟩ := bind_eq_some_iff.mp h
    obtain ⟨rest, hrest, rfl⟩ := map_eq_some_iff.mp h
    exact .cons hvalue (ih hrest)

theorem Reads.map_fst {fields fields' : List (Text × Json)} (h : Reads fields fields')
    (hplain : ∀ field ∈ fields, '\\' ∉ field.1) : fields'.map Prod.fst = fields.map Prod.fst := by
  induction h with
  | nil => rfl
  | cons hfield _ ih =>
    rw [List.map_cons, List.map_cons, (decodeString_of_plain hfield.1 (hplain _ List.mem_cons_self)).1,
      ih fun field hmem => hplain field (List.mem_cons_of_mem _ hmem)]

/-- A key without escapes has no quotes. -/
theorem Reads.quote_not_mem {fields fields' : List (Text × Json)} (h : Reads fields fields')
    (hplain : ∀ field ∈ fields, '\\' ∉ field.1) : ∀ field ∈ fields, '"' ∉ field.1 := by
  induction h with
  | nil =>
    intro field hfield
    cases hfield
  | cons hfield _ ih =>
    rw [List.forall_mem_cons] at hplain ⊢
    exact ⟨(decodeString_of_plain hfield.1 hplain.1).2, ih hplain.2⟩

theorem Reads.getField {fields fields' : List (Text × Json)} (h : Reads fields fields')
    (hplain : ∀ field ∈ fields, '\\' ∉ field.1) (key : Text) :
    Option.Rel (fun w v => decodeJson w = some v) (Json.getField fields key) (Json.getField fields' key) := by
  induction h with
  | nil => exact .none
  | @cons field field' fields fields' hfield _ ih =>
    have hkey := (decodeString_of_plain hfield.1 (hplain _ List.mem_cons_self)).1
    have hrest := ih fun field hmem => hplain field (List.mem_cons_of_mem _ hmem)
    obtain ⟨k, w⟩ := field
    obtain ⟨k', v⟩ := field'
    rw [getField_cons, getField_cons, show k' = k from hkey]
    generalize Json.getField fields key = found at hrest ⊢
    generalize Json.getField fields' key = found' at hrest ⊢
    cases hrest with
    | none =>
      rw [Option.none_or, Option.none_or]
      split
      · exact .some hfield.2
      · exact .none
    | some hvalue => exact .some hvalue

theorem child_decoded {w v : Json} (h : decodeJson w = some v) (hplain : w.PlainKeys) (segment : Segment) :
    Option.Rel (fun w v => decodeJson w = some v) (w.child segment) (v.child segment) := by
  cases w with
  | null | bool b | number n =>
    cases h
    cases segment <;> exact .none
  | string raw =>
    obtain ⟨s, -, rfl⟩ := map_eq_some_iff.mp h
    cases segment <;> exact .none
  | array items =>
    obtain ⟨items', hitems, rfl⟩ := map_eq_some_iff.mp h
    cases segment with
    | member key => exact .none
    | item i =>
      have hall := forall₂_of_decodeItems hitems
      show Option.Rel _ (items[i]?) (items'[i]?)
      rcases Nat.lt_or_ge i items.length with hlt | hge
      · have hlt' : i < items'.length := hall.length_eq ▸ hlt
        rw [List.getElem?_eq_getElem hlt, List.getElem?_eq_getElem hlt']
        exact .some (hall.get hlt hlt')
      · rw [List.getElem?_eq_none hge, List.getElem?_eq_none (hall.length_eq ▸ hge)]
        exact .none
  | object fields =>
    obtain ⟨fields', hfields, rfl⟩ := map_eq_some_iff.mp h
    cases segment with
    | item i => exact .none
    | member key => exact (reads_of_decodeFields hfields).getField (hplain _ List.mem_cons_self) key

/-- The places of a document are those of the document that is read from it. -/
theorem valueAt_decoded {w v : Json} (h : decodeJson w = some v) (hplain : w.PlainKeys) (place : List Segment) :
    Option.Rel (fun w v => decodeJson w = some v) (w.valueAt place) (v.valueAt place) := by
  induction place generalizing w v with
  | nil => exact .some h
  | cons segment place ih =>
    have hchild := child_decoded h hplain segment
    have hsub : ∀ u, w.child segment = some u → u.PlainKeys := fun u hu fields hfields =>
      hplain fields (objects_child hu hfields)
    rw [valueAt, valueAt]
    generalize w.child segment = found at hchild hsub ⊢
    generalize v.child segment = found' at hchild ⊢
    cases hchild with
    | none => exact .none
    | some hu => exact ih hu (hsub _ rfl)

mutual

theorem objects_decoded : (w : Json) → {v : Json} → decodeJson w = some v → List.Forall₂ Reads w.objects v.objects
  | null, _, h | bool _, _, h | number _, _, h => by
    cases h
    exact .nil
  | string _, _, h => by
    obtain ⟨s, -, rfl⟩ := map_eq_some_iff.mp h
    exact .nil
  | array items, _, h => by
    obtain ⟨items', hitems, rfl⟩ := map_eq_some_iff.mp h
    exact itemObjects_decoded items hitems
  | object fields, _, h => by
    obtain ⟨fields', hfields, rfl⟩ := map_eq_some_iff.mp h
    exact .cons (reads_of_decodeFields hfields) (fieldObjects_decoded fields hfields)

theorem itemObjects_decoded : (items : List Json) → {items' : List Json} → decodeItems items = some items' →
    List.Forall₂ Reads (itemObjects items) (itemObjects items')
  | [], _, h => by
    cases h
    exact .nil
  | item :: items, _, h => by
    obtain ⟨value, hvalue, h⟩ := bind_eq_some_iff.mp h
    obtain ⟨rest, hrest, rfl⟩ := map_eq_some_iff.mp h
    exact List.rel_append (objects_decoded item hvalue) (itemObjects_decoded items hrest)

theorem fieldObjects_decoded : (fields : List (Text × Json)) → {fields' : List (Text × Json)} →
    decodeFields fields = some fields' → List.Forall₂ Reads (fieldObjects fields) (fieldObjects fields')
  | [], _, h => by
    cases h
    exact .nil
  | (key, value) :: fields, _, h => by
    obtain ⟨key', -, h⟩ := bind_eq_some_iff.mp h
    obtain ⟨value', hvalue, h⟩ := bind_eq_some_iff.mp h
    obtain ⟨rest, hrest, rfl⟩ := map_eq_some_iff.mp h
    exact List.rel_append (objects_decoded value hvalue) (fieldObjects_decoded fields hrest)

end

theorem distinctKeys_of_decoded {w v : Json} (h : decodeJson w = some v) (hplain : w.PlainKeys) (hkeys : v.DistinctKeys) :
    w.DistinctKeys := by
  have hobjects := objects_decoded w h
  unfold DistinctKeys PlainKeys at *
  generalize w.objects = written at hobjects hplain ⊢
  generalize v.objects = read at hobjects hkeys
  induction hobjects with
  | nil =>
    intro fields hfields
    cases hfields
  | cons hreads _ ih =>
    rw [List.forall_mem_cons] at hplain hkeys ⊢
    rw [hreads.map_fst hplain.1] at hkeys
    exact ⟨hkeys.1, ih hplain.2 hkeys.2⟩

theorem quote_not_mem_of_decoded {w v : Json} (h : decodeJson w = some v) (hplain : w.PlainKeys) :
    ∀ fields ∈ w.objects, ∀ field ∈ fields, '"' ∉ field.1 := by
  have hobjects := objects_decoded w h
  unfold PlainKeys at hplain
  generalize w.objects = written at hobjects hplain ⊢
  generalize v.objects = read at hobjects
  induction hobjects with
  | nil =>
    intro fields hfields
    cases hfields
  | cons hreads _ ih =>
    rw [List.forall_mem_cons] at hplain ⊢
    exact ⟨hreads.quote_not_mem hplain.1, ih hplain.2⟩

end OpenProxy.Json
