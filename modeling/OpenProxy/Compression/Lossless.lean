import OpenProxy.Compression.Csv
import OpenProxy.Data.JsonNumbers

/-!
# What the table of an array tells

An array of objects can be read back from the text of `try_lossless_csv` only where all its values are strings, and not
empty, nor the text of another value: a missing member, `null` and the empty string leave the same cell, and a number
leaves the cell of the text that `serde_json` prints for it.  Even then the names must have neither commas nor line
breaks, since the header of another array can go over the first lines of the table (`lossless_iff`).
-/

namespace OpenProxy.Compression

open Json

section

variable (prints : JsonNumber → Bool)

/-- The values of `serde_json`, where `prints` are the texts that it prints for numbers. -/
def IsValue (v : Json) : Prop := v.isCanonical = true ∧ v.allNumbers prints = true

instance instDecidableIsValue (v : Json) : Decidable (IsValue prints v) :=
  inferInstanceAs (Decidable (v.isCanonical = true ∧ v.allNumbers prints = true))

/-- The arrays of `serde_json` whose items are objects. -/
def ObjectArray (arr : List Json) : Prop := ∀ item ∈ arr, item.asObject.isSome = true ∧ IsValue prints item

instance instDecidableObjectArray (arr : List Json) : Decidable (ObjectArray prints arr) :=
  inferInstanceAs (Decidable (∀ item ∈ arr, item.asObject.isSome = true ∧ IsValue prints item))

end

/-! ### Names -/

/-- The names are in order. -/
def SortedTexts (names : List Text) : Prop := names.Pairwise fun a b => textLt a b = true

theorem mem_insertName {name n : Text} {names : List Text} : n ∈ insertName name names ↔ n = name ∨ n ∈ names := by
  induction names with
  | nil => simp [insertName]
  | cons m names ih =>
    unfold insertName
    split
    · simp
    · split
      · rename_i h
        simp [h]
      · rw [List.mem_cons, ih, List.mem_cons]
        exact or_left_comm

theorem sortedTexts_insertName {name : Text} {names : List Text} (h : SortedTexts names) :
    SortedTexts (insertName name names) := by
  induction names with
  | nil => exact List.pairwise_singleton _ _
  | cons m names ih =>
    obtain ⟨hfirst, hrest⟩ := List.pairwise_cons.1 h
    unfold insertName
    split
    · rename_i hlt
      refine List.pairwise_cons.2 ⟨fun n hn => ?_, h⟩
      rcases List.mem_cons.1 hn with rfl | hn
      · exact hlt
      · exact textLt_trans hlt (hfirst n hn)
    · split
      · exact h
      · rename_i hlt hne
        refine List.pairwise_cons.2 ⟨fun n hn => ?_, ih hrest⟩
        rcases mem_insertName.1 hn with rfl | hn
        · rcases textLt_trichotomy n m with h' | h' | h'
          · exact absurd h' hlt
          · exact absurd h' hne
          · exact h'
        · exact hfirst n hn

private theorem foldl_insertName {inserted names : List Text} (h : SortedTexts names) :
    SortedTexts (inserted.foldl (fun names name => insertName name names) names) ∧
      ∀ n, n ∈ inserted.foldl (fun names name => insertName name names) names ↔ n ∈ inserted ∨ n ∈ names := by
  induction inserted generalizing names with
  | nil => exact ⟨h, by simp⟩
  | cons name inserted ih =>
    obtain ⟨hsorted, hmem⟩ := ih (sortedTexts_insertName h)
    refine ⟨hsorted, fun n => ?_⟩
    rw [List.foldl_cons, hmem, mem_insertName, List.mem_cons, ← or_assoc, or_comm (a := n ∈ inserted)]

theorem sortedTexts_allFields (arr : List Json) : SortedTexts (allFields arr) := (foldl_insertName List.Pairwise.nil).1

theorem mem_allFields {arr : List Json} {name : Text} : name ∈ allFields arr ↔ ∃ item ∈ arr, name ∈ fieldNames item := by
  unfold allFields
  rw [(foldl_insertName List.Pairwise.nil).2, List.mem_flatMap]
  simp

theorem SortedTexts.nodup {names : List Text} (h : SortedTexts names) : names.Nodup := by
  refine h.imp ?_
  rintro a b hab rfl
  rw [textLt_irrefl] at hab
  cases hab

/-- Names in order are determined by what they are. -/
theorem SortedTexts.eq_of_mem_iff {names names' : List Text} (h : SortedTexts names) (h' : SortedTexts names')
    (hmem : ∀ n, n ∈ names ↔ n ∈ names') : names = names' := by
  have hperm : names.Perm names' := (List.perm_ext_iff_of_nodup h.nodup h'.nodup).2 hmem
  refine hperm.eq_of_pairwise (fun a b _ _ hab hba => ?_) h h'
  have := textLt_trans hab hba
  rw [textLt_irrefl] at this
  cases this

/-! ### Arrays from tables -/

/-- The object with the given values under the names. -/
def rowObject (names : List Text) (values : List Json) : Json := .object (names.zip values)

/-- The array with the given rows. -/
def tableOf (names : List Text) (rows : List (List Json)) : List Json := rows.map (rowObject names)

/-- A member of a row is the value at its place. -/
theorem getField_zip {names : List Text} {values : List Json} (h : names.Nodup) (hlen : values.length = names.length) :
    names.map (getField (names.zip values)) = values.map some := by
  induction names generalizing values with
  | nil =>
    rw [List.length_nil, List.length_eq_zero_iff] at hlen
    subst hlen
    rfl
  | cons name names ih =>
    cases values with
    | nil => cases hlen
    | cons value values =>
      obtain ⟨hname, hnodup⟩ := List.nodup_cons.1 h
      have hnone : getField (names.zip values) name = none := by
        rw [getField_eq_none_iff]
        rintro ⟨n, v⟩ hfield rfl
        exact hname (List.of_mem_zip hfield).1
      have hrest : names.map (getField ((name, value) :: names.zip values)) = names.map (getField (names.zip values)) := by
        apply List.map_congr_left
        intro n hn
        have hne : name ≠ n := fun heq => hname (heq ▸ hn)
        rw [getField_cons, if_neg hne, Option.or_none]
      rw [List.zip_cons_cons, List.map_cons, List.map_cons, hrest, ih hnodup (by simpa using hlen), getField_cons, hnone,
        if_pos rfl, Option.none_or]

private theorem atLeast_self {total : Nat} (h : total ≠ 0) : atLeast total total coverageNum coverageDen = true := by
  unfold atLeast
  rw [if_neg h, decide_eq_true_iff]
  exact Nat.mul_le_mul_left _ (by decide)

section Table

variable {prints : JsonNumber → Bool} {names : List Text} {rows : List (List Json)} (hnames : SortedTexts names)
  (hrows : ∀ row ∈ rows, row.length = names.length)

include hnames hrows

theorem allFields_tableOf (hne : rows ≠ []) : allFields (tableOf names rows) = names := by
  refine (sortedTexts_allFields _).eq_of_mem_iff hnames fun n => ?_
  have hfields : ∀ row ∈ rows, fieldNames (rowObject names row) = names := by
    intro row hrow
    exact List.map_fst_zip (hrows row hrow).ge
  rw [mem_allFields]
  constructor
  · rintro ⟨item, hitem, hn⟩
    obtain ⟨row, hrow, rfl⟩ := List.mem_map.1 hitem
    rwa [hfields row hrow] at hn
  · intro hn
    obtain ⟨row, hrow⟩ := List.exists_mem_of_ne_nil rows hne
    exact ⟨rowObject names row, List.mem_map_of_mem hrow, by rwa [hfields row hrow]⟩

theorem cellsOf_tableOf : cellsOf names (tableOf names rows) = rows.map fun row => row.map fun v => rawCell (some v) := by
  unfold cellsOf tableOf
  rw [List.map_map]
  apply List.map_congr_left
  intro row hrow
  have hget := congrArg (List.map rawCell) (getField_zip hnames.nodup (hrows row hrow))
  rw [List.map_map, List.map_map] at hget
  exact hget

theorem objectArray_tableOf (hvalues : ∀ row ∈ rows, ∀ v ∈ row, IsValue prints v) :
    ObjectArray prints (tableOf names rows) := by
  intro item hitem
  obtain ⟨row, hrow, rfl⟩ := List.mem_map.1 hitem
  have hfields : ∀ field ∈ names.zip row, IsValue prints field.2 := fun field hfield =>
    hvalues row hrow field.2 (List.of_mem_zip hfield).2
  refine ⟨rfl, isCanonical_object.2 ⟨?_, canonicalFields_iff.2 fun field hfield => (hfields field hfield).1⟩,
    allNumbersFields_iff.2 fun field hfield => (hfields field hfield).2⟩
  have hsorted : ((names.zip row).map Prod.fst).Pairwise fun a b => textLt a b = true := by
    rwa [List.map_fst_zip (hrows row hrow).ge]
  exact List.pairwise_map.1 hsorted

/-- Every item of a table has all the fields, so that the table is written. -/
theorem tryLosslessCsv_tableOf (hne : names ≠ []) (hne' : rows ≠ []) :
    tryLosslessCsv (tableOf names rows) =
      some (tableText names (rows.map fun row => row.map fun v => rawCell (some v))) := by
  have hall := allFields_tableOf hnames hrows hne'
  have hobjects : ∀ item ∈ tableOf names rows, item.asObject.isSome = true := by
    intro item hitem
    obtain ⟨row, -, rfl⟩ := List.mem_map.1 hitem
    rfl
  have hcoverage : checkFieldCoverage (tableOf names rows) names = true := by
    have hsome : (tableOf names rows).filterMap asObject = rows.map fun row => names.zip row := by
      unfold tableOf
      rw [List.filterMap_map, ← List.filterMap_eq_map]
      rfl
    have hrow : ∀ row ∈ rows, objectHasSufficientFields (names.zip row) names = true := by
      intro row hrow
      have hcount : names.countP (fun f => (getField (names.zip row) f).isSome) = names.length := by
        rw [List.countP_eq_length]
        intro name hname
        have hmem : getField (names.zip row) name ∈ row.map some := by
          rw [← getField_zip hnames.nodup (hrows row hrow)]
          exact List.mem_map_of_mem hname
        obtain ⟨v, -, hv⟩ := List.mem_map.1 hmem
        rw [← hv]
        rfl
      unfold objectHasSufficientFields
      rw [hcount]
      exact atLeast_self (by simpa using hne)
    have hcount : (rows.map fun row => names.zip row).countP (fun obj => objectHasSufficientFields obj names) =
        rows.length := by
      rw [List.countP_map, List.countP_eq_length]
      exact hrow
    have hlength : (tableOf names rows).length = rows.length := List.length_map _
    unfold checkFieldCoverage
    rw [if_neg (by simp [hne, hne', tableOf]), hsome, hcount, hlength]
    exact atLeast_self (by simpa using hne')
  rw [tryLosslessCsv_eq hobjects, hall, if_neg (by simp [hne, hcoverage]), cellsOf_tableOf hnames hrows]

end Table

/-! ### What can be read back -/

/-- Every object has every field, with a string that is not empty and not the text of a number, a boolean, an array or an
object. -/
def PlainStrings (prints : JsonNumber → Bool) (arr : List Json) : Prop :=
  ∀ item ∈ arr, ∀ name ∈ allFields arr, ∃ s, item.get name = some (.string s) ∧ s ≠ [] ∧
    ∀ v : Json, IsValue prints v → v ≠ .null → v.asStr = none → write v ≠ s

section

variable {prints : JsonNumber → Bool}

/-- The other value that leaves the same cell as a string, if there is one. -/
def unstring (prints : JsonNumber → Bool) (s : Text) : Json :=
  if s = [] then .null
  else
    match read s with
    | some v => if IsValue prints v ∧ v ≠ .null ∧ v.asStr = none ∧ write v = s then v else .string s
    | none => .string s

private theorem rawCell_write {v : Json} (hnull : v ≠ .null) (hstring : v.asStr = none) : rawCell (some v) = write v := by
  cases v with
  | null => exact absurd rfl hnull
  | string s => cases hstring
  | _ => rfl

theorem rawCell_unstring (s : Text) : rawCell (some (unstring prints s)) = s := by
  unfold unstring
  split
  · rename_i h
    rw [h]
    rfl
  · split
    · split
      · rename_i h
        rw [rawCell_write h.2.1 h.2.2.1, h.2.2.2]
      · rfl
    · rfl

theorem isValue_unstring (s : Text) : IsValue prints (unstring prints s) := by
  unfold unstring
  split
  · exact ⟨rfl, rfl⟩
  · split
    · split
      · rename_i h
        exact h.1
      · exact ⟨rfl, rfl⟩
    · exact ⟨rfl, rfl⟩

/-- A string that stays a string is not empty and not the text of another value. -/
theorem unstring_eq_string {s : Text} (h : unstring prints s = .string s) :
    s ≠ [] ∧ ∀ v : Json, IsValue prints v → v ≠ .null → v.asStr = none → write v ≠ s := by
  unfold unstring at h
  constructor
  · intro hs
    rw [if_pos hs] at h
    cases h
  · intro v hvalue hnull hstring hwrite
    have hne : s ≠ [] := by
      rintro rfl
      rw [if_pos rfl] at h
      cases h
    rw [if_neg hne, ← hwrite, read_write] at h
    simp only [hvalue, hstring, ne_eq, hnull, not_false_eq_true, and_self, if_true] at h
    rw [h] at hstring
    cases hstring

end

section Reading

variable {prints : JsonNumber → Bool} {arr : List Json} (hobjects : ObjectArray prints arr)
  (hsome : tryLosslessCsv arr ≠ none)

include hobjects hsome

theorem tryLosslessCsv_eq_tableText : allFields arr ≠ [] ∧ arr ≠ [] ∧
    tryLosslessCsv arr = some (tableText (allFields arr) (cellsOf (allFields arr) arr)) := by
  have heq := tryLosslessCsv_eq fun item hitem => (hobjects item hitem).1
  rw [heq] at hsome ⊢
  split at hsome
  · exact absurd rfl hsome
  · rename_i h
    rw [not_or] at h
    refine ⟨h.1, ?_, if_neg (not_or.2 h)⟩
    rintro rfl
    exact h.1 rfl

/-- The table of other values with the same cells. -/
theorem tryLosslessCsv_map {f : Text → Json} (hf : ∀ s, rawCell (some (f s)) = s) :
    tryLosslessCsv (tableOf (allFields arr) ((cellsOf (allFields arr) arr).map fun row => row.map f)) =
      tryLosslessCsv arr := by
  obtain ⟨hne, harr, heq⟩ := tryLosslessCsv_eq_tableText hobjects hsome
  have hrows : ∀ row ∈ (cellsOf (allFields arr) arr).map (fun row => row.map f), row.length = (allFields arr).length := by
    intro row hrow
    obtain ⟨cells, hcells, rfl⟩ := List.mem_map.1 hrow
    obtain ⟨item, -, rfl⟩ := List.mem_map.1 hcells
    simp
  rw [tryLosslessCsv_tableOf (sortedTexts_allFields arr) hrows hne (by simpa [cellsOf] using harr), heq, List.map_map]
  simp [Function.comp_def, hf]

omit hobjects hsome in
/-- Where the table of other values is the array itself, the array has these values. -/
private theorem get_of_tableOf_eq {f : Text → Json}
    (h : tableOf (allFields arr) ((cellsOf (allFields arr) arr).map fun row => row.map f) = arr) :
    ∀ item ∈ arr, ∀ name ∈ allFields arr, item.get name = some (f (rawCell (item.get name))) := by
  intro item hitem name hname
  have hmap : arr.map (fun item => rowObject (allFields arr) ((allFields arr).map fun name =>
      f (rawCell (item.get name)))) = arr.map id := by
    simpa [tableOf, cellsOf, Function.comp_def] using h
  have heq := List.map_inj_left.1 hmap item hitem
  have hzip := @getField_zip (allFields arr) ((allFields arr).map fun name => f (rawCell (item.get name)))
    (sortedTexts_allFields arr).nodup (List.length_map _)
  rw [List.map_map] at hzip
  have hget : (rowObject (allFields arr) ((allFields arr).map fun name => f (rawCell (item.get name)))).get name =
      some (f (rawCell (item.get name))) := List.map_inj_left.1 hzip name hname
  rwa [heq] at hget

end Reading

/-- Objects with the same values under all names of theirs are equal. -/
private theorem object_eq {names : List Text} {item item' : Json} (hobject : item.asObject.isSome = true)
    (hobject' : item'.asObject.isSome = true) (hcanonical : item.isCanonical = true)
    (hcanonical' : item'.isCanonical = true) (hnames : ∀ n ∈ fieldNames item, n ∈ names)
    (hnames' : ∀ n ∈ fieldNames item', n ∈ names) (h : ∀ n ∈ names, item.get n = item'.get n) : item = item' := by
  have hnone : ∀ {fields : List (Text × Json)} {key : Text}, (∀ n ∈ fields.map (·.1), n ∈ names) → key ∉ names →
      getField fields key = none := by
    intro fields key hfields hkey
    rw [getField_eq_none_iff]
    rintro field hfield rfl
    exact hkey (hfields field.1 (List.mem_map_of_mem hfield))
  cases item with
  | object fields =>
    cases item' with
    | object fields' =>
      congr 1
      refine eq_of_getField (isCanonical_object.1 hcanonical).1 (isCanonical_object.1 hcanonical').1 fun key => ?_
      by_cases hkey : key ∈ names
      · exact h key hkey
      · exact (hnone hnames hkey).trans (hnone hnames' hkey).symm
    | _ => cases hobject'
  | _ => cases hobject

/-- The value that leaves the cell of a string that no other value leaves. -/
private theorem eq_string_of_rawCell {prints : JsonNumber → Bool} {o : Option Json} {s : Text} (h : rawCell o = s)
    (hne : s ≠ []) (hvalue : ∀ v, o = some v → IsValue prints v)
    (hother : ∀ v : Json, IsValue prints v → v ≠ .null → v.asStr = none → write v ≠ s) : o = some (.string s) := by
  rcases o with _ | v
  · exact absurd h.symm hne
  · by_cases hnull : v = .null
    · rw [hnull] at h
      exact absurd h.symm hne
    · cases hstring : v.asStr with
      | none =>
        rw [rawCell_write hnull hstring] at h
        exact absurd h (hother v (hvalue v rfl) hnull hstring)
      | some t =>
        cases v with
        | string t' =>
          rw [← h]
          rfl
        | _ => cases hstring

theorem isValue_get {prints : JsonNumber → Bool} {item v : Json} {name : Text} (hitem : IsValue prints item)
    (h : item.get name = some v) : IsValue prints v := by
  cases item with
  | object fields =>
    exact ⟨canonicalFields_iff.1 (isCanonical_object.1 hitem.1).2 _ (mem_of_getField h),
      allNumbersFields_iff.1 hitem.2 _ (mem_of_getField h)⟩
  | _ => cases h

private theorem length_cellsOf {names : List Text} {arr : List Json} :
    ∀ row ∈ cellsOf names arr, row.length = names.length := by
  intro row hrow
  obtain ⟨item, -, rfl⟩ := List.mem_map.1 hrow
  exact List.length_map _

/-- An array of plain strings is the only one with plain names that has its text. -/
theorem eq_of_plainStrings {prints : JsonNumber → Bool} {arr other : List Json} (hobjects : ObjectArray prints arr)
    (hsome : tryLosslessCsv arr ≠ none) (hnames : PlainNames (allFields arr)) (hstrings : PlainStrings prints arr)
    (hobjects' : ObjectArray prints other)
    (hnames' : PlainNames (allFields other)) (h : tryLosslessCsv other = tryLosslessCsv arr) : other = arr := by
  obtain ⟨hne, -, heq⟩ := tryLosslessCsv_eq_tableText hobjects hsome
  obtain ⟨hne', -, heq'⟩ := tryLosslessCsv_eq_tableText hobjects' (h ▸ hsome)
  rw [heq, heq', Option.some_inj] at h
  obtain ⟨hfields, hcells⟩ := tableText_injective hne' hne hnames' hnames length_cellsOf length_cellsOf h
  rw [hfields] at hcells
  have hlen : other.length = arr.length := by simpa [cellsOf] using congrArg List.length hcells
  refine List.ext_getElem hlen fun i hi hi' => ?_
  have hitem : arr[i] ∈ arr := List.getElem_mem hi'
  have hitem' : other[i] ∈ other := List.getElem_mem hi
  have hrow : (allFields arr).map (fun name => rawCell (other[i].get name)) =
      (allFields arr).map fun name => rawCell (arr[i].get name) := by
    have := congrArg (fun cells => cells[i]?) hcells
    simpa [cellsOf, List.getElem?_eq_getElem hi, List.getElem?_eq_getElem hi'] using this
  refine @object_eq (allFields arr) _ _ (hobjects' _ hitem').1 (hobjects _ hitem).1 (hobjects' _ hitem').2.1
    (hobjects _ hitem).2.1 ?_ (fun n hn => mem_allFields.2 ⟨_, hitem, hn⟩) fun name hname => ?_
  · rw [← hfields]
    exact fun n hn => mem_allFields.2 ⟨_, hitem', hn⟩
  · obtain ⟨s, hget, hs, hother⟩ := hstrings _ hitem name hname
    have hraw := List.map_inj_left.1 hrow name hname
    rw [hget] at hraw ⊢
    exact eq_string_of_rawCell hraw hs (fun v hv => isValue_get (hobjects' _ hitem').2 hv) hother

/-! ### Headers that go over lines -/

private theorem textLt_append_cons (s t : Text) (c : Char) : textLt s (s ++ c :: t) = true := by
  induction s with
  | nil => rfl
  | cons d s ih => simp [textLt, ih]

/-- The header of a table goes over the first line of another one when the last name ends in it. -/
private theorem tableText_swallow (names : List Text) (last : Text) (row : List Text) (rows : List (List Text)) :
    tableText (names ++ [last ++ '\n' :: rowText row]) rows = tableText (names ++ [last]) (row :: rows) := by
  have hheader : [','].intercalate (names ++ [last ++ '\n' :: rowText row]) =
      [','].intercalate (names ++ [last]) ++ '\n' :: rowText row := by
    induction names with
    | nil => simp [List.intercalate]
    | cons name names ih =>
      obtain ⟨n, rest, hrest⟩ : ∃ n rest, names ++ [last] = n :: rest :=
        List.exists_cons_of_ne_nil (by simp)
      obtain ⟨n', rest', hrest'⟩ : ∃ n' rest', names ++ [last ++ '\n' :: rowText row] = n' :: rest' :=
        List.exists_cons_of_ne_nil (by simp)
      rw [hrest, hrest'] at ih
      rw [List.cons_append, List.cons_append, hrest, hrest', intercalate_cons_cons, intercalate_cons_cons, ih,
        List.append_assoc, List.cons_append]
  unfold tableText
  rw [hheader, List.append_assoc]
  rfl

/-- An array with more than one object has the text of an array with one object less. -/
theorem exists_same_text {prints : JsonNumber → Bool} {arr : List Json} (hobjects : ObjectArray prints arr)
    (hsome : tryLosslessCsv arr ≠ none) (hlen : 2 ≤ arr.length) :
    ∃ other, ObjectArray prints other ∧ tryLosslessCsv other = tryLosslessCsv arr ∧ other ≠ arr := by
  obtain ⟨hne, -, heq⟩ := tryLosslessCsv_eq_tableText hobjects hsome
  obtain ⟨names, last, hfields⟩ : ∃ names last, allFields arr = names ++ [last] :=
    ⟨_, _, (List.dropLast_append_getLast hne).symm⟩
  obtain ⟨row, rows, hcells⟩ : ∃ row rows, cellsOf (allFields arr) arr = row :: rows :=
    List.exists_cons_of_length_pos (by simp only [cellsOf, List.length_map]; omega)
  have hcount : rows.length + 1 = arr.length := by
    simpa [cellsOf] using (congrArg List.length hcells).symm
  have hsorted : SortedTexts (names ++ [last ++ '\n' :: rowText row]) := by
    have h := sortedTexts_allFields arr
    rw [hfields] at h
    obtain ⟨hnames, -, hlast⟩ := List.pairwise_append.1 h
    refine List.pairwise_append.2 ⟨hnames, List.pairwise_singleton _ _, fun n hn m hm => ?_⟩
    rw [List.mem_singleton.1 hm]
    exact textLt_trans (hlast n hn last (List.mem_singleton.2 rfl)) (textLt_append_cons _ _ _)
  have hrows : ∀ values ∈ rows.map (fun cells => cells.map Json.string),
      values.length = (names ++ [last ++ '\n' :: rowText row]).length := by
    intro values hvalues
    obtain ⟨cells, hmem, rfl⟩ := List.mem_map.1 hvalues
    have hlength := length_cellsOf cells (hcells ▸ List.mem_cons_of_mem _ hmem)
    rw [hfields] at hlength
    simpa using hlength
  have hrows_ne : rows.map (fun cells => cells.map Json.string) ≠ [] := by
    intro h
    rw [List.map_eq_nil_iff] at h
    rw [h, List.length_nil] at hcount
    omega
  refine ⟨tableOf _ (rows.map fun cells => cells.map Json.string), objectArray_tableOf hsorted hrows ?_, ?_, ?_⟩
  · intro values hvalues v hv
    obtain ⟨cells, -, rfl⟩ := List.mem_map.1 hvalues
    obtain ⟨s, -, rfl⟩ := List.mem_map.1 hv
    exact ⟨rfl, rfl⟩
  · rw [tryLosslessCsv_tableOf hsorted hrows (by simp) hrows_ne, heq, hcells, hfields, ← tableText_swallow, List.map_map]
    simp [Function.comp_def, rawCell]
  · intro h
    have := congrArg List.length h
    simp only [tableOf, List.length_map] at this
    omega

/-- Among the arrays whose names have neither commas nor line breaks, an array is the only one with its text exactly where
it has strings only that are not empty and not the text of another value; and of two objects or more, none is the only one
once the names of the other array may have line breaks. -/
theorem lossless_iff (prints : JsonNumber → Bool) (arr : List Json) (hobjects : ObjectArray prints arr)
    (hsome : tryLosslessCsv arr ≠ none) :
    (PlainNames (allFields arr) → ((∀ other, ObjectArray prints other → PlainNames (allFields other) →
      tryLosslessCsv other = tryLosslessCsv arr → other = arr) ↔ PlainStrings prints arr)) ∧
    (2 ≤ arr.length →
      ∃ other, ObjectArray prints other ∧ tryLosslessCsv other = tryLosslessCsv arr ∧ other ≠ arr) := by
  refine ⟨fun hnames => ⟨fun h => ?_, fun hstrings other hobjects' hnames' => ?_⟩, exists_same_text hobjects hsome⟩
  · obtain ⟨-, harr, -⟩ := tryLosslessCsv_eq_tableText hobjects hsome
    -- the arrays of strings, and of other values, with the cells of the array are the array itself
    have hvalues : ∀ f : Text → Json, (∀ s, rawCell (some (f s)) = s) → (∀ s, IsValue prints (f s)) →
        ∀ item ∈ arr, ∀ name ∈ allFields arr, item.get name = some (f (rawCell (item.get name))) := by
      intro f hf hvalue
      have hrows : ∀ row ∈ (cellsOf (allFields arr) arr).map (fun row => row.map f),
          row.length = (allFields arr).length := by
        intro row hrow
        obtain ⟨cells, hcells, rfl⟩ := List.mem_map.1 hrow
        rw [List.length_map]
        exact length_cellsOf cells hcells
      refine get_of_tableOf_eq (h _ (objectArray_tableOf (sortedTexts_allFields arr) hrows ?_) ?_ ?_)
      · intro row hrow v hv
        obtain ⟨cells, -, rfl⟩ := List.mem_map.1 hrow
        obtain ⟨s, -, rfl⟩ := List.mem_map.1 hv
        exact hvalue s
      · rwa [allFields_tableOf (sortedTexts_allFields arr) hrows (by simpa [cellsOf] using harr)]
      · exact tryLosslessCsv_map hobjects hsome hf
    intro item hitem name hname
    have hstring := hvalues Json.string (fun _ => rfl) (fun _ => ⟨rfl, rfl⟩) item hitem name hname
    have hother := hvalues (unstring prints) rawCell_unstring isValue_unstring item hitem name hname
    have heq : unstring prints (rawCell (item.get name)) = .string (rawCell (item.get name)) :=
      Option.some_inj.1 (hother.symm.trans hstring)
    exact ⟨_, hstring, unstring_eq_string heq⟩
  · exact eq_of_plainStrings hobjects hsome hnames hstrings hobjects' hnames'

/-- The numbers that are printed as the digits of a `u64`. -/
def printsInteger (n : JsonNumber) : Bool := n.asU64.map JsonNumber.ofNat == some n

/-- Two users with their names. -/
def users : List Json :=
  [.object [("name".toList, .string ['a', 'n', 'n'])], .object [("name".toList, .string ['b', 'o', 'b'])]]

private theorem plainStrings_users : PlainStrings printsInteger users := by
  have hother : ∀ {s : Text}, read s = none → ∀ v : Json, IsValue printsInteger v → v ≠ .null → v.asStr = none →
      write v ≠ s := by
    rintro s hs v - - - rfl
    rw [read_write] at hs
    cases hs
  have hfields : allFields users = ["name".toList] := by decide +kernel
  intro item hitem name hname
  rw [hfields, List.mem_singleton] at hname
  subst hname
  rcases List.mem_cons.1 hitem with rfl | hitem
  · exact ⟨['a', 'n', 'n'], by decide +kernel, by decide, hother (by decide)⟩
  · rw [List.mem_singleton.1 hitem]
    exact ⟨['b', 'o', 'b'], by decide +kernel, by decide, hother (by decide)⟩

theorem users_lossless : (∀ other, ObjectArray printsInteger other → PlainNames (allFields other) →
      tryLosslessCsv other = tryLosslessCsv users → other = users) ∧
    ∃ other, ObjectArray printsInteger other ∧ tryLosslessCsv other = tryLosslessCsv users ∧ other ≠ users := by
  have h := lossless_iff printsInteger users (by decide +kernel) (by decide +kernel)
  exact ⟨(h.1 (by unfold PlainNames; decide +kernel)).2 plainStrings_users, h.2 (by decide)⟩

/-- Five booleans and the five strings with their texts. -/
theorem lossless_boolean : ¬ ∀ arr other, ObjectArray printsInteger arr → ObjectArray printsInteger other →
    tryLosslessCsv arr ≠ none → tryLosslessCsv other = tryLosslessCsv arr → other = arr := by
  intro h
  have heq := h (List.replicate 5 (.object [("ok".toList, .bool true)]))
    (List.replicate 5 (.object [("ok".toList, .string "true".toList)]))
    (by decide +kernel) (by decide +kernel) (by decide +kernel) (by decide +kernel)
  revert heq
  decide +kernel

end OpenProxy.Compression
