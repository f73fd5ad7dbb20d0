import OpenProxy.Data.JsonText
import OpenProxy.Data.KeepFirst

/-!
# The JSON array crusher

An array of objects is written as a table, one line for each object, when most objects have most of the fields of all of
them.  Otherwise some of the items are kept: those at the beginning and at the end, and those with an error.

The items that `try_lossy` keeps are different ones, in their order, and not more than `LOSSY_MAX_ITEMS`.  The selected
items are taken in their order until there are so many, and so an item with an error is kept exactly where few enough
other items are selected before it (`lossyKeepsErrors_iff`).
-/

namespace OpenProxy.Compression

open Json

/-! ### Constants -/

/-- `MIN_ITEMS`. -/
def minItems : Nat := 5

/-- `COVERAGE_NUM` and `COVERAGE_DEN`. -/
def coverageNum : Nat := 4
def coverageDen : Nat := 5

/-- `LOSSLESS_KEEP_NUM` and `LOSSLESS_KEEP_DEN`. -/
def losslessKeepNum : Nat := 85
def losslessKeepDen : Nat := 100

/-- `LOSSY_FIRST_NUM` and `LOSSY_FIRST_DEN`. -/
def lossyFirstNum : Nat := 3
def lossyFirstDen : Nat := 10

/-- `LOSSY_LAST_NUM` and `LOSSY_LAST_DEN`. -/
def lossyLastNum : Nat := 3
def lossyLastDen : Nat := 20

/-- `LOSSY_MAX_ITEMS`. -/
def lossyMaxItems : Nat := 15

/-- `ERROR_TOKENS`. -/
def errorTokens : List Text :=
  ["error".toList, "fail".toList, "fatal".toList, "exception".toList, "crash".toList]

/-! ### Fields -/

/-- `at_least`. -/
def atLeast (count total num den : Nat) : Bool := if total = 0 then false else total * num ≤ count * den

/-- `ceil_div_times`. -/
def ceilDivTimes (total num den : Nat) : Nat := if total = 0 then 0 else (total * num + den - 1) / den

/-- `BTreeSet::insert`. -/
def insertName (name : Text) : List Text → List Text
  | [] => [name]
  | n :: names =>
    if textLt name n then name :: n :: names else if name = n then n :: names else n :: insertName name names

/-- The names of the members of a value. -/
def fieldNames (item : Json) : List Text := (item.asObject.getD []).map (·.1)

/-- `all_fields`. -/
def allFields (arr : List Json) : List Text := (arr.flatMap fieldNames).foldl (fun names name => insertName name names) []

/-- `object_has_sufficient_fields`. -/
def objectHasSufficientFields (obj : List (Text × Json)) (fields : List Text) : Bool :=
  atLeast (fields.countP fun f => (getField obj f).isSome) fields.length coverageNum coverageDen

/-- `check_field_coverage`. -/
def checkFieldCoverage (arr : List Json) (fields : List Text) : Bool :=
  if fields = [] ∨ arr = [] then false
  else atLeast ((arr.filterMap asObject).countP fun obj => objectHasSufficientFields obj fields) arr.length
    coverageNum coverageDen

/-! ### The table -/

/-- The characters for which a cell is put into quotation marks. -/
def isCsvSpecial (c : Char) : Bool := c == ',' || c == '"' || c == '\n' || c == '\r'

/-- A quotation mark is written twice. -/
def doubleQuotes (s : Text) : Text := s.flatMap fun c => if c = '"' then ['"', '"'] else [c]

/-- `write_csv_cell_escaped`. -/
def writeCsvCellEscaped (s : Text) : Text :=
  if s.any isCsvSpecial then '"' :: (doubleQuotes s ++ ['"']) else s

/-- `write_json_value_to_csv_cell`. -/
def writeJsonValueToCsvCell : Json → Text
  | .null => []
  | .string s => writeCsvCellEscaped s
  | .array items => writeCsvCellEscaped (write (.array items))
  | .object fields => writeCsvCellEscaped (write (.object fields))
  | .bool b => if b then "true".toList else "false".toList
  | .number n => n.digits

/-- `write_csv_row`. -/
def writeCsvRow (obj : List (Text × Json)) (fields : List Text) : Text :=
  [','].intercalate (fields.map fun field => ((getField obj field).map writeJsonValueToCsvCell).getD [])

/-- The lines of the items, or nothing where one is not an object. -/
def writeCsvRows (fields : List Text) : List Json → Option Text
  | [] => some []
  | item :: arr =>
    item.asObject.bind fun obj => (writeCsvRows fields arr).map fun rows => '\n' :: (writeCsvRow obj fields ++ rows)

/-- `try_lossless_csv`. -/
def tryLosslessCsv (arr : List Json) : Option Text :=
  let fields := allFields arr
  if fields = [] ∨ checkFieldCoverage arr fields = false then none
  else (writeCsvRows fields arr).map fun rows => "#schema:".toList ++ ([','].intercalate fields ++ rows)

/-! ### The kept items -/

/-- `contains_case_insensitive_ascii`. -/
def containsCaseInsensitiveAscii (haystack needle : Text) : Bool := (findIgnoreAsciiCase haystack needle).isSome

/-- `string_has_error_token`. -/
def stringHasErrorToken (s : Text) : Bool := errorTokens.any (containsCaseInsensitiveAscii s)

mutual

/-- `value_has_error_token`. -/
def valueHasErrorToken : Json → Bool
  | .string s => stringHasErrorToken s
  | .array items => itemsHaveErrorToken items
  | .object fields => fieldsHaveErrorToken fields
  | .null => false
  | .bool _ => false
  | .number _ => false

def itemsHaveErrorToken : List Json → Bool
  | [] => false
  | item :: items => valueHasErrorToken item || itemsHaveErrorToken items

def fieldsHaveErrorToken : List (Text × Json) → Bool
  | [] => false
  | (_, value) :: fields => valueHasErrorToken value || fieldsHaveErrorToken fields

end

/-- `item_has_error_token`. -/
def itemHasErrorToken : Json → Bool
  | .object fields => fieldsHaveErrorToken fields
  | _ => false

/-- `collect_lossy_indices`, in the order of the set. -/
def collectLossyIndices (arr : List Json) : List Nat :=
  let n := arr.length
  let firstN := ceilDivTimes n lossyFirstNum lossyFirstDen
  let lastN := ceilDivTimes n lossyLastNum lossyLastDen
  (List.range n).filter fun i => i < min firstN n || n - lastN ≤ i || (arr[i]?.map itemHasErrorToken).getD false

/-- `deduplicate_lossy_items`. -/
def deduplicateLossyItems (arr : List Json) (indices : List Nat) : List Json :=
  (keepFirst write [] (indices.filterMap (arr[·]?))).take lossyMaxItems

/-- The text of `try_lossy`. -/
def crushedText (keptItems : List Json) (n dropped : Nat) : Text :=
  "[#crushed: kept ".toList ++ Nat.toDigits 10 keptItems.length ++ " of ".toList ++ Nat.toDigits 10 n ++
    " items]\n".toList ++ write (.array keptItems) ++ "\n\x7b\"_dropped\":".toList ++ Nat.toDigits 10 dropped ++
    ['\x7d']

/-- `try_lossy`. -/
def tryLossy (arr : List Json) : Option Text :=
  let n := arr.length
  let keptItems := deduplicateLossyItems arr (collectLossyIndices arr)
  let dropped := n - keptItems.length
  if dropped = 0 then none else some (crushedText keptItems n dropped)

/-! ### The two strategies -/

/-- `parse_object_array`, with `serde_json::from_str` for the text. -/
def parseObjectArray (text : Text) : Option (List Json) :=
  match fromStr text with
  | some (.array arr) => if arr.length < minItems ∨ arr.all (fun item => item.asObject.isSome) = false then none else some arr
  | _ => none

/-- `try_lossless_route`. -/
def tryLosslessRoute (arr : List Json) (originalLen : Nat) : Option (Text × Text) :=
  (tryLosslessCsv arr).bind fun out =>
    if utf8Len out * losslessKeepDen < originalLen * losslessKeepNum then
      some (out, "lite::smart_crusher_lossless".toList)
    else none

/-- `try_lossy_route`. -/
def tryLossyRoute (arr : List Json) (originalLen : Nat) : Option (Text × Text) :=
  (tryLossy arr).bind fun out =>
    if utf8Len out < originalLen then some (out, "lite::smart_crusher_lossy".toList) else none

/-- `crush_json_string`. -/
def crushJsonString (text : Text) : Option (Text × Text) :=
  (parseObjectArray text).bind fun arr =>
    (tryLosslessRoute arr (utf8Len text)).or (tryLossyRoute arr (utf8Len text))

/-- The items of `try_lossy`. -/
def keptItems (arr : List Json) : List Json := deduplicateLossyItems arr (collectLossyIndices arr)

/-- What the crusher promises of an array: it keeps different items, in their order and at most `LOSSY_MAX_ITEMS`; it
writes how many are kept and dropped; and it keeps all items with an error if there are not more than `LOSSY_MAX_ITEMS`
different ones. -/
def LossyKeepsErrors (arr : List Json) : Prop :=
  (keptItems arr).Nodup ∧ (keptItems arr).Sublist arr ∧ (keptItems arr).length ≤ lossyMaxItems ∧
    (∃ dropped, tryLossy arr = some (crushedText (keptItems arr) arr.length dropped) ∧
      (keptItems arr).length + dropped = arr.length) ∧
    ((arr.filter itemHasErrorToken).dedup.length ≤ lossyMaxItems →
      ∀ item ∈ arr, itemHasErrorToken item = true → item ∈ keptItems arr)

/-- The items in the first three tenths, those in the last three twentieths and those with an error, in their order. -/
def selectedItems (arr : List Json) : List Json :=
  (arr.zipIdx.filter fun item => 10 * item.2 < 3 * arr.length || 20 * (arr.length - 1 - item.2) < 3 * arr.length ||
    itemHasErrorToken item.1).map Prod.fst

/-! ### The selected items -/

theorem ceilDivTimes_le_iff {total num den : Nat} (hden : 0 < den) (n : Nat) :
    ceilDivTimes total num den ≤ n ↔ total * num ≤ n * den := by
  unfold ceilDivTimes
  split
  · rename_i h
    simp [h]
  · rw [Nat.div_le_iff_le_mul hden]
    omega

private theorem inTail_iff {n i : Nat} (hi : i < n) :
    n - ceilDivTimes n lossyLastNum lossyLastDen ≤ i ↔ 20 * (n - 1 - i) < 3 * n := by
  have h := @ceilDivTimes_le_iff n lossyLastNum lossyLastDen (by decide) (n - 1 - i)
  simp only [lossyLastNum, lossyLastDen] at h ⊢
  omega

private theorem inHead_iff {n i : Nat} (hi : i < n) :
    i < min (ceilDivTimes n lossyFirstNum lossyFirstDen) n ↔ 10 * i < 3 * n := by
  have h := @ceilDivTimes_le_iff n lossyFirstNum lossyFirstDen (by decide) i
  simp only [lossyFirstNum, lossyFirstDen] at h ⊢
  omega

theorem filterMap_collectLossyIndices (arr : List Json) :
    (collectLossyIndices arr).filterMap (arr[·]?) = selectedItems arr := by
  have hrange : List.range arr.length = arr.zipIdx.map Prod.snd := by
    rw [List.zipIdx_map_snd, List.range_eq_range']
  have hmem : ∀ item ∈ arr.zipIdx, item.2 < arr.length ∧ arr[item.2]? = some item.1 := by
    intro item hitem
    have hget := List.mem_zipIdx_iff_getElem?.1 hitem
    exact ⟨(List.getElem?_eq_some_iff.1 hget).1, hget⟩
  have hfilter : arr.zipIdx.filter ((fun i => i < min (ceilDivTimes arr.length lossyFirstNum lossyFirstDen) arr.length ||
      arr.length - ceilDivTimes arr.length lossyLastNum lossyLastDen ≤ i ||
      (arr[i]?.map itemHasErrorToken).getD false) ∘ Prod.snd) = arr.zipIdx.filter fun item =>
        10 * item.2 < 3 * arr.length || 20 * (arr.length - 1 - item.2) < 3 * arr.length || itemHasErrorToken item.1 := by
    apply List.filter_congr
    intro item hitem
    obtain ⟨hlt, hget⟩ := hmem item hitem
    simp only [Function.comp, inHead_iff hlt, inTail_iff hlt, hget, Option.map_some, Option.getD_some]
  simp only [collectLossyIndices, selectedItems]
  rw [hrange, List.filter_map, hfilter, List.filterMap_map, ← List.filterMap_eq_map]
  apply List.filterMap_congr
  intro item hitem
  exact (hmem item (List.mem_of_mem_filter hitem)).2

theorem selectedItems_sublist (arr : List Json) : (selectedItems arr).Sublist arr := by
  have h : ((arr.zipIdx.filter fun item => 10 * item.2 < 3 * arr.length || 20 * (arr.length - 1 - item.2) <
      3 * arr.length || itemHasErrorToken item.1).map Prod.fst).Sublist (arr.zipIdx.map Prod.fst) :=
    List.filter_sublist.map Prod.fst
  rwa [List.zipIdx_map_fst] at h

/-- Every item with an error is selected. -/
theorem mem_selectedItems_of_error {arr : List Json} {item : Json} (hitem : item ∈ arr)
    (herror : itemHasErrorToken item = true) : item ∈ selectedItems arr := by
  obtain ⟨i, hi, hget⟩ := List.getElem_of_mem hitem
  refine List.mem_map.2 ⟨(item, i), List.mem_filter.2 ⟨?_, by simp [herror]⟩, rfl⟩
  rw [List.mem_zipIdx_iff_getElem?, List.getElem?_eq_getElem hi, hget]

/-! ### The kept items -/

theorem keptItems_eq (arr : List Json) : keptItems arr = (keepFirst write [] (selectedItems arr)).take lossyMaxItems := by
  unfold keptItems deduplicateLossyItems
  rw [filterMap_collectLossyIndices]

theorem keptItems_nodup (arr : List Json) : (keptItems arr).Nodup := by
  rw [keptItems_eq]
  exact (nodup_keepFirst [] _).sublist (List.take_sublist _ _)

theorem keptItems_sublist (arr : List Json) : (keptItems arr).Sublist arr := by
  rw [keptItems_eq]
  exact (List.take_sublist _ _).trans ((keepFirst_sublist [] _).trans (selectedItems_sublist arr))

theorem length_keptItems_le (arr : List Json) : (keptItems arr).length ≤ lossyMaxItems := by
  rw [keptItems_eq]
  exact List.length_take_le _ _

/-- An item with an error is kept where fewer than `LOSSY_MAX_ITEMS` different items are selected before it. -/
theorem mem_keptItems_iff {arr : List Json} {item : Json} (hitem : item ∈ arr) (herror : itemHasErrorToken item = true) :
    item ∈ keptItems arr ↔
      ((selectedItems arr).takeWhile fun other => decide (other ≠ item)).dedup.length < lossyMaxItems := by
  rw [keptItems_eq]
  exact mem_take_keepFirst (fun _ _ => write_injective) (mem_selectedItems_of_error hitem herror) _

theorem tryLossy_eq (arr : List Json) : tryLossy arr = if arr.length - (keptItems arr).length = 0 then none
    else some (crushedText (keptItems arr) arr.length (arr.length - (keptItems arr).length)) := (rfl)

theorem tryLossy_counts {arr : List Json} (h : tryLossy arr ≠ none) :
    ∃ dropped, tryLossy arr = some (crushedText (keptItems arr) arr.length dropped) ∧
      (keptItems arr).length + dropped = arr.length := by
  have hlen := (keptItems_sublist arr).length_le
  refine ⟨arr.length - (keptItems arr).length, ?_, by omega⟩
  rw [tryLossy_eq] at h ⊢
  split at h
  · exact absurd rfl h
  · rename_i hdropped
    exact if_neg hdropped

/-- The errors of an array that is crushed are kept exactly where, unless there are more than `LOSSY_MAX_ITEMS` different
ones, before each of them fewer than `LOSSY_MAX_ITEMS` different items are in the first three tenths, in the last three
twentieths or have an error. -/
theorem lossyKeepsErrors_iff (arr : List Json) (h : tryLossy arr ≠ none) :
    LossyKeepsErrors arr ↔ ((arr.filter itemHasErrorToken).dedup.length ≤ lossyMaxItems →
      ∀ item ∈ arr, itemHasErrorToken item = true →
        ((selectedItems arr).takeWhile fun other => decide (other ≠ item)).dedup.length < lossyMaxItems) := by
  constructor
  · rintro ⟨-, -, -, -, hkept⟩ hfew item hitem herror
    exact (mem_keptItems_iff hitem herror).1 (hkept hfew item hitem herror)
  · intro hbefore
    refine ⟨keptItems_nodup arr, keptItems_sublist arr, length_keptItems_le arr, tryLossy_counts h, ?_⟩
    intro hfew item hitem herror
    exact (mem_keptItems_iff hitem herror).2 (hbefore hfew item hitem herror)

/-- Twenty items, with errors in the head, in the middle and in the tail. -/
def scatteredErrors : List Json :=
  (List.range 20).map fun i => .object [('k' :: Nat.toDigits 10 i, .string ['v']),
    (['s'], .string (if i = 2 ∨ i = 10 ∨ i = 19 then ['e', 'r', 'r', 'o', 'r'] else ['o', 'k']))]

theorem scatteredErrors_kept : LossyKeepsErrors scatteredErrors :=
  (lossyKeepsErrors_iff scatteredErrors (by decide +kernel)).2 (by decide +kernel)

/-- Forty-six numbered items and an error. -/
def errorAtTheEnd : List Json :=
  (List.range 46).map (fun i => .object [(['i', 'd'], .number (.ofNat i))]) ++
    [.object [(['i', 'd'], .string ['e', 'r', 'r', 'o', 'r'])]]

/-- The first three tenths of the items are as many as are kept, and the only error is dropped. -/
theorem errorAtTheEnd_dropped : ¬ ∀ arr, tryLossy arr ≠ none → LossyKeepsErrors arr := by
  intro h
  obtain ⟨-, -, -, -, hkept⟩ := h errorAtTheEnd (by decide +kernel)
  have hfew : (errorAtTheEnd.filter itemHasErrorToken).dedup.length ≤ lossyMaxItems := by decide +kernel
  have hlost : Json.object [(['i', 'd'], .string ['e', 'r', 'r', 'o', 'r'])] ∉ keptItems errorAtTheEnd := by
    decide +kernel
  exact hlost (hkept hfew _ (by simp [errorAtTheEnd]) (by decide +kernel))

end OpenProxy.Compression
