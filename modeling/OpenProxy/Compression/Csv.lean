import OpenProxy.Data.JsonCanonical
import OpenProxy.Compression.SmartCrusher

/-!
# Tables of cells

The text that `try_lossless_csv` writes is that of a table of texts (`tryLosslessCsv_eq`): a cell does not tell from which
kind of value its text comes.  The cells themselves can be read back, since a comma, a line break or a quotation mark puts
a cell into quotation marks; so can the names as long as they have neither commas nor line breaks, for these are written
as they are (`tableText_injective`).
-/

namespace OpenProxy.Compression

open Json

/-- What is in a cell, before quotation marks are put around it. -/
def rawCell : Option Json → Text
  | none => []
  | some .null => []
  | some (.string s) => s
  | some v => write v

/-- A line of the table. -/
def rowText (cells : List Text) : Text := [','].intercalate (cells.map writeCsvCellEscaped)

/-- The lines of the table. -/
def rowsText : List (List Text) → Text
  | [] => []
  | row :: rows => '\n' :: (rowText row ++ rowsText rows)

/-- The table with its header. -/
def tableText (names : List Text) (rows : List (List Text)) : Text :=
  "#schema:".toList ++ ([','].intercalate names ++ rowsText rows)

/-- The cells of an array. -/
def cellsOf (names : List Text) (arr : List Json) : List (List Text) :=
  arr.map fun item => names.map fun name => rawCell (item.get name)

/-! ### Cells -/

theorem isCsvSpecial_of_isWordChar {c : Char} (h : isWordChar c = true) : isCsvSpecial c = false := by
  rw [← Bool.not_eq_true]
  intro hc
  simp only [isCsvSpecial, Bool.or_eq_true, beq_iff_eq] at hc
  rcases hc with ((rfl | rfl) | rfl) | rfl <;> exact absurd h (by decide)

/-- A text without special characters is written as it is. -/
theorem writeCsvCellEscaped_of_plain {s : Text} (h : ∀ c ∈ s, isCsvSpecial c = false) : writeCsvCellEscaped s = s := by
  unfold writeCsvCellEscaped
  rw [if_neg]
  rw [List.any_eq_true]
  rintro ⟨c, hc, hspecial⟩
  rw [h c hc] at hspecial
  exact absurd hspecial (by decide)

theorem writeJsonValueToCsvCell_eq (v : Option Json) :
    (v.map writeJsonValueToCsvCell).getD [] = writeCsvCellEscaped (rawCell v) := by
  rcases v with _ | v
  · rfl
  · cases v with
    | null => rfl
    | bool b => cases b <;> decide
    | number n =>
      have hplain : ∀ c ∈ n.digits, isCsvSpecial c = false := fun c hc =>
        isCsvSpecial_of_isWordChar (List.all_eq_true.1 (all_isWordChar_of_isNumber n.valid) c hc)
      exact (writeCsvCellEscaped_of_plain hplain).symm
    | string s => rfl
    | array items => rfl
    | object fields => rfl

theorem writeCsvRow_eq (obj : List (Text × Json)) (fields : List Text) :
    writeCsvRow obj fields = rowText (fields.map fun field => rawCell (getField obj field)) := by
  simp only [writeCsvRow, rowText, List.map_map, writeJsonValueToCsvCell_eq, Function.comp_def]

theorem writeCsvRows_eq {fields : List Text} {arr : List Json} (h : ∀ item ∈ arr, item.asObject.isSome = true) :
    writeCsvRows fields arr = some (rowsText (cellsOf fields arr)) := by
  induction arr with
  | nil => rfl
  | cons item arr ih =>
    obtain ⟨obj, hobj⟩ := Option.isSome_iff_exists.1 (h item List.mem_cons_self)
    have hget : ∀ name, item.get name = getField obj name := by
      intro name
      unfold Json.get
      rw [hobj, Option.bind_some]
    rw [writeCsvRows, hobj, Option.bind_some, ih fun other hother => h other (List.mem_cons_of_mem _ hother),
      Option.map_some, writeCsvRow_eq]
    simp only [cellsOf, List.map_cons, rowsText, hget]

/-- The text of an array of objects is that of its table. -/
theorem tryLosslessCsv_eq {arr : List Json} (h : ∀ item ∈ arr, item.asObject.isSome = true) :
    tryLosslessCsv arr = if allFields arr = [] ∨ checkFieldCoverage arr (allFields arr) = false then none
      else some (tableText (allFields arr) (cellsOf (allFields arr) arr)) := by
  unfold tryLosslessCsv tableText
  simp only []
  rw [writeCsvRows_eq h, Option.map_some]

/-! ### Reading the cells back -/

/-- What can come after a cell. -/
def EndsCell (t : Text) : Prop := t = [] ∨ t.head? = some ',' ∨ t.head? = some '\n'

private theorem doubleQuotes_cons (c : Char) (s : Text) :
    doubleQuotes (c :: s) = (if c = '"' then ['"', '"'] else [c]) ++ doubleQuotes s := by
  simp [doubleQuotes]

/-- The text up to a quotation mark that is not written twice. -/
private theorem doubleQuotes_append_injective {s s' t t' : Text} (ht : t.head? ≠ some '"') (ht' : t'.head? ≠ some '"')
    (h : doubleQuotes s ++ '"' :: t = doubleQuotes s' ++ '"' :: t') : s = s' ∧ t = t' := by
  -- a text that goes on does not end where the other one does
  have hends : ∀ {c : Char} {u v w : Text}, v.head? ≠ some '"' →
      '"' :: v ≠ (if c = '"' then ['"', '"'] else [c]) ++ (doubleQuotes u ++ '"' :: w) := by
    intro c u v w hv heq
    split at heq
    · rw [List.cons_append, List.cons_append, List.nil_append] at heq
      injection heq with _ heq
      rw [heq] at hv
      exact hv rfl
    · rename_i hc
      injection heq with heq _
      exact hc heq.symm
  induction s generalizing s' with
  | nil =>
    cases s' with
    | nil =>
      injection h with _ h
      exact ⟨rfl, h⟩
    | cons c' s' =>
      rw [doubleQuotes_cons, List.append_assoc] at h
      exact absurd h (hends ht)
  | cons c s ih =>
    cases s' with
    | nil =>
      rw [doubleQuotes_cons, List.append_assoc] at h
      exact absurd h.symm (hends ht')
    | cons c' s' =>
      rw [doubleQuotes_cons, doubleQuotes_cons, List.append_assoc, List.append_assoc] at h
      by_cases hc : c = '"'
      · by_cases hc' : c' = '"'
        · rw [if_pos hc, if_pos hc'] at h
          obtain ⟨hs, htt⟩ := ih (List.append_cancel_left h)
          exact ⟨by rw [hc, hc', hs], htt⟩
        · rw [if_pos hc, if_neg hc'] at h
          injection h with h _
          exact absurd h.symm hc'
      · by_cases hc' : c' = '"'
        · rw [if_neg hc, if_pos hc'] at h
          injection h with h _
          exact absurd h hc
        · rw [if_neg hc, if_neg hc'] at h
          injection h with h hrest
          obtain ⟨hs, htt⟩ := ih hrest
          exact ⟨by rw [h, hs], htt⟩

/-- The texts up to the first character that `stops`. -/
private theorem append_injective_of_stops {stops : Char → Bool} {s s' t t' : Text} (hs : ∀ c ∈ s, stops c = false)
    (hs' : ∀ c ∈ s', stops c = false) (ht : ∀ c, t.head? = some c → stops c = true)
    (ht' : ∀ c, t'.head? = some c → stops c = true) (h : s ++ t = s' ++ t') : s = s' ∧ t = t' := by
  have hends : ∀ {u v w : Text} {c : Char}, (∀ c, u.head? = some c → stops c = true) → stops c = false →
      u ≠ c :: (v ++ w) := by
    intro u v w c hu hc heq
    rw [hu c (by rw [heq]; rfl)] at hc
    cases hc
  induction s generalizing s' with
  | nil =>
    cases s' with
    | nil => exact ⟨rfl, h⟩
    | cons c' s' => exact absurd h (hends ht (hs' c' List.mem_cons_self))
  | cons c s ih =>
    cases s' with
    | nil => exact absurd h.symm (hends ht' (hs c List.mem_cons_self))
    | cons c' s' =>
      injection h with h hrest
      obtain ⟨heq, htt⟩ := ih (fun d hd => hs d (List.mem_cons_of_mem _ hd))
        (fun d hd => hs' d (List.mem_cons_of_mem _ hd)) hrest
      exact ⟨by rw [h, heq], htt⟩

private theorem EndsCell.special {t : Text} (h : EndsCell t) (c : Char) (hc : t.head? = some c) :
    isCsvSpecial c = true := by
  rcases h with rfl | h | h
  · cases hc
  · rw [h, Option.some_inj] at hc
    rw [← hc]
    decide
  · rw [h, Option.some_inj] at hc
    rw [← hc]
    decide

private theorem EndsCell.head_ne_quote {t : Text} (h : EndsCell t) : t.head? ≠ some '"' := by
  rcases h with rfl | h | h
  · simp
  · rw [h]
    decide
  · rw [h]
    decide

/-- A cell in quotation marks is not one without them. -/
private theorem quoted_ne_plain {s t u : Text} (hs : ∀ c ∈ s, isCsvSpecial c = false) (ht : EndsCell t) :
    '"' :: u ≠ s ++ t := by
  intro h
  cases s with
  | nil =>
    rw [List.nil_append] at h
    rw [← h] at ht
    exact ht.head_ne_quote rfl
  | cons c s =>
    injection h with h _
    have := hs c List.mem_cons_self
    rw [← h] at this
    exact absurd this (by decide)

theorem writeCsvCellEscaped_append_injective {s s' t t' : Text} (ht : EndsCell t) (ht' : EndsCell t')
    (h : writeCsvCellEscaped s ++ t = writeCsvCellEscaped s' ++ t') : s = s' ∧ t = t' := by
  have hplain : ∀ {u : Text}, ¬ u.any isCsvSpecial = true → ∀ c ∈ u, isCsvSpecial c = false := by
    intro u hu c hc
    rw [← Bool.not_eq_true]
    exact fun hspecial => hu (List.any_eq_true.2 ⟨c, hc, hspecial⟩)
  unfold writeCsvCellEscaped at h
  by_cases hs : s.any isCsvSpecial = true
  · rw [if_pos hs] at h
    by_cases hs' : s'.any isCsvSpecial = true
    · rw [if_pos hs'] at h
      simp only [List.cons_append, List.append_assoc, List.nil_append, List.cons.injEq, true_and] at h
      exact doubleQuotes_append_injective ht.head_ne_quote ht'.head_ne_quote h
    · rw [if_neg hs', List.cons_append] at h
      exact absurd h (quoted_ne_plain (hplain hs') ht')
  · rw [if_neg hs] at h
    by_cases hs' : s'.any isCsvSpecial = true
    · rw [if_pos hs', List.cons_append] at h
      exact absurd h.symm (quoted_ne_plain (hplain hs) ht)
    · rw [if_neg hs'] at h
      exact append_injective_of_stops (hplain hs) (hplain hs') ht.special ht'.special h

/-! ### Reading the table back -/

/-- What can come after a line. -/
private def EndsRow (t : Text) : Prop := t = [] ∨ t.head? = some '\n'

private theorem endsRow_rowsText (rows : List (List Text)) : EndsRow (rowsText rows) := by
  cases rows with
  | nil => exact .inl rfl
  | cons row rows => exact .inr rfl

private theorem rowText_cons_cons (cell cell' : Text) (cells : List Text) :
    rowText (cell :: cell' :: cells) = writeCsvCellEscaped cell ++ ',' :: rowText (cell' :: cells) := by
  simp [rowText, List.intercalate]

private theorem rowText_append_injective {row row' : List Text} {t t' : Text} (hlen : row.length = row'.length)
    (ht : EndsRow t) (ht' : EndsRow t') (h : rowText row ++ t = rowText row' ++ t') : row = row' ∧ t = t' := by
  have hcell : ∀ {u : Text}, EndsRow u → EndsCell u := fun hu => hu.imp_right .inr
  induction row generalizing row' with
  | nil =>
    cases row' with
    | nil => exact ⟨rfl, h⟩
    | cons cell' row' => cases hlen
  | cons cell row ih =>
    cases row' with
    | nil => cases hlen
    | cons cell' row' =>
      cases row with
      | nil =>
        cases row' with
        | nil =>
          have hone : ∀ u : Text, rowText [u] = writeCsvCellEscaped u := fun u => by simp [rowText, List.intercalate]
          rw [hone, hone] at h
          obtain ⟨hc, htt⟩ := writeCsvCellEscaped_append_injective (hcell ht) (hcell ht') h
          exact ⟨by rw [hc], htt⟩
        | cons => cases hlen
      | cons cell₂ row =>
        cases row' with
        | nil => cases hlen
        | cons cell₂' row' =>
          rw [rowText_cons_cons, rowText_cons_cons, List.append_assoc, List.append_assoc] at h
          obtain ⟨hc, hrest⟩ := writeCsvCellEscaped_append_injective (.inr (.inl rfl)) (.inr (.inl rfl)) h
          injection hrest with _ hrest
          obtain ⟨hrow, htt⟩ := ih (by simpa using hlen) hrest
          exact ⟨by rw [hc, hrow], htt⟩

private theorem rowsText_injective {rows rows' : List (List Text)} {n : Nat} (hrows : ∀ row ∈ rows, row.length = n)
    (hrows' : ∀ row ∈ rows', row.length = n) (h : rowsText rows = rowsText rows') : rows = rows' := by
  induction rows generalizing rows' with
  | nil =>
    cases rows' with
    | nil => rfl
    | cons row' rows' => cases h
  | cons row rows ih =>
    cases rows' with
    | nil => cases h
    | cons row' rows' =>
      injection h with _ h
      have hlen : row.length = row'.length :=
        (hrows row List.mem_cons_self).trans (hrows' row' List.mem_cons_self).symm
      obtain ⟨hrow, hrest⟩ := rowText_append_injective hlen (endsRow_rowsText rows) (endsRow_rowsText rows') h
      rw [hrow, ih (fun r hr => hrows r (List.mem_cons_of_mem _ hr))
        (fun r hr => hrows' r (List.mem_cons_of_mem _ hr)) hrest]

theorem intercalate_cons_cons (name name' : Text) (names : List Text) :
    [','].intercalate (name :: name' :: names) = name ++ ',' :: [','].intercalate (name' :: names) := by
  simp [List.intercalate]

private theorem intercalate_injective {names names' : List Text} (hne : names ≠ []) (hne' : names' ≠ [])
    (hcomma : ∀ name ∈ names, ',' ∉ name) (hcomma' : ∀ name ∈ names', ',' ∉ name)
    (h : [','].intercalate names = [','].intercalate names') : names = names' := by
  have hone : ∀ name : Text, [','].intercalate [name] = name := fun name => by simp [List.intercalate]
  have hmore : ∀ {name name' : Text} {rest : List Text}, ',' ∉ name → name ≠ name' ++ ',' :: [','].intercalate rest := by
    rintro name name' rest hname rfl
    simp at hname
  have hstops : ∀ {name : Text}, ',' ∉ name → ∀ c ∈ name, (c == ',') = false := by
    rintro name hname c hc
    rw [beq_eq_false_iff_ne]
    rintro rfl
    exact hname hc
  induction names generalizing names' with
  | nil => exact absurd rfl hne
  | cons name names ih =>
    cases names' with
    | nil => exact absurd rfl hne'
    | cons name' names' =>
      have hname := hcomma name List.mem_cons_self
      have hname' := hcomma' name' List.mem_cons_self
      cases names with
      | nil =>
        cases names' with
        | nil => rw [← hone name, ← hone name', h]
        | cons name₂' names' =>
          rw [hone, intercalate_cons_cons] at h
          exact absurd h (hmore hname)
      | cons name₂ names =>
        cases names' with
        | nil =>
          rw [hone, intercalate_cons_cons] at h
          exact absurd h.symm (hmore hname')
        | cons name₂' names' =>
          rw [intercalate_cons_cons, intercalate_cons_cons] at h
          obtain ⟨hfirst, hrest⟩ := append_injective_of_stops (hstops hname) (hstops hname') (by simp) (by simp) h
          injection hrest with _ hrest
          rw [hfirst, ih (by simp) (by simp) (fun n hn => hcomma n (List.mem_cons_of_mem _ hn))
            (fun n hn => hcomma' n (List.mem_cons_of_mem _ hn)) hrest]

private theorem newline_notMem_intercalate {names : List Text} (h : ∀ name ∈ names, '\n' ∉ name) :
    '\n' ∉ [','].intercalate names := by
  induction names with
  | nil => simp [List.intercalate]
  | cons name names ih =>
    cases names with
    | nil => simpa [List.intercalate] using h
    | cons name' names =>
      rw [intercalate_cons_cons, List.mem_append, List.mem_cons, not_or, not_or]
      exact ⟨h name List.mem_cons_self, by decide, ih fun n hn => h n (List.mem_cons_of_mem _ hn)⟩

/-- Names that the header can be read back to. -/
def PlainNames (names : List Text) : Prop := ∀ name ∈ names, ',' ∉ name ∧ '\n' ∉ name

/-- A table with plain names can be read back, if its lines have as many cells as there are names. -/
theorem tableText_injective {names names' : List Text} {rows rows' : List (List Text)} (hne : names ≠ [])
    (hne' : names' ≠ []) (hplain : PlainNames names) (hplain' : PlainNames names')
    (hrows : ∀ row ∈ rows, row.length = names.length) (hrows' : ∀ row ∈ rows', row.length = names'.length)
    (h : tableText names rows = tableText names' rows') : names = names' ∧ rows = rows' := by
  have hstops : ∀ {ns : List Text}, PlainNames ns → ∀ c ∈ [','].intercalate ns, (c == '\n') = false := by
    intro ns hns c hc
    rw [beq_eq_false_iff_ne]
    rintro rfl
    exact newline_notMem_intercalate (fun name hname => (hns name hname).2) hc
  have hends : ∀ {t : Text}, EndsRow t → ∀ c, t.head? = some c → (c == '\n') = true := by
    rintro t (rfl | ht) c hc
    · cases hc
    · rw [ht, Option.some_inj] at hc
      rw [← hc]
      decide
  obtain ⟨hheader, hbody⟩ := append_injective_of_stops (hstops hplain) (hstops hplain')
    (hends (endsRow_rowsText rows)) (hends (endsRow_rowsText rows')) (List.append_cancel_left h)
  have hnames := intercalate_injective hne hne' (fun n hn => (hplain n hn).1) (fun n hn => (hplain' n hn).1) hheader
  subst hnames
  exact ⟨rfl, rowsText_injective hrows hrows' hbody⟩

end OpenProxy.Compression
