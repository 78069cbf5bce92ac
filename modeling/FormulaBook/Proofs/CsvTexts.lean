import FormulaBook.Document.Csv
import Mathlib.Data.List.TakeWhile

/-!
# Reading what a table says

A cell of a table is written in quotes, with every quote in it doubled, or as it is if it has some
character and none of them is a comma, a quote or of a line end. Cells are separated by commas and
rows by line ends of any kind, which may also follow the last row (`Csv.SpellsRows`). The reader
finds the rows again, whatever stands in the cells (`Csv.all_rows`), and if no cell is too long,
they make the table (`Csv.Table.ofText_eq`).
-/

namespace FormulaBook.Csv

/-- A character as it stands between quotes. -/
def doubled (c : Char) : List Char := if c = '"' then ['"', '"'] else [c]

/-- A character means something between the cells of a table. -/
def isSpecial (c : Char) : Bool := c == ',' || c == '"' || c == '\n' || c == '\r'

/-- How a cell may be written. -/
inductive SpellsCell : String → List Char → Prop
  | quoted (s) : SpellsCell s ('"' :: s.toList.flatMap doubled ++ ['"'])
  | plain {s} : s ≠ "" → (∀ c ∈ s.toList, isSpecial c = false) → SpellsCell s s.toList

/-- How a row may be written. -/
inductive SpellsRow : List String → List Char → Prop
  | last {s cs} : SpellsCell s cs → SpellsRow [s] cs
  | cell {s row cs rest} : SpellsCell s cs → SpellsRow row rest →
      SpellsRow (s :: row) (cs ++ (',' :: rest))

/-- The ends of lines. -/
def lineEnds : List (List Char) := [['\n'], ['\r'], ['\r', '\n']]

/-- How the rows of a table may be written. -/
inductive SpellsRows : List (List String) → List Char → Prop
  | nil : SpellsRows [] []
  | last {row cs} : SpellsRow row cs → SpellsRows [row] cs
  | line {row rows cs e rest} : SpellsRow row cs → e ∈ lineEnds → SpellsRows rows rest →
      SpellsRows (row :: rows) (cs ++ (e ++ rest))

/-! ## Cells -/

/-- A cell may begin here. -/
def Mode.IsOpen (m : Mode) : Prop := m = .rowStart ∨ m = .afterReturn ∨ m = .cellStart

/-- A cell may end here. -/
def Mode.IsDone (m : Mode) : Prop := m = .plain ∨ m = .closing

/-- Where a row may begin, a cell may. -/
theorem Mode.isOpen_of_isRowStart {m : Mode} (h : m.isRowStart = true) : m.IsOpen :=
  (of_decide_eq_true h).imp_right .inl

/-- Between quotes everything is taken up to the quote that is not doubled. -/
theorem rowsFrom_quoted (row : List String) (rest : List Char) : ∀ cs cell : List Char,
    rowsFrom .quoted row cell (cs.flatMap doubled ++ '"' :: rest) =
      rowsFrom .closing row (cs.reverse ++ cell) rest
  | [], cell => rfl
  | c :: cs, cell => by
    have hstep : rowsFrom .quoted row cell (doubled c ++ (cs.flatMap doubled ++ '"' :: rest)) =
        rowsFrom .quoted row (c :: cell) (cs.flatMap doubled ++ '"' :: rest) := by
      unfold doubled
      split
      · rename_i hc
        rw [hc]
        rfl
      · rename_i hc
        rw [List.singleton_append, rowsFrom, if_pos rfl, if_neg hc]
    rw [List.flatMap_cons, List.append_assoc, hstep, rowsFrom_quoted row rest cs, List.reverse_cons,
      List.append_assoc, List.singleton_append]

/-- A character that means nothing on its own belongs to its cell. -/
theorem rowsFrom_plain {m : Mode} (hm : m ≠ .quoted) {c : Char} (hc : isSpecial c = false)
    (row : List String) (cell rest : List Char) :
    rowsFrom m row cell (c :: rest) = rowsFrom .plain row (c :: cell) rest := by
  simp only [isSpecial, Bool.or_eq_false_iff, beq_eq_false_iff_ne] at hc
  obtain ⟨⟨⟨hcomma, hquote⟩, hn⟩, hr⟩ := hc
  rw [rowsFrom, if_neg hm, if_neg (fun h => hn h.1), if_neg (fun h => h.elim hn hr), if_neg hcomma,
    if_neg (fun h => hquote h.1)]

/-- Characters without a meaning go on with the cell they stand in. -/
theorem rowsFrom_plains (row : List String) (rest : List Char) : ∀ (cs cell : List Char),
    (∀ c ∈ cs, isSpecial c = false) →
    rowsFrom .plain row cell (cs ++ rest) = rowsFrom .plain row (cs.reverse ++ cell) rest
  | [], cell, _ => rfl
  | c :: cs, cell, h => by
    rw [List.forall_mem_cons] at h
    rw [List.cons_append, rowsFrom_plain (by decide) h.1, rowsFrom_plains row rest cs _ h.2,
      List.reverse_cons, List.append_assoc, List.singleton_append]

/-- A cell is read as it was written. -/
theorem exists_rowsFrom_cell {s : String} {cs : List Char} (h : SpellsCell s cs) {m : Mode}
    (hm : m.IsOpen) : ∃ m' : Mode, m'.IsDone ∧ ∀ row rest,
      rowsFrom m row [] (cs ++ rest) = rowsFrom m' row s.toList.reverse rest := by
  cases h with
  | quoted =>
    refine ⟨.closing, .inr rfl, fun row rest => ?_⟩
    have hopen : ∀ cs, rowsFrom m row [] ('"' :: cs) = rowsFrom .quoted row [] cs := by
      rcases hm with rfl | rfl | rfl <;> exact fun cs => rfl
    rw [List.cons_append, List.cons_append, List.append_assoc, hopen, List.singleton_append,
      rowsFrom_quoted, List.append_nil]
  | plain hne hplain =>
    refine ⟨.plain, .inl rfl, fun row rest => ?_⟩
    have hquoted : m ≠ .quoted := by rcases hm with rfl | rfl | rfl <;> decide
    obtain ⟨c, cs, hcs⟩ := List.exists_cons_of_ne_nil (mt String.toList_eq_nil_iff.mp hne)
    rw [hcs, List.forall_mem_cons] at hplain
    rw [hcs, List.cons_append, rowsFrom_plain hquoted hplain.1, rowsFrom_plains _ _ _ _ hplain.2,
      List.reverse_cons]

/-! ## Rows -/

/-- All rows, whether they have ended or not. -/
def Rows.all (r : Rows) : List (List String) := r.ended ++ r.unfinished?.toList

/-- A row is read as it was written, up to its end. -/
theorem exists_rowsFrom_row {row : List String} {cs : List Char} (h : SpellsRow row cs) {m : Mode}
    (hm : m.IsOpen) (before : List String) :
    ∃ (m' : Mode) (row' : List String) (cell : List Char), m'.IsDone ∧
      endRow row' cell = before ++ row ∧
      ∀ rest, rowsFrom m before [] (cs ++ rest) = rowsFrom m' row' cell rest := by
  induction h generalizing m before with
  | @last s cs hcell =>
    obtain ⟨m', hdone, hread⟩ := exists_rowsFrom_cell hcell hm
    refine ⟨m', before, s.toList.reverse, hdone, ?_, hread before⟩
    rw [endRow, List.reverse_reverse, String.ofList_toList]
  | @cell s row cs rest hcell _ ih =>
    obtain ⟨m', hdone, hread⟩ := exists_rowsFrom_cell hcell hm
    obtain ⟨m'', row', cell, hdone', hrow, hrest⟩ := ih (m := .cellStart) (.inr (.inr rfl))
      (endRow before s.toList.reverse)
    refine ⟨m'', row', cell, hdone', ?_, fun tail => ?_⟩
    · rw [hrow, endRow, List.reverse_reverse, String.ofList_toList, List.append_assoc,
        List.singleton_append]
    · have hcomma : ∀ cs, rowsFrom m' before s.toList.reverse (',' :: cs) =
          rowsFrom .cellStart (endRow before s.toList.reverse) [] cs := by
        rcases hdone with rfl | rfl <;> exact fun cs => rfl
      rw [List.append_assoc, List.cons_append, hread, hcomma, hrest]

/-- A line end completes the row. -/
theorem exists_rowsFrom_lineEnd {e : List Char} (he : e ∈ lineEnds) {m : Mode} (hm : m.IsDone)
    (row : List String) (cell rest : List Char) : ∃ m' : Mode, m'.isRowStart = true ∧
      rowsFrom m row cell (e ++ rest) = (rowsFrom m' [] [] rest).cons (endRow row cell) := by
  simp only [lineEnds, List.mem_cons, List.not_mem_nil, or_false] at he
  rcases he with rfl | rfl | rfl
  · exact ⟨.rowStart, rfl, by rcases hm with rfl | rfl <;> rfl⟩
  · exact ⟨.afterReturn, rfl, by rcases hm with rfl | rfl <;> rfl⟩
  · exact ⟨.rowStart, rfl, by rcases hm with rfl | rfl <;> rfl⟩

/-- Rows are read back from any way to write them. -/
theorem all_rowsFrom {rows : List (List String)} {cs : List Char} (h : SpellsRows rows cs)
    {m : Mode} (hm : m.isRowStart = true) : (rowsFrom m [] [] cs).all = rows := by
  induction h generalizing m with
  | nil => rw [rowsFrom, Rows.all, if_pos hm]; rfl
  | @last row cs hrow =>
    obtain ⟨m', row', cell, hdone, hend, hread⟩ :=
      exists_rowsFrom_row hrow (Mode.isOpen_of_isRowStart hm) []
    have hnot : ¬m'.isRowStart = true := by rcases hdone with rfl | rfl <;> decide
    have hread := hread []
    rw [List.append_nil] at hread
    rw [hread, rowsFrom, Rows.all, if_neg hnot, hend]
    rfl
  | @line row rows cs e rest hrow he _ ih =>
    obtain ⟨m', row', cell, hdone, hend, hread⟩ :=
      exists_rowsFrom_row hrow (Mode.isOpen_of_isRowStart hm) []
    obtain ⟨m'', hstart, hline⟩ := exists_rowsFrom_lineEnd he hdone row' cell rest
    rw [hread, hline, hend]
    exact congrArg (row :: ·) (ih hstart)

/-- The rows of a table are read as they were written. -/
theorem all_rows {rows' : List (List String)} {cs : List Char} (h : SpellsRows rows' cs) :
    (rows cs).all = rows' := all_rowsFrom h rfl

/-- A row that is written has a cell. -/
theorem SpellsRow.ne_nil {row : List String} {cs : List Char} (h : SpellsRow row cs) :
    row ≠ [] := by
  cases h <;> exact List.cons_ne_nil _ _

/-- Every row of a table that is written has a cell. -/
theorem SpellsRows.ne_nil_of_mem {rows : List (List String)} {cs : List Char}
    (h : SpellsRows rows cs) {row : List String} (hrow : row ∈ rows) : row ≠ [] := by
  induction h with
  | nil => cases hrow
  | last h =>
    rw [List.mem_singleton.mp hrow]
    exact h.ne_nil
  | line h _ _ ih =>
    rcases List.mem_cons.mp hrow with rfl | hrow
    · exact h.ne_nil
    · exact ih hrow

/-- Rows whose cells are not too long make the table with the first of them as its header. -/
theorem Table.ofText_eq {header : List String} {records : List (List String)} {s : String}
    {maxLength : Nat} (h : SpellsRows (header :: records) s.toList)
    (hfits : ∀ row ∈ header :: records, fits maxLength row = true) :
    Table.ofText maxLength s = ⟨some header, records, none⟩ := by
  have hall : (rows s.toList).ended ++ (rows s.toList).unfinished?.toList = header :: records :=
    all_rows h
  have hrecords : records.filter (!·.isEmpty) = records :=
    List.filter_eq_self.mpr fun row hrow => by
      simp [h.ne_nil_of_mem (List.mem_cons_of_mem _ hrow)]
  have htake : (header :: records).takeWhile (fits maxLength) = header :: records :=
    List.takeWhile_eq_self_iff.mpr hfits
  rw [ofText, ofOpenRows, hall, if_pos rfl, htake, List.all_eq_true.mpr hfits, ofRows,
    List.tail_cons, hrecords]
  rfl

end FormulaBook.Csv
