/-
Module: EvalCharts.Proofs.Table.Faults
Purpose: What ends the reading of a table: the first row that cannot be read, which is reported by its
  number. A column that the header lacks is found missing in the first row below the header, and so not
  at all where there is none.
Main exports: FirstFault, readRows_eq_error_iff, readTable_cons, NamesAll, mem_header_of_readRow,
  read_eq_ok_iff_of_not_namesAll
-/
import EvalCharts.Proofs.Table.RoundTrip

namespace EvalCharts.Table

/-! ### The first fault -/

/-- The failure of the first row that cannot be read below a header. The first row has the given
    number. -/
def FirstFault (header : Header) (number : Nat) (rows : List Row) (failure : ReadFailure) : Prop :=
  ∃ good bad rest fault, rows = good ++ bad :: rest ∧
    (∀ row ∈ good, ∃ run, readRow header row.cells = .ok run) ∧
    readRow header bad.cells = .error fault ∧
    failure = .row ⟨number + good.length, bad.start, fault⟩

namespace FirstFault

variable {header : Header} {number : Nat} {row : Row} {rows : List Row} {failure : ReadFailure}

theorem not_nil : ¬FirstFault header number [] failure := by
  rintro ⟨good, bad, rest, fault, hrows, -⟩
  simp at hrows

/-- A row that cannot be read hides those behind it. -/
theorem cons_of_error {fault : RowFault} (h : readRow header row.cells = .error fault) :
    FirstFault header number (row :: rows) failure ↔ failure = .row ⟨number, row.start, fault⟩ := by
  constructor
  · rintro ⟨good, bad, rest, other, hrows, hgood, hbad, rfl⟩
    cases good with
    | nil =>
        obtain ⟨rfl, rfl⟩ := List.cons.inj hrows
        rw [h] at hbad
        rw [Except.error.inj hbad]
        rfl
    | cons first good =>
        obtain ⟨rfl, -⟩ := List.cons.inj hrows
        obtain ⟨run, hrun⟩ := hgood row List.mem_cons_self
        rw [h] at hrun
        cases hrun
  · rintro rfl
    refine ⟨[], row, rows, fault, rfl, ?_, h, rfl⟩
    intro other hmem
    cases hmem

theorem cons_of_ok {run : Run} (h : readRow header row.cells = .ok run) :
    FirstFault header number (row :: rows) failure ↔ FirstFault header (number + 1) rows failure := by
  constructor
  · rintro ⟨good, bad, rest, fault, hrows, hgood, hbad, rfl⟩
    cases good with
    | nil =>
        obtain ⟨rfl, -⟩ := List.cons.inj hrows
        rw [h] at hbad
        cases hbad
    | cons first good =>
        obtain ⟨-, hrest⟩ := List.cons.inj hrows
        refine ⟨good, bad, rest, fault, hrest, ?_, hbad, ?_⟩
        · intro other hmem
          exact hgood other (List.mem_cons_of_mem _ hmem)
        · rw [List.length_cons, Nat.add_assoc, Nat.add_comm 1]
  · rintro ⟨good, bad, rest, fault, rfl, hgood, hbad, rfl⟩
    refine ⟨row :: good, bad, rest, fault, rfl, ?_, hbad, ?_⟩
    · intro other hmem
      rcases List.mem_cons.1 hmem with rfl | hmem
      · exact ⟨run, h⟩
      · exact hgood other hmem
    · rw [List.length_cons, Nat.add_assoc, Nat.add_comm 1]

/-- Rows behind the fault do not matter. -/
theorem append (h : FirstFault header number rows failure) (more : List Row) :
    FirstFault header number (rows ++ more) failure := by
  obtain ⟨good, bad, rest, fault, rfl, hgood, hbad, rfl⟩ := h
  refine ⟨good, bad, rest ++ more, fault, ?_, hgood, hbad, rfl⟩
  rw [List.append_assoc, List.cons_append]

end FirstFault

/-- Reading rows fails at the first of them that cannot be read. -/
theorem readRows_eq_error_iff {header : Header} {rows : List Row} {failure : ReadFailure} :
    readRows header rows = .error failure ↔ FirstFault header 1 rows failure := by
  unfold readRows
  generalize 1 = number
  induction rows generalizing number with
  | nil =>
      refine iff_of_false ?_ FirstFault.not_nil
      intro h
      cases h
  | cons row rows ih =>
      rw [List.zipIdx_cons, List.mapM_cons]
      dsimp only
      cases hrow : readRow header row.cells with
      | error fault =>
          rw [FirstFault.cons_of_error hrow]
          change Except.error (ReadFailure.row ⟨number, row.start, fault⟩) = Except.error failure ↔ _
          rw [Except.error.injEq, eq_comm]
      | ok run =>
          rw [FirstFault.cons_of_ok hrow, ← ih]
          generalize List.mapM (m := Except ReadFailure) _ (rows.zipIdx (number + 1)) = result
          cases result with
          | error other => exact Iff.rfl
          | ok runs => exact iff_of_false (fun h => by cases h) (fun h => by cases h)

/-- A header that is text hands over to the rows below it, and one that is not fails by itself. -/
theorem readTable_cons (first : Row) (rows : List Row) :
    readTable (first :: rows) =
      match readHeader first.cells with
      | .ok header => readRows header rows
      | .error fault => .error (.row ⟨0, first.start, fault⟩) := by
  unfold readTable
  dsimp only
  cases readHeader first.cells with
  | ok header => rfl
  | error fault => rfl

/-! ### Columns that a header names -/

theorem readCells_cons_eq_ok_iff {field : Nat} {cell : List UInt8} {cells : List (List UInt8)}
    {texts : List (List Char)} :
    readCells field (cell :: cells) = .ok texts ↔
      ∃ text others, Utf8.decode cell = .ok text ∧ readCells (field + 1) cells = .ok others ∧
        texts = text :: others := by
  rw [readCells]
  constructor
  · intro h
    cases hcell : Utf8.decode cell with
    | error validBytes =>
        rw [hcell] at h
        cases h
    | ok text =>
        rw [hcell] at h
        dsimp only at h
        cases hcells : readCells (field + 1) cells with
        | error fault =>
            rw [hcells] at h
            cases h
        | ok others =>
            rw [hcells] at h
            exact ⟨text, others, rfl, rfl, (Except.ok.inj h).symm⟩
  · rintro ⟨text, others, hcell, hcells, rfl⟩
    rw [hcell]
    dsimp only
    rw [hcells]
    rfl

theorem mem_of_readCells {field : Nat} {cells : List (List UInt8)} {texts : List (List Char)}
    (h : readCells field cells = .ok texts) :
    ∀ text ∈ texts, ∃ cell ∈ cells, Utf8.decode cell = .ok text := by
  induction cells generalizing field texts with
  | nil =>
      cases h
      intro text hmem
      cases hmem
  | cons cell cells ih =>
      obtain ⟨first, others, hcell, hcells, rfl⟩ := readCells_cons_eq_ok_iff.1 h
      intro text hmem
      rcases List.mem_cons.1 hmem with rfl | hmem
      · exact ⟨cell, List.mem_cons_self, hcell⟩
      · obtain ⟨cell', hmem', hcell'⟩ := ih hcells text hmem
        exact ⟨cell', List.mem_cons_of_mem _ hmem', hcell'⟩

/-- Cells are read if each of them is text. -/
theorem exists_readCells (field : Nat) (cells : List (List UInt8)) :
    (∃ texts, readCells field cells = .ok texts) ↔
      ∀ cell ∈ cells, ∃ text, Utf8.decode cell = .ok text := by
  induction cells generalizing field with
  | nil =>
      refine iff_of_true ⟨[], rfl⟩ ?_
      intro cell hmem
      cases hmem
  | cons cell cells ih =>
      rw [List.forall_mem_cons, ← ih (field + 1)]
      constructor
      · rintro ⟨texts, h⟩
        obtain ⟨text, others, hcell, hcells, -⟩ := readCells_cons_eq_ok_iff.1 h
        exact ⟨⟨text, hcell⟩, others, hcells⟩
      · rintro ⟨⟨text, hcell⟩, others, hcells⟩
        exact ⟨text :: others, readCells_cons_eq_ok_iff.2 ⟨text, others, hcell, hcells, rfl⟩⟩

theorem exists_readHeader {cells : List (List UInt8)} :
    (∃ header, readHeader cells = .ok header) ↔
      ∀ cell ∈ cells, ∃ text, Utf8.decode cell = .ok text := by
  rw [← exists_readCells 1]
  unfold readHeader
  cases readCells 1 cells with
  | error fault =>
      refine iff_of_false ?_ ?_ <;> rintro ⟨_, h⟩ <;> cases h
  | ok texts => exact iff_of_true ⟨_, rfl⟩ ⟨texts, rfl⟩

theorem toList_of_ofName? {name : List Char} {column : Column}
    (h : Column.ofName? (String.ofList name) = some column) : column.name.toList = name := by
  have hbeq := List.find?_some h
  rw [eq_of_beq hbeq, String.toList_ofList]

/-- A header holds a column only where one of its cells is the name of the column. -/
theorem exists_cell_of_mem_header {cells : List (List UInt8)} {header : Header}
    (h : readHeader cells = .ok header) {column : Column} (hmem : some column ∈ header) :
    ∃ cell ∈ cells, Utf8.decode cell = .ok column.name.toList := by
  unfold readHeader at h
  cases hcells : readCells 1 cells with
  | error fault =>
      rw [hcells] at h
      cases h
  | ok texts =>
      rw [hcells] at h
      cases h
      obtain ⟨name, hname, hcolumn⟩ := List.mem_map.1 hmem
      rw [toList_of_ofName? hcolumn]
      exact mem_of_readCells hcells name hname

/-! ### Columns that a row needs -/

/-- Values are only collected for the columns of the cells. -/
theorem mem_of_readValues {cells : List (Option Column × List Char)} {field : Nat}
    {values result : Values} (h : readValues field cells values = .ok result) {column : Column}
    (hresult : (result.lookup column).isSome) :
    (values.lookup column).isSome ∨ some column ∈ cells.map Prod.fst := by
  induction cells generalizing field values with
  | nil =>
      cases h
      exact Or.inl hresult
  | cons cell cells ih =>
      obtain ⟨column?, text⟩ := cell
      rw [List.map_cons, List.mem_cons]
      cases column? with
      | none =>
          rw [readValues] at h
          rcases ih h with hvalues | hcells
          · exact Or.inl hvalues
          · exact Or.inr (Or.inr hcells)
      | some named =>
          rw [readValues] at h
          split at h
          · cases h
          · split at h
            · cases h
            · rcases ih h with hvalues | hcells
              · by_cases heq : column = named
                · exact Or.inr (Or.inl (congrArg some heq))
                · rw [List.lookup_cons, beq_false_of_ne heq] at hvalues
                  exact Or.inl hvalues
              · exact Or.inr (Or.inr hcells)

theorem isSome_lookup_of_runOf {values : Values} {run : Run} (h : runOf values = .ok run)
    (column : Column) : (values.lookup column).isSome := by
  unfold runOf at h
  split at h
  · cases h
  · rename_i hfind
    have hlookup := List.find?_eq_none.1 hfind column (Column.mem_all column)
    rwa [Bool.not_eq_true, Option.isNone_eq_false_iff] at hlookup

/-- A row is only read below a header that has every column. -/
theorem mem_header_of_readRow {header : Header} {cells : List (List UInt8)} {run : Run}
    (h : readRow header cells = .ok run) (column : Column) : some column ∈ header := by
  unfold readRow at h
  split at h
  · cases h
  · obtain ⟨texts, -, h⟩ := bind_eq_ok_iff.1 h
    obtain ⟨values, hvalues, hrun⟩ := bind_eq_ok_iff.1 h
    rcases mem_of_readValues hvalues (isSome_lookup_of_runOf hrun column) with hnil | hmem
    · cases hnil
    · obtain ⟨⟨named, text⟩, hzip, hnamed⟩ := List.mem_map.1 hmem
      have heq : named = some column := hnamed
      rw [← heq]
      exact (List.of_mem_zip hzip).1

/-! ### Tables that lack a column -/

/-- The first row names every column. -/
def NamesAll (rows : List Row) : Prop :=
  ∃ first ∈ rows.head?, ∀ column : Column, ∃ cell ∈ first.cells,
    Utf8.decode cell = .ok column.name.toList

/-- A table that lacks a column fails where it has a row to read, and is empty where it has none. A
    header that is not text fails in any case. -/
theorem read_eq_ok_iff_of_not_namesAll {bytes : List UInt8} (h : ¬NamesAll (scan bytes).rows)
    (dataset : Dataset) :
    read (.whole bytes) = .ok dataset ↔
      dataset = ⟨[]⟩ ∧ (scan bytes).rows.tail = [] ∧
        ∀ first ∈ (scan bytes).rows.head?, ∀ cell ∈ first.cells, ∃ text,
          Utf8.decode cell = .ok text := by
  obtain ⟨runs⟩ := dataset
  rw [Sheet.read_eq, Dataset.mk.injEq]
  cases hrows : (scan bytes).rows with
  | nil =>
      -- without a header there is nothing to be read
      change Except.ok [] = Except.ok runs ↔ _
      rw [Except.ok.injEq, eq_comm]
      simp
  | cons first rows =>
      rw [hrows] at h
      have hlacks : ∀ header, readHeader first.cells = .ok header →
          ¬∀ column : Column, some column ∈ header := by
        intro header hheader hall
        apply h
        refine ⟨first, rfl, ?_⟩
        intro column
        exact exists_cell_of_mem_header hheader (hall column)
      have htext : (∀ other ∈ (first :: rows).head?, ∀ cell ∈ other.cells, ∃ text,
          Utf8.decode cell = .ok text) ↔ ∃ header, readHeader first.cells = .ok header := by
        rw [exists_readHeader]
        simp
      rw [htext, readTable_cons, List.tail_cons]
      cases hheader : readHeader first.cells with
      | error fault =>
          refine iff_of_false (fun h => by cases h) ?_
          rintro ⟨-, -, header, hok⟩
          cases hok
      | ok header =>
          dsimp only
          rw [readRows_eq_ok_iff]
          constructor
          · intro hread
            cases hread with
            | nil => exact ⟨rfl, rfl, header, rfl⟩
            | cons hrow hrest =>
                -- a row that is read has every column
                exact absurd (mem_header_of_readRow hrow) (hlacks header hheader)
          · rintro ⟨rfl, rfl, -⟩
            exact List.Forall₂.nil

/-- A header of two columns, and nothing below it. -/
def shortHeader : List UInt8 :=
  Utf8.encode ['i', 'd', ';', 'k', '\n']

theorem not_namesAll_of_forall {rows : List Row} (column : Column)
    (h : ∀ first ∈ rows.head?, ∀ cell ∈ first.cells, Utf8.decode cell ≠ .ok column.name.toList) :
    ¬NamesAll rows := by
  rintro ⟨first, hfirst, hall⟩
  obtain ⟨cell, hmem, hcell⟩ := hall column
  exact h first hfirst cell hmem hcell

/-- With a row below it, a header of two columns is refused. -/
theorem read_shortHeader_row_ne :
    ¬NamesAll (scan (shortHeader ++ Utf8.encode ['1', ';', '2', '\n'])).rows ∧
      ∀ dataset, read (.whole (shortHeader ++ Utf8.encode ['1', ';', '2', '\n'])) ≠ .ok dataset := by
  have hlacks : ¬NamesAll (scan (shortHeader ++ Utf8.encode ['1', ';', '2', '\n'])).rows :=
    not_namesAll_of_forall .similarity (by decide)
  refine ⟨hlacks, ?_⟩
  intro dataset h
  obtain ⟨-, htail, -⟩ := (read_eq_ok_iff_of_not_namesAll hlacks dataset).1 h
  exact absurd htail (by decide)

/-- Without one, it is accepted. -/
theorem read_shortHeader :
    ¬NamesAll (scan shortHeader).rows ∧ read (.whole shortHeader) = .ok ⟨[]⟩ :=
  ⟨not_namesAll_of_forall .similarity (by decide), rfl⟩

end EvalCharts.Table
