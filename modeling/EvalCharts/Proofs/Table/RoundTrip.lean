/-
Module: EvalCharts.Proofs.Table.RoundTrip
Purpose: Reading a table gives back the runs it was written from, whatever the order of its columns, the
  columns and texts between them, and the layout. The exception is a file without byte order mark that
  starts with a name which looks as if it had one.
Main exports: Heading, Sheet, Layout, Sheet.encode, Sheet.Masked, readTable_eq_ok_iff, Sheet.read_encode
-/
import EvalCharts.Table.Results
import EvalCharts.Proofs.Table.Layout
import EvalCharts.Proofs.Double.RoundTrip
import EvalCharts.Proofs.Results

namespace EvalCharts.Table

/-! ### Sheets -/

/-- What a column of a table is for. -/
inductive Heading where
  | known (column : Column)
  /-- A column that is not read. -/
  | other (name : List Char)

namespace Heading

def text : Heading → List Char
  | .known column => column.name.toList
  | .other name => name

def column? : Heading → Option Column
  | .known column => some column
  | .other _ => none

end Heading

/-- A run, and what stands beside it in the columns that are not read. -/
structure Record where
  run : Run
  remark : Nat → List Char

/-- The cells of a record. -/
def cellTexts (run : Run) (remark : Nat → List Char) : List Heading → List (List Char)
  | [] => []
  | .known column :: headings =>
    Double.write (run.get column) :: cellTexts run (fun place => remark (place + 1)) headings
  | .other _ :: headings => remark 0 :: cellTexts run (fun place => remark (place + 1)) headings

/-- The content of a table that has every column just once, among others with other names. -/
structure Sheet where
  headings : List Heading
  complete : (headings.filterMap Heading.column?).Perm Column.all
  foreign : ∀ name, Heading.other name ∈ headings → ∀ column : Column, column.name.toList ≠ name
  records : List Record

namespace Sheet

def runs (sheet : Sheet) : List Run :=
  sheet.records.map Record.run

/-- The cells of all lines, those of the header first. -/
def lines (sheet : Sheet) : List (List (List Char)) :=
  sheet.headings.map Heading.text ::
    sheet.records.map fun record => cellTexts record.run record.remark sheet.headings

end Sheet

/-- The byte order mark. -/
def byteOrderMark : Char := '\uFEFF'

/-- How a file is written: whether a mark precedes it, which empty lines stand in front of the header, how
    each line is written, and whether the last one is ended. -/
structure Layout where
  mark : Bool
  blanks : List LineEnd
  lines : Nat → LineLayout
  ended : Bool

/-- The bytes of a file. -/
def Sheet.encode (sheet : Sheet) (layout : Layout) : List UInt8 :=
  Utf8.encode ((if layout.mark then [byteOrderMark] else []) ++
    (breakText layout.blanks ++ tableText layout.ended layout.lines sheet.lines))

/-- The file starts like one with a byte order mark, and behind the mark with the name of a column, which
    therefore seems to be there twice; and there is a run to be read. -/
def Sheet.Masked (sheet : Sheet) (layout : Layout) : Prop :=
  layout.mark = false ∧ layout.blanks = [] ∧ (layout.lines 0).quoted 0 = false ∧
    sheet.records ≠ [] ∧
    ∃ column : Column, sheet.headings.head? = some (.other (byteOrderMark :: column.name.toList))

/-! ### Reading cells -/

theorem readCells_encode (field : Nat) (texts : List (List Char)) :
    readCells field (texts.map Utf8.encode) = .ok texts := by
  induction texts generalizing field with
  | nil => rfl
  | cons text texts ih =>
      rw [List.map_cons, readCells, Utf8.decode_encode]
      dsimp only
      rw [ih]
      rfl

/-- The header that some names make. -/
def headerOf (names : List (List Char)) : Header :=
  names.map fun name => Column.ofName? (String.ofList name)

theorem readHeader_encode (names : List (List Char)) :
    readHeader (names.map Utf8.encode) = .ok (headerOf names) := by
  unfold readHeader
  rw [readCells_encode]
  rfl

theorem readRow_encode (header : Header) {texts : List (List Char)}
    (hlength : texts.length = header.length) :
    readRow header (texts.map Utf8.encode) = readValues 1 (header.zip texts) [] >>= runOf := by
  unfold readRow
  rw [List.length_map, if_neg (not_not.2 hlength), readCells_encode]
  rfl

/-! ### Reading values -/

/-- The values of some columns of a run, the last one first. -/
def valuesOf (run : Run) (columns : List Column) : Values :=
  columns.reverse.map fun column => (column, run.get column)

theorem length_cellTexts (run : Run) (remark : Nat → List Char) (headings : List Heading) :
    (cellTexts run remark headings).length = headings.length := by
  induction headings generalizing remark with
  | nil => rfl
  | cons heading headings ih =>
      cases heading <;> exact congrArg (· + 1) (ih _)

/-- The values of a run are collected from its cells, if no column comes twice. -/
theorem readValues_cellTexts (run : Run) (remark : Nat → List Char) {headings : List Heading}
    (field : Nat) {values : Values} (hnodup : (headings.filterMap Heading.column?).Nodup)
    (hnew : ∀ column ∈ headings.filterMap Heading.column?, values.lookup column = none) :
    readValues field ((headings.map Heading.column?).zip (cellTexts run remark headings)) values =
      .ok (valuesOf run (headings.filterMap Heading.column?) ++ values) := by
  induction headings generalizing remark field values with
  | nil => rfl
  | cons heading headings ih =>
      cases heading with
      | other name => exact ih (fun place => remark (place + 1)) (field + 1) hnodup hnew
      | known column =>
          have hcons : (Heading.known column :: headings).filterMap Heading.column? =
              column :: headings.filterMap Heading.column? := rfl
          rw [hcons] at hnodup hnew ⊢
          obtain ⟨hfresh, hrest⟩ := List.nodup_cons.1 hnodup
          have hlookup := hnew column List.mem_cons_self
          rw [List.map_cons, cellTexts, List.zip_cons_cons, Heading.column?, readValues, hlookup,
            Double.read_write]
          dsimp only
          rw [if_neg (by simp), ih _ _ hrest]
          · unfold valuesOf
            rw [List.reverse_cons, List.map_append, List.append_assoc]
            rfl
          · intro other hmem
            have hne : other ≠ column := fun heq => hfresh (heq ▸ hmem)
            rw [List.lookup_cons, beq_false_of_ne hne]
            exact hnew other (List.mem_cons_of_mem _ hmem)

/-- No values are collected from columns that come twice. -/
theorem nodup_of_readValues {cells : List (Option Column × List Char)} {field : Nat}
    {values result : Values} (h : readValues field cells values = .ok result) :
    (cells.filterMap Prod.fst).Nodup ∧
      ∀ column ∈ cells.filterMap Prod.fst, values.lookup column = none := by
  induction cells generalizing field values with
  | nil => exact ⟨List.nodup_nil, fun _ hmem => absurd hmem List.not_mem_nil⟩
  | cons cell cells ih =>
      obtain ⟨column?, text⟩ := cell
      cases column? with
      | none => exact ih h
      | some column =>
          unfold readValues at h
          by_cases hknown : (values.lookup column).isSome = true
          · rw [if_pos hknown] at h
            exact absurd h (by simp)
          · rw [if_neg hknown] at h
            cases hread : Double.read text with
            | error reason =>
                rw [hread] at h
                exact absurd h (by simp)
            | ok value =>
                rw [hread] at h
                obtain ⟨hnodup, hnew⟩ := ih h
                have hlookup := Option.not_isSome_iff_eq_none.1 hknown
                have hcons : ((some column, text) :: cells).filterMap Prod.fst =
                    column :: cells.filterMap Prod.fst := rfl
                rw [hcons]
                constructor
                · refine List.nodup_cons.2 ⟨fun hmem => ?_, hnodup⟩
                  have hagain := hnew column hmem
                  rw [List.lookup_cons, beq_self_eq_true] at hagain
                  exact absurd hagain (by simp)
                · intro other hmem
                  rcases List.mem_cons.1 hmem with rfl | hmem
                  · exact hlookup
                  · have hother := hnew other hmem
                    rw [List.lookup_cons] at hother
                    cases hbeq : other == column with
                    | true =>
                        rw [hbeq] at hother
                        exact absurd hother (by simp)
                    | false =>
                        rw [hbeq] at hother
                        exact hother

theorem lookup_map_self {f : Column → Float} {columns : List Column} {column : Column}
    (h : column ∈ columns) :
    (columns.map fun column => (column, f column)).lookup column = some (f column) := by
  induction columns with
  | nil => exact absurd h List.not_mem_nil
  | cons other columns ih =>
      rw [List.map_cons, List.lookup_cons]
      cases hbeq : column == other with
      | true => rw [eq_of_beq hbeq]
      | false =>
          rcases List.mem_cons.1 h with rfl | hmem
          · rw [beq_self_eq_true] at hbeq
            exact absurd hbeq Bool.noConfusion
          · exact ih hmem

/-- Values of all columns make up a run. -/
theorem runOf_valuesOf (run : Run) {columns : List Column} (h : columns.Perm Column.all) :
    runOf (valuesOf run columns) = .ok run := by
  have hlookup : ∀ column, (valuesOf run columns).lookup column = some (run.get column) := by
    intro column
    exact lookup_map_self (List.mem_reverse.2 (h.mem_iff.2 (Column.mem_all column)))
  have hfind : (Column.all.find? fun column => ((valuesOf run columns).lookup column).isNone) =
      none := by
    rw [List.find?_eq_none]
    intro column _
    rw [hlookup]
    exact Bool.false_ne_true
  unfold runOf
  rw [hfind]
  simp only [hlookup, Option.getD_some]

/-! ### Reading rows -/

theorem located_eq_ok_iff {α : Type} {number : Nat} {row : Row} {result : Except RowFault α}
    {value : α} : located number row result = .ok value ↔ result = .ok value :=
  mapError_eq_ok_iff

theorem readRows_eq_ok_iff {header : Header} {rows : List Row} {runs : List Run} :
    readRows header rows = .ok runs ↔
      List.Forall₂ (fun row run => readRow header row.cells = .ok run) rows runs := by
  have hrows : (rows.zipIdx 1).map Prod.fst = rows := List.zipIdx_map_fst 1 rows
  unfold readRows
  simp only [mapM_eq_ok_iff, located_eq_ok_iff]
  conv_rhs => rw [← hrows, List.forall₂_map_left_iff]

/-- A table is read if each of its rows is, below the header that the first row makes. -/
theorem readTable_eq_ok_iff {rows : List Row} {names : List (List Char)}
    {lines : List (List (List Char))}
    (h : rows.map Row.cells = (names :: lines).map (List.map Utf8.encode)) {runs : List Run} :
    readTable rows = .ok runs ↔
      List.Forall₂ (fun texts run => readRow (headerOf names) (texts.map Utf8.encode) = .ok run)
        lines runs := by
  cases rows with
  | nil => simp at h
  | cons first rows =>
      obtain ⟨hfirst, hrows⟩ := List.cons.inj h
      have hheader : located 0 first (readHeader first.cells) = .ok (headerOf names) :=
        located_eq_ok_iff.2 (hfirst ▸ readHeader_encode names)
      unfold readTable
      dsimp only
      rw [hheader]
      change readRows (headerOf names) rows = .ok runs ↔ _
      rw [readRows_eq_ok_iff, ← List.forall₂_map_left_iff (f := Row.cells)
        (R := fun cells run => readRow (headerOf names) cells = .ok run), hrows,
        List.forall₂_map_left_iff]

/-! ### Reading records -/

theorem ofName?_of_forall_ne {name : List Char} (h : ∀ column : Column, column.name.toList ≠ name) :
    Column.ofName? (String.ofList name) = none := by
  unfold Column.ofName?
  rw [List.find?_eq_none]
  intro column _ hbeq
  apply h column
  rw [eq_of_beq hbeq]
  exact String.toList_ofList

theorem ofName?_toList (column : Column) :
    Column.ofName? (String.ofList column.name.toList) = some column := by
  rw [String.ofList_toList]
  exact Column.ofName?_name column

namespace Sheet

variable (sheet : Sheet)

theorem ofName?_text {heading : Heading} (h : heading ∈ sheet.headings) :
    Column.ofName? (String.ofList heading.text) = heading.column? := by
  cases heading with
  | known column => exact ofName?_toList column
  | other name => exact ofName?_of_forall_ne (sheet.foreign name h)

theorem headerOf_headings :
    headerOf (sheet.headings.map Heading.text) = sheet.headings.map Heading.column? := by
  unfold headerOf
  rw [List.map_map]
  exact List.map_congr_left fun heading hmem => sheet.ofName?_text hmem

theorem nodup_columns : (sheet.headings.filterMap Heading.column?).Nodup :=
  sheet.complete.nodup_iff.2 (by decide)

theorem length_headings : 17 ≤ sheet.headings.length := by
  have hlength := sheet.complete.length_eq
  have hle := List.length_filterMap_le Heading.column? sheet.headings
  change _ = 17 at hlength
  omega

theorem exists_headings : ∃ first second headings, sheet.headings = first :: second :: headings := by
  have hlength := sheet.length_headings
  rcases hheadings : sheet.headings with _ | ⟨first, _ | ⟨second, headings⟩⟩
  · rw [hheadings] at hlength
    simp at hlength
  · rw [hheadings] at hlength
    simp at hlength
  · exact ⟨first, second, headings, rfl⟩

theorem length_lines : ∀ texts ∈ sheet.lines, 2 ≤ texts.length := by
  have hlength := sheet.length_headings
  intro texts hmem
  rcases List.mem_cons.1 hmem with rfl | hmem
  · rw [List.length_map]
    omega
  · obtain ⟨record, -, rfl⟩ := List.mem_map.1 hmem
    rw [length_cellTexts]
    omega

/-- Below its own header a record is read as its run. -/
theorem readRow_record (record : Record) :
    readRow (sheet.headings.map Heading.column?)
      ((cellTexts record.run record.remark sheet.headings).map Utf8.encode) = .ok record.run := by
  rw [readRow_encode]
  · rw [readValues_cellTexts record.run record.remark 1 sheet.nodup_columns (fun _ _ => rfl),
      List.append_nil]
    exact runOf_valuesOf record.run sheet.complete
  · rw [length_cellTexts, List.length_map]

/-- Below a header that has a column twice no record is read. -/
theorem readRow_of_duplicate {header : Header} (hdup : ¬(header.filterMap id).Nodup)
    {texts : List (List Char)} (run : Run) :
    readRow header (texts.map Utf8.encode) ≠ .ok run := by
  intro h
  by_cases hlength : texts.length = header.length
  · rw [readRow_encode header hlength] at h
    obtain ⟨values, hvalues, -⟩ := bind_eq_ok_iff.1 h
    have hnodup := (nodup_of_readValues hvalues).1
    have hfst : (header.zip texts).map Prod.fst = header :=
      List.map_fst_zip (le_of_eq hlength.symm)
    apply hdup
    rw [← hfst, List.filterMap_map]
    exact hnodup
  · unfold readRow at h
    rw [List.length_map, if_pos hlength] at h
    exact absurd h (by simp)

end Sheet

/-! ### Marks -/

/-- Only the mark itself is written with the bytes of the mark. -/
theorem of_encode_eq_mark {text : List Char} {bytes : List UInt8}
    (h : Utf8.encode text = 0xEF :: 0xBB :: 0xBF :: bytes) :
    ∃ rest, text = byteOrderMark :: rest := by
  have hdecode := Utf8.decode_encode text
  have hmark := Utf8.decodeFrom_char byteOrderMark bytes 0
  change Utf8.decodeFrom (0xEF :: 0xBB :: 0xBF :: bytes) 0 none = _ at hmark
  unfold Utf8.decode at hdecode
  rw [h, hmark] at hdecode
  generalize Utf8.decodeFrom bytes _ none = result at hdecode
  cases result with
  | error valid => exact absurd hdecode (by simp [Except.map])
  | ok rest => exact ⟨rest, (Except.ok.inj hdecode).symm⟩

theorem scan_mark (text : List Char) :
    scan (Utf8.encode (byteOrderMark :: text)) = (Scan.begin ⟨1, 3⟩).reads text := rfl

theorem scan_encode {text : List Char} (h : text.head? ≠ some byteOrderMark) :
    scan (Utf8.encode text) = (Scan.begin .origin).reads text := by
  unfold scan
  split
  · rename_i heq
    obtain ⟨rest, rfl⟩ := of_encode_eq_mark heq
    exact absurd rfl h
  · rfl

theorem scanned_begin (position : Position) :
    Scanned (Scan.begin position) .betweenRows [] [] [] :=
  ⟨rfl, rfl, rfl, rfl⟩

/-- The rows of a table behind empty lines. -/
theorem rows_reads (position : Position) (blanks : List LineEnd) (ended : Bool)
    (layout : Nat → LineLayout) {lines : List (List (List Char))}
    (hlength : ∀ texts ∈ lines, 2 ≤ texts.length) :
    ((Scan.begin position).reads (breakText blanks ++ tableText ended layout lines)).rows.map
      Row.cells = lines.map (List.map Utf8.encode) := by
  rw [Scan.reads_append]
  exact ((scanned_begin position).blankLines blanks).tableText ended layout hlength

theorem head?_breakText (lineEnd : LineEnd) (blanks : List LineEnd) (text : List Char) :
    (breakText (lineEnd :: blanks) ++ text).head? ≠ some byteOrderMark := by
  intro h
  cases lineEnd <;> exact absurd (Option.some.inj h) (by decide)

theorem head?_cellText {quoted : Bool} {text rest : List Char}
    (h : (cellText quoted text ++ ';' :: rest).head? = some byteOrderMark) :
    quoted = false ∧ ∃ name, text = byteOrderMark :: name ∧
      cellText quoted text = byteOrderMark :: cellText quoted name := by
  unfold cellText at h ⊢
  by_cases hquoted : (quoted || text.any needsQuotes) = true
  · rw [if_pos hquoted] at h
    exact absurd (Option.some.inj h) (by decide)
  · rw [if_neg hquoted] at h ⊢
    rw [Bool.not_eq_true, Bool.or_eq_false_iff] at hquoted
    cases text with
    | nil => exact absurd (Option.some.inj h) (by decide)
    | cons c name =>
        have hc : c = byteOrderMark := Option.some.inj h
        rw [hc, List.any_cons, Bool.or_eq_false_iff] at hquoted
        refine ⟨hquoted.1, name, by rw [hc], ?_⟩
        rw [hc, hquoted.1, hquoted.2.2]
        rfl

/-- A table that starts with the mark has it in front of its first name. -/
theorem head?_tableText {ended : Bool} {layout : Nat → LineLayout} {first second : List Char}
    {texts : List (List Char)} {rows : List (List (List Char))}
    (h : (tableText ended layout ((first :: second :: texts) :: rows)).head? = some byteOrderMark) :
    (layout 0).quoted 0 = false ∧ ∃ name, first = byteOrderMark :: name ∧
      tableText ended layout ((first :: second :: texts) :: rows) =
        byteOrderMark :: tableText ended layout ((name :: second :: texts) :: rows) := by
  obtain ⟨rest, htable⟩ := tableText_cons ended layout rows
  rw [htable, rowText_cons_cons, List.append_assoc, List.cons_append] at h
  obtain ⟨hquoted, name, hname, hcell⟩ := head?_cellText h
  refine ⟨hquoted, name, hname, ?_⟩
  rw [htable, htable, rowText_cons_cons, rowText_cons_cons, hcell]
  rfl

/-! ### Round trip -/

namespace Sheet

variable (sheet : Sheet)

/-- Rows with the cells of a sheet are read as its runs, also if the header has other names that are no
    names of columns either. -/
theorem readTable_records {rows : List Row} {names : List (List Char)}
    (h : rows.map Row.cells = (names :: sheet.lines.tail).map (List.map Utf8.encode))
    (hnames : headerOf names = sheet.headings.map Heading.column?) :
    readTable rows = .ok sheet.runs := by
  rw [readTable_eq_ok_iff h, hnames]
  unfold runs lines
  rw [List.tail_cons, List.forall₂_map_left_iff, List.forall₂_map_right_iff, List.forall₂_same]
  intro record _
  exact sheet.readRow_record record

theorem readTable_lines {rows : List Row}
    (h : rows.map Row.cells = sheet.lines.map (List.map Utf8.encode)) :
    readTable rows = .ok sheet.runs :=
  sheet.readTable_records h sheet.headerOf_headings

/-- A header that has a column twice fails the first record. -/
theorem readTable_of_duplicate {rows : List Row} {names : List (List Char)}
    (h : rows.map Row.cells = (names :: sheet.lines.tail).map (List.map Utf8.encode))
    (hdup : ¬((headerOf names).filterMap id).Nodup) (hrecords : sheet.records ≠ []) (runs : List Run) :
    readTable rows ≠ .ok runs := by
  rw [ne_eq, readTable_eq_ok_iff h]
  unfold lines
  cases hlist : sheet.records with
  | nil => exact absurd hlist hrecords
  | cons record records =>
      rw [List.tail_cons, List.map_cons, List.forall₂_cons_left_iff]
      rintro ⟨run, others, hrun, -, -⟩
      exact readRow_of_duplicate hdup run hrun

theorem read_eq (bytes : List UInt8) (runs : List Run) :
    read (.whole bytes) = .ok ⟨runs⟩ ↔ readTable (scan bytes).rows = .ok runs := by
  change (readTable (scan bytes).rows).map Dataset.mk = .ok ⟨runs⟩ ↔ _
  cases readTable (scan bytes).rows with
  | error failure => simp [Except.map]
  | ok other => simp [Except.map]

/-- If the bytes of a mark are those of a name, the name loses them. -/
theorem exists_name_of_head? {layout : Layout}
    (h : (breakText layout.blanks ++ tableText layout.ended layout.lines sheet.lines).head? =
      some byteOrderMark) :
    layout.blanks = [] ∧ (layout.lines 0).quoted 0 = false ∧
      ∃ name headings, sheet.headings = .other (byteOrderMark :: name) :: headings ∧
        tableText layout.ended layout.lines sheet.lines =
          byteOrderMark :: tableText layout.ended layout.lines
            ((name :: headings.map Heading.text) :: sheet.lines.tail) := by
  cases hblanks : layout.blanks with
  | cons lineEnd blanks =>
      rw [hblanks] at h
      exact absurd h (head?_breakText lineEnd blanks _)
  | nil =>
      rw [hblanks] at h
      obtain ⟨first, second, headings, hheadings⟩ := sheet.exists_headings
      unfold lines at h ⊢
      rw [hheadings] at h ⊢
      obtain ⟨hquoted, name, hname, htext⟩ := head?_tableText h
      refine ⟨rfl, hquoted, name, second :: headings, ?_, htext⟩
      cases first with
      | known column =>
          -- no column has a name that starts with the mark
          have hhead := congrArg List.head? hname
          cases column <;> exact absurd (Option.some.inj hhead) (by decide)
      | other text =>
          rw [← hname]
          rfl

theorem head?_of_masked {layout : Layout} (h : sheet.Masked layout) :
    (breakText layout.blanks ++ tableText layout.ended layout.lines sheet.lines).head? =
      some byteOrderMark := by
  obtain ⟨-, hblanks, hquoted, -, column, hfirst⟩ := h
  have hany : (byteOrderMark :: column.name.toList).any needsQuotes = false := by
    cases column <;> decide
  have hcell : cellText false (byteOrderMark :: column.name.toList) =
      byteOrderMark :: column.name.toList := by
    unfold cellText
    rw [hany, Bool.or_false, if_neg Bool.false_ne_true]
  obtain ⟨first, second, headings, hheadings⟩ := sheet.exists_headings
  obtain ⟨rest, htable⟩ := tableText_cons layout.ended layout.lines sheet.lines.tail
  have hlines : sheet.lines = sheet.headings.map Heading.text :: sheet.lines.tail := rfl
  have hnames : sheet.headings.map Heading.text =
      (byteOrderMark :: column.name.toList) :: second.text :: headings.map Heading.text := by
    rw [hheadings] at hfirst ⊢
    rw [Option.some.inj hfirst]
    rfl
  rw [hblanks, hlines, htable, hnames, rowText_cons_cons, hquoted, hcell]
  rfl

/-- A file whose first name carries the mark is read as one without the mark in it. -/
theorem readTable_of_name {layout : Layout} {name : List Char} {headings : List Heading}
    (hheadings : sheet.headings = .other (byteOrderMark :: name) :: headings)
    {rows : List Row}
    (hrows : rows.map Row.cells =
      ((name :: headings.map Heading.text) :: sheet.lines.tail).map (List.map Utf8.encode))
    (hblanks : layout.blanks = []) (hmark : layout.mark = false)
    (hquoted : (layout.lines 0).quoted 0 = false) :
    readTable rows = .ok sheet.runs ↔ ¬sheet.Masked layout := by
  have hrest := sheet.headerOf_headings
  rw [hheadings] at hrest
  have hheader : headerOf (headings.map Heading.text) = headings.map Heading.column? :=
    (List.cons.inj hrest).2
  by_cases hname : ∃ column : Column, column.name.toList = name
  · obtain ⟨column, rfl⟩ := hname
    by_cases hrecords : sheet.records = []
    · refine iff_of_true ?_ fun hmasked => hmasked.2.2.2.1 hrecords
      rw [readTable_eq_ok_iff hrows]
      unfold lines runs
      rw [hrecords]
      exact List.Forall₂.nil
    · have hfirst : sheet.headings.head? = some (.other (byteOrderMark :: column.name.toList)) := by
        rw [hheadings]
        rfl
      refine iff_of_false ?_ (not_not.2 ⟨hmark, hblanks, hquoted, hrecords, column, hfirst⟩)
      apply sheet.readTable_of_duplicate hrows _ hrecords
      have hcolumns := sheet.complete.mem_iff.2 (Column.mem_all column)
      rw [hheadings] at hcolumns
      change ¬((Column.ofName? (String.ofList column.name.toList) ::
        headerOf (headings.map Heading.text)).filterMap id).Nodup
      rw [ofName?_toList, hheader]
      change ¬(column :: (headings.map Heading.column?).filterMap id).Nodup
      rw [List.filterMap_map]
      exact fun hnodup => (List.nodup_cons.1 hnodup).1 hcolumns
  · have hnone := ofName?_of_forall_ne fun column heq => hname ⟨column, heq⟩
    refine iff_of_true ?_ fun hmasked => ?_
    · apply sheet.readTable_records hrows
      change Column.ofName? (String.ofList name) :: headerOf (headings.map Heading.text) = _
      rw [hnone, hheader, hheadings]
      rfl
    · obtain ⟨-, -, -, -, column, hfirst⟩ := hmasked
      rw [hheadings] at hfirst
      have heq := Heading.other.inj (Option.some.inj hfirst)
      exact hname ⟨column, (List.cons.inj heq).2.symm⟩

/-- Reading gives back the runs of a sheet, whatever its layout, unless the sheet is masked. -/
theorem read_encode (layout : Layout) :
    read (.whole (sheet.encode layout)) = .ok ⟨sheet.runs⟩ ↔ ¬sheet.Masked layout := by
  have hlength := sheet.length_lines
  rw [read_eq]
  unfold encode
  cases hmark : layout.mark with
  | true =>
      -- the mark is taken off, and what follows is the table
      rw [if_pos rfl, List.singleton_append, scan_mark,
        sheet.readTable_lines (rows_reads ⟨1, 3⟩ layout.blanks layout.ended layout.lines hlength)]
      refine iff_of_true rfl fun hmasked => ?_
      exact absurd (hmark.symm.trans hmasked.1) (by decide)
  | false =>
      rw [if_neg Bool.false_ne_true, List.nil_append]
      by_cases hhead : (breakText layout.blanks ++
          tableText layout.ended layout.lines sheet.lines).head? = some byteOrderMark
      · -- the first name is taken for a mark with a shorter name behind it
        obtain ⟨hblanks, hquoted, name, headings, hheadings, htext⟩ :=
          sheet.exists_name_of_head? hhead
        have hlength' : ∀ texts ∈ (name :: headings.map Heading.text) :: sheet.lines.tail,
            2 ≤ texts.length := by
          intro texts hmem
          rcases List.mem_cons.1 hmem with rfl | hmem
          · have hheader := hlength (sheet.headings.map Heading.text) List.mem_cons_self
            rw [hheadings] at hheader
            simpa using hheader
          · exact hlength texts (List.mem_of_mem_tail hmem)
        have hrows := rows_reads ⟨1, 3⟩ [] layout.ended layout.lines hlength'
        rw [hblanks, htext]
        exact sheet.readTable_of_name hheadings hrows hblanks hmark hquoted
      · -- nothing looks like a mark
        rw [scan_encode hhead,
          sheet.readTable_lines (rows_reads .origin layout.blanks layout.ended layout.lines hlength)]
        refine iff_of_true rfl fun hmasked => hhead ?_
        exact sheet.head?_of_masked hmasked

/-- A sheet with a column that is named like the identifier, but with a mark in front. -/
def marked : Sheet where
  headings := .other [byteOrderMark, 'i', 'd'] :: Column.all.map Heading.known
  complete := List.Perm.refl _
  foreign name hmem column := by
    have hname : name = [byteOrderMark, 'i', 'd'] := by simpa [Column.all] using hmem
    rw [hname]
    cases column <;> decide
  records := [⟨Run.zero, fun _ => ['0']⟩]

end Sheet

/-- A layout without mark, quotes and empty lines. -/
def Layout.plain : Layout where
  mark := false
  blanks := []
  lines _ := ⟨fun _ => false, .lineFeed, []⟩
  ended := true

/-- The mark in the name is taken for that of the file, and the identifier then seems to come twice. -/
theorem read_marked_ne :
    read (.whole (Sheet.marked.encode .plain)) ≠ .ok ⟨Sheet.marked.runs⟩ := by
  have hfails : (read (.whole (Sheet.marked.encode .plain))).isOk = false := by decide +kernel
  intro h
  rw [h] at hfails
  exact absurd hfails (by decide)

end EvalCharts.Table
