/-
Module: EvalCharts.Proofs.Table.Layout
Purpose: Writing a table in any of the layouts that reading admits, and why the rows are found again:
  which cells are quoted, how lines end, where empty lines stand, and whether the last line is ended.
Main exports: cellText, rowText, LineEnd, LineLayout, tableText, Scanned, Scanned.cellText, Scanned.row,
  Scanned.breakRow, Scanned.tableText
-/
import EvalCharts.Table.Scan
import EvalCharts.Proofs.Table.Utf8

namespace EvalCharts.Table

/-! ### Layouts -/

/-- A character that only stands inside quotes. -/
def needsQuotes (c : Char) : Bool :=
  c = ';' || c = '"' || c = '\n' || c = '\r'

/-- The text between quotes, with each quote doubled. -/
def doubled (text : List Char) : List Char :=
  text.flatMap fun c => if c = '"' then ['"', '"'] else [c]

/-- A cell, which is quoted where that is asked for or where its text requires it. -/
def cellText (quoted : Bool) (text : List Char) : List Char :=
  if quoted || text.any needsQuotes then '"' :: doubled text ++ ['"'] else text

/-- The cells of a row with separators between them. -/
def rowText (quoted : Nat → Bool) : List (List Char) → List Char
  | [] => []
  | [text] => cellText (quoted 0) text
  | text :: texts => cellText (quoted 0) text ++ ';' :: rowText (fun place => quoted (place + 1)) texts

inductive LineEnd where
  | lineFeed
  | carriageReturn
  | both
deriving DecidableEq, Repr

def LineEnd.text : LineEnd → List Char
  | .lineFeed => ['\n']
  | .carriageReturn => ['\r']
  | .both => ['\r', '\n']

/-- Line ends in a row: behind the first of them all lines are empty. -/
def breakText (ends : List LineEnd) : List Char :=
  ends.flatMap LineEnd.text

/-- How a line is written: which of its cells are quoted, how it ends, and the empty lines behind it. -/
structure LineLayout where
  quoted : Nat → Bool
  lineEnd : LineEnd
  blanks : List LineEnd

/-- The lines of a table. Whether the last one is ended is up to the layout, the others always are. -/
def tableText (ended : Bool) (layout : Nat → LineLayout) : List (List (List Char)) → List Char
  | [] => []
  | [texts] =>
    rowText (layout 0).quoted texts ++
      if ended then breakText ((layout 0).lineEnd :: (layout 0).blanks) else []
  | texts :: rows =>
    rowText (layout 0).quoted texts ++ breakText ((layout 0).lineEnd :: (layout 0).blanks) ++
      tableText ended (fun line => layout (line + 1)) rows

theorem rowText_cons_cons (quoted : Nat → Bool) (first second : List Char)
    (texts : List (List Char)) :
    rowText quoted (first :: second :: texts) =
      cellText (quoted 0) first ++ ';' :: rowText (fun place => quoted (place + 1)) (second :: texts) :=
  rfl

/-- What follows the first line of a table does not depend on that line. -/
theorem tableText_cons (ended : Bool) (layout : Nat → LineLayout) (rows : List (List (List Char))) :
    ∃ rest, ∀ texts,
      tableText ended layout (texts :: rows) = rowText (layout 0).quoted texts ++ rest := by
  cases rows with
  | nil => exact ⟨_, fun _ => rfl⟩
  | cons row rows =>
      refine ⟨breakText ((layout 0).lineEnd :: (layout 0).blanks) ++
        tableText ended (fun line => layout (line + 1)) (row :: rows), fun texts => ?_⟩
      rw [← List.append_assoc]
      rfl

/-! ### Bytes with a meaning -/

/-- A byte that stands for an ASCII character is found in no other character. -/
theorem ne_of_mem_utf8EncodeChar {c d : Char} (hne : c ≠ d) (hd : d.val.toNat ≤ 0x7f) {byte : UInt8}
    (hmem : byte ∈ String.utf8EncodeChar c) : byte ≠ UInt8.ofNat d.val.toNat := by
  intro heq
  have hbyte := Utf8.toNat_ofNat (n := d.val.toNat) (by omega)
  by_cases hc : c.val.toNat ≤ 0x7f
  · rw [Utf8.utf8EncodeChar_ascii hc, List.mem_singleton] at hmem
    have hnat := congrArg UInt8.toNat (hmem.symm.trans heq)
    rw [hbyte, Utf8.toNat_ofNat (by omega)] at hnat
    exact hne (Char.ext (UInt32.toNat_inj.1 hnat))
  · have hle := Utf8.le_of_mem_utf8EncodeChar hc hmem
    rw [heq, hbyte] at hle
    omega

/-- A byte that is neither a separator nor a quote nor ends a row. -/
structure Ordinary (byte : UInt8) : Prop where
  separator : byte ≠ separator
  quote : byte ≠ quote
  endsRow : endsRow byte = false

theorem ordinary_of_mem {c : Char} (h : needsQuotes c = false) {byte : UInt8}
    (hmem : byte ∈ String.utf8EncodeChar c) : Ordinary byte := by
  simp only [needsQuotes, Bool.or_eq_false_iff, decide_eq_false_iff_not] at h
  obtain ⟨⟨⟨hseparator, hquote⟩, hlineFeed⟩, hcarriageReturn⟩ := h
  constructor
  · exact ne_of_mem_utf8EncodeChar hseparator (by decide) hmem
  · exact ne_of_mem_utf8EncodeChar hquote (by decide) hmem
  · unfold endsRow
    rw [Bool.or_eq_false_iff, decide_eq_false_iff_not, decide_eq_false_iff_not]
    exact ⟨ne_of_mem_utf8EncodeChar hlineFeed (by decide) hmem,
      ne_of_mem_utf8EncodeChar hcarriageReturn (by decide) hmem⟩

theorem ordinary_of_mem_encode {text : List Char} (h : text.any needsQuotes = false) {byte : UInt8}
    (hmem : byte ∈ Utf8.encode text) : Ordinary byte := by
  obtain ⟨c, hc, hbyte⟩ := List.mem_flatMap.1 hmem
  rw [List.any_eq_false] at h
  exact ordinary_of_mem (Bool.eq_false_iff.2 (h c hc)) hbyte

theorem Ordinary.unquoted {byte : UInt8} (h : Ordinary byte) : Action.unquoted byte = .keep .plain := by
  unfold Action.unquoted
  rw [if_neg h.separator, h.endsRow]
  rfl

/-! ### Progress of a scan -/

/-- What a scan has found, apart from the places in the file. -/
structure Scanned (scan : Scan) (mode : Mode) (cell : List UInt8) (cells : List (List UInt8))
    (rows : List (List (List UInt8))) : Prop where
  mode : scan.mode = mode
  cell : scan.cell = cell
  cells : scan.cells = cells
  rows : scan.finished.map Row.cells = rows

/-- The bytes of a text, read one by one. -/
def Scan.reads (scan : Scan) (text : List Char) : Scan :=
  (Utf8.encode text).foldl Scan.step scan

theorem Scan.reads_append (scan : Scan) (text text' : List Char) :
    scan.reads (text ++ text') = (scan.reads text).reads text' := by
  unfold Scan.reads
  rw [Utf8.encode_append, List.foldl_append]

theorem Scan.reads_cons (scan : Scan) (c : Char) (text : List Char) :
    scan.reads (c :: text) = (scan.reads [c]).reads text :=
  scan.reads_append [c] text

namespace Scanned

variable {scan : Scan} {mode next : Mode} {cell : List UInt8} {cells : List (List UInt8)}
  {rows : List (List (List UInt8))} {byte : UInt8}

theorem skip (h : Scanned scan mode cell cells rows) (hact : mode.act byte = .skip) :
    Scanned (scan.step byte) mode cell cells rows := by
  unfold Scan.step
  simp only [h.mode, hact]
  exact ⟨rfl, h.cell, h.cells, h.rows⟩

theorem keep (h : Scanned scan mode cell cells rows) (hact : mode.act byte = .keep next) :
    Scanned (scan.step byte) next (byte :: cell) cells rows := by
  unfold Scan.step
  simp only [h.mode, hact]
  exact ⟨rfl, congrArg (byte :: ·) h.cell, h.cells, h.rows⟩

theorem drop (h : Scanned scan mode cell cells rows) (hact : mode.act byte = .drop next) :
    Scanned (scan.step byte) next cell cells rows := by
  unfold Scan.step
  simp only [h.mode, hact]
  exact ⟨rfl, h.cell, h.cells, h.rows⟩

theorem endCell (h : Scanned scan mode cell cells rows) (hact : mode.act byte = .endCell) :
    Scanned (scan.step byte) .cellStart [] (cell.reverse :: cells) rows := by
  unfold Scan.step
  simp only [h.mode, hact]
  refine ⟨rfl, rfl, ?_, h.rows⟩
  dsimp only
  rw [h.cell, h.cells]

theorem endRow (h : Scanned scan mode cell cells rows) (hact : mode.act byte = .endRow) :
    Scanned (scan.step byte) .betweenRows [] [] ((cell.reverse :: cells).reverse :: rows) := by
  unfold Scan.step
  simp only [h.mode, hact]
  refine ⟨rfl, rfl, rfl, ?_⟩
  rw [List.map_cons, h.rows, Scan.currentCells, h.cell, h.cells]

/-- A mode that keeps all of some bytes keeps them in their order. -/
theorem keepAll (h : Scanned scan mode cell cells rows) {bytes : List UInt8}
    (hact : ∀ byte ∈ bytes, mode.act byte = .keep mode) :
    Scanned (bytes.foldl Scan.step scan) mode (bytes.reverse ++ cell) cells rows := by
  induction bytes generalizing scan cell with
  | nil => exact h
  | cons byte bytes ih =>
      have hnext := ih (h.keep (hact byte List.mem_cons_self))
        fun byte hmem => hact byte (List.mem_cons_of_mem _ hmem)
      rw [List.foldl_cons, List.reverse_cons, List.append_assoc]
      exact hnext

/-! ### Cells -/

/-- A character inside quotes comes out once. -/
theorem doubledChar (h : Scanned scan .quoted cell cells rows) (c : Char) :
    Scanned (scan.reads (if c = '"' then ['"', '"'] else [c])) .quoted
      ((String.utf8EncodeChar c).reverse ++ cell) cells rows := by
  by_cases hc : c = '"'
  · rw [if_pos hc, hc]
    exact (h.drop rfl).keep rfl
  · rw [if_neg hc]
    unfold Scan.reads Utf8.encode
    rw [List.flatMap_cons, List.flatMap_nil, List.append_nil]
    apply h.keepAll
    intro byte hmem
    have hne : byte ≠ quote := ne_of_mem_utf8EncodeChar hc (by decide) hmem
    exact if_neg hne

theorem doubled (h : Scanned scan .quoted cell cells rows) (text : List Char) :
    Scanned (scan.reads (Table.doubled text)) .quoted ((Utf8.encode text).reverse ++ cell) cells
      rows := by
  induction text generalizing scan cell with
  | nil => exact h
  | cons c text ih =>
      have hnext := ih (h.doubledChar c)
      unfold Table.doubled
      rw [List.flatMap_cons, Scan.reads_append, Utf8.encode_cons, List.reverse_append,
        List.append_assoc]
      exact hnext

/-- A place where a cell can start. -/
def Starts (mode : Mode) : Prop :=
  mode = .betweenRows ∨ mode = .cellStart

/-- A place where a row can end. -/
def Ends (mode : Mode) : Prop :=
  mode = .cellStart ∨ mode = .plain ∨ mode = .afterQuote

/-- A cell is read back from any of its forms. -/
theorem cellText (h : Scanned scan mode [] cells rows) (hstart : Starts mode) (quoted : Bool)
    (text : List Char) :
    ∃ mode', (mode' = mode ∨ Ends mode') ∧
      Scanned (scan.reads (Table.cellText quoted text)) mode' (Utf8.encode text).reverse cells rows := by
  unfold Table.cellText
  by_cases hquoted : (quoted || text.any needsQuotes) = true
  · rw [if_pos hquoted]
    have hopen : mode.act quote = .drop .quoted := by
      rcases hstart with rfl | rfl <;> rfl
    have hcontent := (h.drop hopen).doubled text
    refine ⟨.afterQuote, Or.inr (Or.inr (Or.inr rfl)), ?_⟩
    rw [List.append_nil] at hcontent
    rw [List.cons_append, Scan.reads_cons, Scan.reads_append]
    exact hcontent.drop rfl
  · rw [if_neg hquoted]
    have hany : text.any needsQuotes = false := by
      cases htext : text.any needsQuotes with
      | false => rfl
      | true => exact absurd (by rw [htext, Bool.or_true]) hquoted
    unfold Scan.reads
    have hordinary : ∀ byte ∈ Utf8.encode text, Ordinary byte :=
      fun _ hmem => ordinary_of_mem_encode hany hmem
    cases hbytes : Utf8.encode text with
    | nil => exact ⟨mode, Or.inl rfl, h⟩
    | cons byte bytes =>
        rw [hbytes] at hordinary
        have hbyte := hordinary byte List.mem_cons_self
        have hfirst : mode.act byte = .keep .plain := by
          rcases hstart with rfl | rfl
          · unfold Mode.act
            rw [hbyte.endsRow, if_neg Bool.false_ne_true, if_neg hbyte.quote, hbyte.unquoted]
          · unfold Mode.act
            rw [if_neg hbyte.quote, hbyte.unquoted]
        have hact : ∀ byte ∈ bytes, Mode.plain.act byte = .keep .plain :=
          fun byte hmem => (hordinary byte (List.mem_cons_of_mem _ hmem)).unquoted
        have hrest := (h.keep hfirst).keepAll hact
        refine ⟨.plain, Or.inr (Or.inr (Or.inl rfl)), ?_⟩
        rw [List.reverse_cons]
        exact hrest

/-! ### Rows -/

theorem separate (h : Scanned scan mode cell cells rows) (hmode : Starts mode ∨ Ends mode) :
    Scanned (scan.reads [';']) .cellStart [] (cell.reverse :: cells) rows := by
  have hact : mode.act separator = .endCell := by
    rcases hmode with (rfl | rfl) | (rfl | rfl | rfl) <;> rfl
  exact h.endCell hact

theorem starts_or_ends {mode' : Mode} (hstart : Starts mode) (h : mode' = mode ∨ Ends mode') :
    Starts mode' ∨ Ends mode' := by
  rcases h with rfl | h
  · exact Or.inl hstart
  · exact Or.inr h

/-- The remaining cells of a row join those before them. -/
theorem rowText (h : Scanned scan .cellStart [] cells rows) (quoted : Nat → Bool)
    {texts : List (List Char)} (hne : texts ≠ []) :
    ∃ mode' cell' cells', Ends mode' ∧
      Scanned (scan.reads (Table.rowText quoted texts)) mode' cell' cells' rows ∧
      (cell'.reverse :: cells').reverse = cells.reverse ++ texts.map Utf8.encode := by
  induction texts generalizing scan cells quoted with
  | nil => exact absurd rfl hne
  | cons text texts ih =>
      obtain ⟨mode', hmode, hcell⟩ := h.cellText (Or.inr rfl) (quoted 0) text
      cases texts with
      | nil =>
          refine ⟨mode', _, cells, ?_, hcell, ?_⟩
          · rcases hmode with rfl | hends
            · exact Or.inl rfl
            · exact hends
          · simp
      | cons text' texts =>
          have hnext := hcell.separate (starts_or_ends (Or.inr rfl) hmode)
          obtain ⟨mode'', cell', cells', hends, hrow, heq⟩ :=
            ih hnext (fun place => quoted (place + 1)) (List.cons_ne_nil _ _)
          refine ⟨mode'', cell', cells', hends, ?_, ?_⟩
          · rw [Table.rowText, Scan.reads_append, Scan.reads_cons]
            · exact hrow
            · exact List.cons_ne_nil _ _
          · rw [heq]
            simp

/-- A row of several cells is read from its beginning. -/
theorem row (h : Scanned scan .betweenRows [] [] rows) (quoted : Nat → Bool)
    {texts : List (List Char)} (hlength : 2 ≤ texts.length) :
    ∃ mode' cell' cells', Ends mode' ∧
      Scanned (scan.reads (Table.rowText quoted texts)) mode' cell' cells' rows ∧
      (cell'.reverse :: cells').reverse = texts.map Utf8.encode := by
  cases texts with
  | nil => simp at hlength
  | cons text texts =>
      have hne : texts ≠ [] := by
        rintro rfl
        simp at hlength
      obtain ⟨mode', hmode, hcell⟩ := h.cellText (Or.inl rfl) (quoted 0) text
      have hnext := hcell.separate (starts_or_ends (Or.inl rfl) hmode)
      obtain ⟨mode'', cell', cells', hends, hrow, heq⟩ :=
        hnext.rowText (fun place => quoted (place + 1)) hne
      refine ⟨mode'', cell', cells', hends, ?_, ?_⟩
      · rw [Table.rowText, Scan.reads_append, Scan.reads_cons]
        · exact hrow
        · exact hne
      · rw [heq]
        simp

/-! ### Line ends -/

theorem skipAll (h : Scanned scan .betweenRows [] [] rows) {bytes : List UInt8}
    (hbytes : ∀ byte ∈ bytes, endsRow byte = true) :
    Scanned (bytes.foldl Scan.step scan) .betweenRows [] [] rows := by
  induction bytes generalizing scan with
  | nil => exact h
  | cons byte bytes ih =>
      have hact : Mode.betweenRows.act byte = .skip := if_pos (hbytes byte List.mem_cons_self)
      exact ih (h.skip hact) fun byte hmem => hbytes byte (List.mem_cons_of_mem _ hmem)

theorem endsRow_of_mem_breakText {ends : List LineEnd} {byte : UInt8}
    (hmem : byte ∈ Utf8.encode (breakText ends)) : endsRow byte = true := by
  obtain ⟨c, hc, hbyte⟩ := List.mem_flatMap.1 hmem
  obtain ⟨lineEnd, -, hchar⟩ := List.mem_flatMap.1 hc
  have hcases : c = '\n' ∨ c = '\r' := by
    cases lineEnd <;> simp [LineEnd.text] at hchar
    · exact Or.inl hchar
    · exact Or.inr hchar
    · exact hchar.symm
  rcases hcases with rfl | rfl
  · rw [List.mem_singleton.1 hbyte]
    rfl
  · rw [List.mem_singleton.1 hbyte]
    rfl

/-- Empty lines between rows leave no trace. -/
theorem blankLines (h : Scanned scan .betweenRows [] [] rows) (ends : List LineEnd) :
    Scanned (scan.reads (breakText ends)) .betweenRows [] [] rows :=
  h.skipAll fun _ hmem => endsRow_of_mem_breakText hmem

/-- Line ends behind a row finish it. -/
theorem breakRow (h : Scanned scan mode cell cells rows) (hends : Ends mode) (lineEnd : LineEnd)
    (blanks : List LineEnd) :
    Scanned (scan.reads (breakText (lineEnd :: blanks))) .betweenRows [] []
      ((cell.reverse :: cells).reverse :: rows) := by
  have hbytes : ∀ byte ∈ Utf8.encode (breakText (lineEnd :: blanks)), endsRow byte = true :=
    fun _ hmem => endsRow_of_mem_breakText hmem
  have hnonempty : Utf8.encode (breakText (lineEnd :: blanks)) ≠ [] := by
    cases lineEnd <;> exact List.cons_ne_nil _ _
  unfold Scan.reads
  cases hencode : Utf8.encode (breakText (lineEnd :: blanks)) with
  | nil => exact absurd hencode hnonempty
  | cons byte bytes =>
      rw [hencode] at hbytes
      have hbyte := hbytes byte List.mem_cons_self
      have hcases : byte = lineFeed ∨ byte = carriageReturn := by
        unfold endsRow at hbyte
        simpa using hbyte
      have hact : mode.act byte = .endRow := by
        rcases hcases with rfl | rfl <;> rcases hends with rfl | rfl | rfl <;> rfl
      exact (h.endRow hact).skipAll fun byte hmem => hbytes byte (List.mem_cons_of_mem _ hmem)

/-! ### Tables -/

theorem rows_of_betweenRows (h : Scanned scan .betweenRows cell cells rows) :
    scan.rows.map Row.cells = rows.reverse := by
  unfold Scan.rows Scan.finishedRows
  rw [if_pos h.mode, List.map_reverse, h.rows]

theorem rows_of_ends (h : Scanned scan mode cell cells rows) (hends : Ends mode) :
    scan.rows.map Row.cells = rows.reverse ++ [(cell.reverse :: cells).reverse] := by
  have hmode : scan.mode ≠ .betweenRows := by
    rw [h.mode]
    rcases hends with rfl | rfl | rfl <;> decide
  unfold Scan.rows
  rw [if_neg hmode, List.map_reverse, List.map_cons, h.rows, List.reverse_cons, Scan.currentCells,
    h.cell, h.cells]

/-- The rows of a table are found again in any layout. -/
theorem tableText (h : Scanned scan .betweenRows [] [] rows) (ended : Bool)
    (layout : Nat → LineLayout) {lines : List (List (List Char))}
    (hlength : ∀ texts ∈ lines, 2 ≤ texts.length) :
    (scan.reads (Table.tableText ended layout lines)).rows.map Row.cells =
      rows.reverse ++ lines.map (List.map Utf8.encode) := by
  induction lines generalizing scan rows layout with
  | nil =>
      rw [List.map_nil, List.append_nil]
      exact h.rows_of_betweenRows
  | cons texts lines ih =>
      obtain ⟨mode', cell', cells', hends, hrow, heq⟩ :=
        h.row (layout 0).quoted (hlength texts List.mem_cons_self)
      have hbreak := hrow.breakRow hends (layout 0).lineEnd (layout 0).blanks
      rw [heq] at hbreak
      cases lines with
      | nil =>
          rw [Table.tableText, Scan.reads_append]
          cases ended with
          | true =>
              rw [if_pos rfl, hbreak.rows_of_betweenRows]
              simp
          | false =>
              rw [if_neg Bool.false_ne_true]
              refine (hrow.rows_of_ends hends).trans ?_
              rw [heq]
              rfl
      | cons texts' lines =>
          have hnext := ih hbreak (fun line => layout (line + 1))
            fun texts hmem => hlength texts (List.mem_cons_of_mem _ hmem)
          rw [Table.tableText, Scan.reads_append, Scan.reads_append, hnext]
          · simp
          · exact List.cons_ne_nil _ _

end Scanned

end EvalCharts.Table
