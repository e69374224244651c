/-
Module: EvalCharts.Table.Scan
Purpose: Cutting the bytes of a table into rows of cells. Cells are separated by semicolons and rows
  end with a line feed or a carriage return; a cell that opens with a quote may hold both, and a quote
  inside it is written twice.
Main exports: Position, Row, Mode, Mode.act, Scan, Scan.step, Scan.rows, rows
-/

namespace EvalCharts.Table

/-- A place in a file: the number of line feeds before it plus one, and the number of bytes before
    it. -/
structure Position where
  line : Nat
  byte : Nat
deriving DecidableEq, Repr

def separator : UInt8 := 0x3B
def quote : UInt8 := 0x22
def lineFeed : UInt8 := 0x0A
def carriageReturn : UInt8 := 0x0D

/-- The beginning of a file. -/
def Position.origin : Position := ⟨1, 0⟩

/-- The place behind one more byte. -/
def Position.past (position : Position) (byte : UInt8) : Position :=
  ⟨if byte = lineFeed then position.line + 1 else position.line, position.byte + 1⟩

/-- A row: its cells, and the place where the row before it ended. -/
structure Row where
  start : Position
  cells : List (List UInt8)
deriving DecidableEq, Repr

/-- Either byte that ends a row. -/
def endsRow (byte : UInt8) : Bool :=
  byte = lineFeed || byte = carriageReturn

/-- Where in a row the next byte stands. -/
inductive Mode where
  /-- Before the first byte of a row. -/
  | betweenRows
  /-- Before the first byte of a cell. -/
  | cellStart
  /-- In a cell that is not quoted, or behind the closing quote of one that was. -/
  | plain
  /-- Between quotes. -/
  | quoted
  /-- Behind a quote that either closes the cell's quotes or stands for a quote in them. -/
  | afterQuote
deriving DecidableEq, Repr

/-- What a byte means. -/
inductive Action where
  /-- It belongs to an empty line. -/
  | skip
  /-- It is content of the cell. -/
  | keep (next : Mode)
  /-- It is a quote around content. -/
  | drop (next : Mode)
  | endCell
  | endRow
deriving DecidableEq, Repr

/-- A byte outside quotes. -/
def Action.unquoted (byte : UInt8) : Action :=
  if byte = separator then .endCell else if endsRow byte then .endRow else .keep .plain

/-- The meaning of a byte where it stands. A quote opens a quoted part only as the first byte of a
    cell. -/
def Mode.act (mode : Mode) (byte : UInt8) : Action :=
  match mode with
  | .betweenRows =>
    if endsRow byte then .skip else if byte = quote then .drop .quoted else .unquoted byte
  | .cellStart => if byte = quote then .drop .quoted else .unquoted byte
  | .plain => .unquoted byte
  | .quoted => if byte = quote then .drop .afterQuote else .keep .quoted
  | .afterQuote => if byte = quote then .keep .quoted else .unquoted byte

/-- A table read up to some place. The lists grow at their front. -/
structure Scan where
  mode : Mode
  position : Position
  /-- Where the row before the current one ended. -/
  start : Position
  /-- Content of the current cell. -/
  cell : List UInt8
  /-- Finished cells of the current row. -/
  cells : List (List UInt8)
  /-- Finished rows. -/
  finished : List Row
deriving DecidableEq, Repr

namespace Scan

/-- Nothing read yet. -/
def begin (position : Position) : Scan := ⟨.betweenRows, position, .origin, [], [], []⟩

/-- The cells of the current row, the last one as far as it has been read. -/
def currentCells (scan : Scan) : List (List UInt8) :=
  (scan.cell.reverse :: scan.cells).reverse

/-- Read one more byte. -/
def step (scan : Scan) (byte : UInt8) : Scan :=
  let position := scan.position.past byte
  match scan.mode.act byte with
  | .skip => { scan with position := position }
  | .keep next => { scan with mode := next, position := position, cell := byte :: scan.cell }
  | .drop next => { scan with mode := next, position := position }
  | .endCell =>
    { scan with
      mode := .cellStart, position := position, cell := [], cells := scan.cell.reverse :: scan.cells }
  | .endRow =>
    { mode := .betweenRows, position := position, start := position, cell := [], cells := []
      finished := ⟨scan.start, scan.currentCells⟩ :: scan.finished }

/-- The rows whose end has been read. -/
def finishedRows (scan : Scan) : List Row :=
  scan.finished.reverse

/-- All rows, if the file ends here: a row needs no terminator, and quotes need not be closed. -/
def rows (scan : Scan) : List Row :=
  if scan.mode = .betweenRows then scan.finishedRows
  else (⟨scan.start, scan.currentCells⟩ :: scan.finished).reverse

end Scan

/-- Read a file. A byte order mark in front of it counts as bytes and is not part of the table. -/
def scan (bytes : List UInt8) : Scan :=
  match bytes with
  | 0xEF :: 0xBB :: 0xBF :: content => content.foldl Scan.step (Scan.begin ⟨1, 3⟩)
  | content => content.foldl Scan.step (Scan.begin .origin)

end EvalCharts.Table
