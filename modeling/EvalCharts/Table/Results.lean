/-
Module: EvalCharts.Table.Results
Purpose: Reading an evaluation from its table. The first row names the columns, every further row is
  a run; columns with other names are ignored, and the first row that cannot be read ends the reading.
Main exports: RowFault, RowError, ReadFailure, ReadFailure.causes, readRow, readRows, read
-/
import EvalCharts.ByteStream
import EvalCharts.Run
import EvalCharts.Double.Decimal
import EvalCharts.Table.Scan
import EvalCharts.Table.Utf8

namespace EvalCharts.Table

/-- What can be wrong with a row. Fields are counted from one. -/
inductive RowFault where
  /-- The row has more or fewer cells than the header. -/
  | unequalLengths (found expected : Nat)
  /-- A cell, of whatever column, is not text. -/
  | invalidUtf8 (field validBytes : Nat)
  /-- The cell of a column is not a number. -/
  | notANumber (field : Nat) (reason : Double.ReadError)
  /-- The header names a column twice. -/
  | duplicate (column : Column)
  /-- The header does not name a column. -/
  | missing (column : Column)
deriving DecidableEq, Repr

/-- A row that cannot be read: its number, counted from the header's zero, the place where the row
    before it ended, and what is wrong with it. -/
structure RowError where
  number : Nat
  start : Position
  fault : RowFault
deriving DecidableEq, Repr

/-- A row is reported by its number and place, in three dialects that depend on the fault. -/
def RowError.message (error : RowError) : String :=
  let number := toString error.number
  let line := toString error.start.line
  let byte := toString error.start.byte
  let decoding (reason : String) :=
    "CSV deserialize error: record " ++ number ++ " (line " ++ line ++ ", byte: " ++ byte ++ "): "
      ++ reason
  match error.fault with
  | .unequalLengths found expected =>
    "CSV error: record " ++ number ++ " (line: " ++ line ++ ", byte: " ++ byte
      ++ "): found record with " ++ toString found ++ " fields, but the previous record has "
      ++ toString expected ++ " fields"
  | .invalidUtf8 field validBytes =>
    "CSV parse error: record " ++ number ++ " (line " ++ line ++ ", field: " ++ toString field
      ++ ", byte: " ++ byte ++ "): invalid utf-8: invalid UTF-8 in field " ++ toString field
      ++ " near byte index " ++ toString validBytes
  | .notANumber field reason => decoding ("field " ++ toString field ++ ": " ++ reason.message)
  | .duplicate column => decoding ("duplicate field `" ++ column.name ++ "`")
  | .missing column => decoding ("missing field `" ++ column.name ++ "`")

/-- Why a table cannot be read. -/
inductive ReadFailure where
  | row (error : RowError)
  /-- Reading the file failed while the run with this number was looked for. -/
  | interrupted (number : Nat) (reason : String)
deriving DecidableEq, Repr

/-- The run that was looked for when reading failed. A header that is not text fails the first run. -/
def ReadFailure.wanted : ReadFailure → Nat
  | .row error => max 1 error.number
  | .interrupted number _ => number

/-- What went wrong, from the outside to the inside. -/
def ReadFailure.causes (failure : ReadFailure) : List String :=
  let reason :=
    match failure with
    | .row error => error.message
    | .interrupted _ reason => reason
  ["decoding record #" ++ toString failure.wanted, reason]

/-- Decode cells that are numbered from `field` on. -/
def readCells : Nat → List (List UInt8) → Except RowFault (List (List Char))
  | _, [] => .ok []
  | field, cell :: cells =>
    match Utf8.decode cell with
    | .error validBytes => .error (.invalidUtf8 field validBytes)
    | .ok text => (readCells (field + 1) cells).map fun texts => text :: texts

/-- The values of a row so far, as pairs of a column and its value. -/
abbrev Values := List (Column × Float)

/-- Collect the values of the columns that the header names, from left to right. A column that is
    named again is an error before its second cell is looked at. -/
def readValues : Nat → List (Option Column × List Char) → Values → Except RowFault Values
  | _, [], values => .ok values
  | field, (none, _) :: cells, values => readValues (field + 1) cells values
  | field, (some column, text) :: cells, values =>
    if (values.lookup column).isSome then .error (.duplicate column)
    else
      match Double.read text with
      | .error reason => .error (.notANumber field reason)
      | .ok value => readValues (field + 1) cells ((column, value) :: values)

/-- The run that has the given values, if they cover every column. -/
def runOf (values : Values) : Except RowFault Run :=
  match Column.all.find? fun column => (values.lookup column).isNone with
  | some column => .error (.missing column)
  | none => .ok ⟨fun column => (values.lookup column).getD 0.0⟩

/-- The columns that a header names, where it names any. -/
abbrev Header := List (Option Column)

/-- Read the header. -/
def readHeader (cells : List (List UInt8)) : Except RowFault Header :=
  (readCells 1 cells).map fun names => names.map fun name => Column.ofName? (String.ofList name)

/-- Read a row below a header. Its length is checked first, then that all cells are text, then the
    values, and last that no column is missing. -/
def readRow (header : Header) (cells : List (List UInt8)) : Except RowFault Run :=
  if cells.length ≠ header.length then .error (.unequalLengths cells.length header.length)
  else do
    let texts ← readCells 1 cells
    let values ← readValues 1 (header.zip texts) []
    runOf values

/-- Say which row a fault belongs to. -/
def located {α : Type} (number : Nat) (row : Row) (result : Except RowFault α) :
    Except ReadFailure α :=
  result.mapError fun fault => .row ⟨number, row.start, fault⟩

/-- Read the rows below a header, which are numbered from one. -/
def readRows (header : Header) (rows : List Row) : Except ReadFailure (List Run) :=
  (rows.zipIdx 1).mapM fun (row, number) => located number row (readRow header row.cells)

/-- Read all rows of a table. A table without a header is empty. -/
def readTable : List Row → Except ReadFailure (List Run)
  | [] => .ok []
  | first :: rows => do
    let header ← located 0 first (readHeader first.cells)
    readRows header rows

/-- Read an evaluation. Where the file breaks off, the rows before the break are read first, and one of
    them that cannot be read outweighs the break. -/
def read (stream : ByteStream) : Except ReadFailure Dataset :=
  let scan := scan stream.bytes
  match stream.failure? with
  | none => (readTable scan.rows).map Dataset.mk
  | some reason => do
    let runs ← readTable scan.finishedRows
    .error (.interrupted (runs.length + 1) reason)

end EvalCharts.Table
