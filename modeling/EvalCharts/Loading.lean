/-
Module: EvalCharts.Loading
Purpose: Loading an evaluation from a results file, which may be compressed.
Main exports: isCompressed, contentOf, LoadFailure, decodeResults, load, trackBlocks
-/
import EvalCharts.Files.Disk
import EvalCharts.Files.Path
import EvalCharts.Gzip.Member
import EvalCharts.Progress
import EvalCharts.Table.Results

namespace EvalCharts

/-- Whether the name of a file says that it is compressed. -/
def isCompressed (path : String) : Bool :=
  Path.extension? path == some "gz"

/-- The table in a file. -/
def contentOf (path : String) (file : ByteStream) : ByteStream :=
  if isCompressed path then Gzip.decompress file else file

/-- Why an evaluation cannot be loaded. -/
inductive LoadFailure where
  | opening (path : String) (error : FileError)
  | reading (path : String) (failure : Table.ReadFailure)
deriving DecidableEq, Repr

/-- What went wrong, from the outside to the inside. -/
def LoadFailure.causes : LoadFailure → List String
  | .opening path error => ["opening results file " ++ path, error.message]
  | .reading path failure => ("reading results from " ++ path) :: failure.causes

/-- The evaluation in a file that has been opened, or not. -/
def decodeResults (path : String) (file : Except FileError ByteStream) : Except LoadFailure Dataset :=
  match file with
  | .error error => .error (.opening path error)
  | .ok file => (Table.read (contentOf path file)).mapError (.reading path)

/-- Load an evaluation. -/
def load {m : Type → Type} [Monad m] (disk : Disk m) (path : String) :
    ExceptT LoadFailure m Dataset :=
  ExceptT.mk do return decodeResults path (← (disk.read path).run)

/-- What the tracker of a file with an announced size shows while the file is read block by block. -/
def trackBlocks (size : UInt64) (blocks : List (List UInt8)) : List Verdict :=
  (Tracker.start (.bytes size)).recordAll (blocks.map fun block => UInt64.ofNat block.length)

end EvalCharts
