/-
Module: EvalCharts.Files.Error
Purpose: Why a file system refuses to read or to create something.
Main exports: FileError, FileError.message
-/

namespace EvalCharts

/-- Why a file system refuses. -/
inductive FileError where
  | notFound
  | alreadyExists
  | notADirectory
  | isADirectory
  /-- A refusal for some other reason. -/
  | other (description : String)
deriving DecidableEq, Repr

/-- The sentence that reports a refusal, with the number that the system gives to its reason. -/
def FileError.message : FileError → String
  | .notFound => "No such file or directory (os error 2)"
  | .alreadyExists => "File exists (os error 17)"
  | .notADirectory => "Not a directory (os error 20)"
  | .isADirectory => "Is a directory (os error 21)"
  | .other description => description

end EvalCharts
