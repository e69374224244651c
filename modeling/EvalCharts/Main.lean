/-
Module: EvalCharts.Main
Purpose: The program on the file system and the standard streams of its process.
Main exports: main
-/
import EvalCharts.Program

namespace EvalCharts

/-- A refusal of the system. -/
def FileError.ofSystem : IO.Error → FileError
  | .noFileOrDirectory _ _ _ => .notFound
  | .alreadyExists _ _ _ => .alreadyExists
  | .inappropriateType _ 20 _ => .notADirectory
  | .inappropriateType _ 21 _ => .isADirectory
  | error => .other (toString error)

/-- Perform an action of the system. -/
def attempt {α : Type} (action : IO α) : ExceptT FileError IO α :=
  ExceptT.mk do
    try
      return .ok (← action)
    catch error =>
      return .error (.ofSystem error)

/-- The file system of the process. -/
def systemDisk : Disk IO where
  read path := do
    let handle ← attempt (IO.FS.Handle.mk path .read)
    ExceptT.mk do
      match ← (attempt handle.readBinToEnd).run with
      | .ok content => return .ok (.whole content.toList)
      | .error error => return .ok (.broken [] error.message)
  createDirectory path := attempt (IO.FS.createDirAll path)
  write path content := attempt (IO.FS.writeFile path content)

end EvalCharts

/-- Run the program in its process. -/
def main (arguments : List String) : IO UInt32 := do
  let ending ← EvalCharts.execute EvalCharts.systemDisk arguments
  IO.print ending.stdout
  IO.eprint ending.stderr
  return ending.status
