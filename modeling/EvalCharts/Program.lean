/-
Module: EvalCharts.Program
Purpose: The whole program: from an argument list and a file system to charts in a directory, a summary
  on the standard output, and a status.
Main exports: Failure, Failure.report, Ending, makeCharts, execute
-/
import EvalCharts.CommandLine.Help
import EvalCharts.CommandLine.Parse
import EvalCharts.Loading
import EvalCharts.Rendering
import EvalCharts.View.Compute

namespace EvalCharts

/-- Why no charts are made. -/
inductive Failure where
  | check (error : CommandLine.CheckError)
  | loading (failure : LoadFailure)
  | creating (directory : String) (error : FileError)
  | rendering (failure : RenderFailure)
deriving DecidableEq, Repr

namespace Failure

/-- What went wrong, from the outside to the inside. -/
def causes : Failure → List String
  | .check error => [error.message]
  | .loading failure => failure.causes
  | .creating directory error => ["creating output directory " ++ directory, error.message]
  | .rendering failure => failure.causes

/-- The report of a failure: its headline, and below it the causes, numbered if there are several. -/
def report (failure : Failure) : String :=
  match failure.causes with
  | [] => "Error\n"
  | [headline] => "Error: " ++ headline ++ "\n"
  | [headline, cause] => "Error: " ++ headline ++ "\n\nCaused by:\n    " ++ cause ++ "\n"
  | headline :: causes =>
    let lines := causes.zipIdx.map fun (cause, number) =>
      "    " ++ toString number ++ ": " ++ cause ++ "\n"
    "Error: " ++ headline ++ "\n\nCaused by:\n" ++ String.join lines

/-- The status with which the program ends. A view that has no drawing is not foreseen. -/
def status : Failure → UInt32
  | .rendering (.undrawable _) => 101
  | _ => 1

end Failure

/-- How the program ends. -/
structure Ending where
  status : UInt32
  stdout : String
  stderr : String
  /-- The charts that have been written, by their paths. -/
  charts : List (String × Chart)
deriving DecidableEq

/-- Chart an evaluation. The result is the summary of the views and the charts. -/
def makeCharts {m : Type → Type} [Monad m] (disk : Disk m) (config : Config) :
    ExceptT Failure m (List String × List (String × Chart)) := do
  let dataset ← (load disk config.input).adapt .loading
  let views := computeAll config dataset
  (disk.createDirectory config.outputDir).adapt (.creating config.outputDir)
  let charts ← (saveAll disk views config.outputDir).adapt .rendering
  return (summary views, charts)

/-- Run the program with an argument list. -/
def execute {m : Type → Type} [Monad m] (disk : Disk m) (arguments : List String) : m Ending := do
  match CommandLine.parse arguments with
  | .error (.help detailed) => return ⟨0, CommandLine.helpText detailed, "", []⟩
  | .error .version => return ⟨0, CommandLine.versionText, "", []⟩
  | .error (.usage error) => return ⟨2, "", error.message ++ "\n", []⟩
  | .error (.check error) => return failed (.check error)
  | .ok config =>
    match ← (makeCharts disk config).run with
    | .error failure => return failed failure
    | .ok (lines, charts) => return ⟨0, String.join (lines.map fun line => line ++ "\n"), "", charts⟩
where
  /-- The ending after a failure. -/
  failed (failure : Failure) : Ending :=
    ⟨failure.status, "", failure.report, []⟩

end EvalCharts
