/-
Module: EvalCharts.Rendering
Purpose: Drawing views into the files of a directory.
Main exports: chartPath, RenderFailure, drawAll, saveAll
-/
import EvalCharts.Chart.Svg
import EvalCharts.Files.Disk
import EvalCharts.Files.Path

namespace EvalCharts

/-- The path of the chart of a kind. -/
def chartPath (directory : String) (kind : ViewKind) : String :=
  Path.join directory (kind.fileStem ++ ".svg")

/-- Why views cannot be drawn into files. -/
inductive RenderFailure where
  /-- A view has no drawing. -/
  | undrawable (kind : ViewKind)
  | unwritable (kind : ViewKind) (path : String) (error : FileError)
deriving DecidableEq, Repr

/-- What went wrong, from the outside to the inside. -/
def RenderFailure.causes : RenderFailure → List String
  | .undrawable kind => ["the " ++ kind.name ++ " view has no horizontal extent"]
  | .unwritable kind path error =>
    ["rendering " ++ kind.name ++ " view into " ++ path, error.message]

/-- The drawings of all views, if each of them has one. -/
def drawAll (views : List View) : Except RenderFailure (List (ViewKind × Chart)) :=
  views.mapM fun view =>
    match view.draw? with
    | none => .error (.undrawable view.kind)
    | some chart => .ok (view.kind, chart)

/-- Draw all views, and write the drawings into a directory. The result tells where each of them is. -/
def saveAll {m : Type → Type} [Monad m] (disk : Disk m) (views : List View) (directory : String) :
    ExceptT RenderFailure m (List (String × Chart)) := do
  let drawings ← ExceptT.mk (pure (drawAll views))
  drawings.mapM fun (kind, chart) => do
    let path := chartPath directory kind
    (disk.write path chart.svg).adapt fun error => .unwritable kind path error
    return (path, chart)

end EvalCharts
