/-
Module: EvalCharts.View.Basic
Purpose: Views, which are charts before they are drawn: named series of points under a kind.
Main exports: Series, View, View.isEmpty, summary
-/
import EvalCharts.View.Kind
import EvalCharts.Double.Shortest

namespace EvalCharts

/-- A named sequence of points. -/
structure Series where
  label : String
  points : List (Float × Float)
deriving DecidableEq

/-- What one chart shows. -/
structure View where
  kind : ViewKind
  series : List Series
deriving DecidableEq

/-- Whether no series has a point. -/
def View.isEmpty (view : View) : Bool :=
  view.series.all fun series => series.points.isEmpty

/-- The line of the summary that reports a point: file stem, series label and both coordinates,
    separated by tabs. -/
def summaryLine (kind : ViewKind) (label : String) (point : Float × Float) : String :=
  kind.fileStem ++ "\t" ++ label ++ "\t" ++ Double.text point.1 ++ "\t" ++ Double.text point.2

/-- One line for every point of every series of every view, in this order. -/
def summary (views : List View) : List String :=
  views.flatMap fun view =>
    view.series.flatMap fun series =>
      series.points.map (summaryLine view.kind series.label)

end EvalCharts
