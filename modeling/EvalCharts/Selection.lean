/-
Module: EvalCharts.Selection
Purpose: Choosing the runs of interest. A filter is a list of conditions that must all hold, each of
  them on a single column of a single run.
Main exports: Predicate, Predicate.accepts, Predicate.text, Filter, Filter.require, Filter.release,
  Filter.accepts, Filter.select, Filter.text
-/
import EvalCharts.Run
import EvalCharts.Double.Shortest
import EvalCharts.Double.Whole

namespace EvalCharts

/-- A condition on one column of a run. -/
inductive Predicate where
  /-- The column is numerically equal to a constant. -/
  | equals (column : Column) (value : Float)
  /-- The column is at most a bound. -/
  | atMost (column : Column) (bound : Float)
  /-- The column is above zero. -/
  | positive (column : Column)
  /-- The column holds an even whole number. -/
  | even (column : Column)
deriving DecidableEq

namespace Predicate

/-- The column that a condition looks at. -/
def column : Predicate → Column
  | .equals column _ => column
  | .atMost column _ => column
  | .positive column => column
  | .even column => column

/-- Whether a run meets a condition. No comparison holds of a NaN. -/
def accepts (run : Run) : Predicate → Bool
  | .equals column value => run.get column == value
  | .atMost column bound => run.get column ≤ bound
  | .positive column => 0.0 < run.get column
  | .even column => Double.isEven (run.get column)

/-- A condition in words of the header. -/
def text : Predicate → String
  | .equals column value => column.name ++ " == " ++ Double.text value
  | .atMost column bound => column.name ++ " <= " ++ Double.text bound
  | .positive column => column.name ++ " > 0"
  | .even column => column.name ++ " % 2 == 0"

end Predicate

/-- Conditions that must all hold. -/
structure Filter where
  predicates : List Predicate
deriving DecidableEq

namespace Filter

/-- The filter that keeps every run. -/
def everything : Filter := ⟨[]⟩

/-- Add a condition behind the others. -/
def require (filter : Filter) (predicate : Predicate) : Filter :=
  ⟨filter.predicates ++ [predicate]⟩

/-- Drop every condition on a column. -/
def release (filter : Filter) (column : Column) : Filter :=
  ⟨filter.predicates.filter fun predicate => predicate.column ≠ column⟩

/-- Whether a run meets all conditions. -/
def accepts (filter : Filter) (run : Run) : Bool :=
  filter.predicates.all fun predicate => predicate.accepts run

/-- The runs that meet all conditions, in their order. -/
def select (filter : Filter) (runs : List Run) : List Run :=
  runs.filter filter.accepts

/-- The conditions joined by `&&`, or `true` if there are none. -/
def text (filter : Filter) : String :=
  match filter.predicates with
  | [] => "true"
  | predicates => " && ".intercalate (predicates.map Predicate.text)

theorem accepts_require (filter : Filter) (predicate : Predicate) (run : Run) :
    (filter.require predicate).accepts run = (filter.accepts run && predicate.accepts run) := by
  simp [require, accepts]

theorem mem_release {filter : Filter} {column : Column} {predicate : Predicate} :
    predicate ∈ (filter.release column).predicates ↔
      predicate ∈ filter.predicates ∧ predicate.column ≠ column := by
  simp [release]

end Filter

end EvalCharts
