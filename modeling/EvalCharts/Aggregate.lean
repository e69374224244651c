/-
Module: EvalCharts.Aggregate
Purpose: Reducing runs to one value per group. Runs with the same key form a group; groups stand in
  the ascending order of their keys, and each is reduced to a mean, or to the mean of the best
  values of its entities.
Main exports: groupBy, compareKeys, Measure, Measure.of, mean?, best?, Reduction, aggregate
-/
import EvalCharts.Run
import EvalCharts.Double.Pattern

namespace EvalCharts

/-- Put a member in front of the group of its key, or open a group for it between its neighbours. The
    key of the new member becomes the key of the group. -/
def placeMember {κ α : Type} (order : κ → κ → Ordering) (key : κ) (member : α) :
    List (κ × List α) → List (κ × List α)
  | [] => [(key, [member])]
  | (other, members) :: rest =>
    match order key other with
    | .lt => (key, [member]) :: (other, members) :: rest
    | .eq => (key, member :: members) :: rest
    | .gt => (other, members) :: placeMember order key member rest

/-- Split a list into groups of members with equal keys, in ascending order of the keys. Members keep
    their order, and a group shows the key of its first member. -/
def groupBy {κ α : Type} (order : κ → κ → Ordering) (key : α → κ) (members : List α) :
    List (κ × List α) :=
  members.foldr (fun member groups => placeMember order (key member) member groups) []

/-- The order of single keys: that of their ranks. -/
def compareDoubles (x y : Float) : Ordering :=
  compare (Double.rank x) (Double.rank y)

/-- The lexicographic order of tuples of keys. -/
def compareKeys : List Float → List Float → Ordering
  | [], [] => .eq
  | [], _ :: _ => .lt
  | _ :: _, [] => .gt
  | x :: xs, y :: ys => (compareDoubles x y).then (compareKeys xs ys)

/-- The quantity that is aggregated. -/
inductive Measure where
  /-- The value in one column. -/
  | column (column : Column)
  /-- The values of several columns, added up in their order. -/
  | sum (columns : List Column)
deriving DecidableEq, Repr

/-- The measure of a run. A sum starts from negative zero, which no addition can tell from nothing. -/
def Measure.of (run : Run) : Measure → Float
  | .column source => run.get source
  | .sum columns => columns.foldl (fun total summand => total + run.get summand) (-0.0)

/-- The sum of some values, from positive zero on and in their order. -/
def total (values : List Float) : Float :=
  values.foldl (fun total value => total + value) 0.0

/-- The arithmetic mean of some values, if there are any. -/
def mean? (values : List Float) : Option Float :=
  if values = [] then none
  else some (total values / Float.ofNat values.length)

/-- The largest of some values, if there are any. A NaN counts only where there is nothing else. -/
def best? : List Float → Option Float
  | [] => none
  | value :: values => some (values.foldl Double.maximum value)

/-- How the runs of a group become one value. -/
inductive Reduction where
  /-- The mean of the measure. -/
  | mean
  /-- The mean, over the entities in ascending order, of the best measure of each. -/
  | meanOfBest (entity : Column)
deriving DecidableEq, Repr

/-- The best measure of each entity, in ascending order of the entities. -/
def bestByEntity (entity : Column) (measure : Measure) (runs : List Run) : List (Float × Float) :=
  (groupBy compareDoubles (fun run => run.get entity) runs).filterMap fun (key, members) =>
    (best? (members.map measure.of)).map fun best => (key, best)

/-- The value of a group. -/
def Reduction.apply (reduction : Reduction) (measure : Measure) (runs : List Run) : Option Float :=
  match reduction with
  | .mean => mean? (runs.map measure.of)
  | .meanOfBest entity => mean? ((bestByEntity entity measure runs).map Prod.snd)

/-- Group runs by the values of some columns and reduce each group. Without any column all runs form
    one group, and without runs there are no groups. -/
def aggregate (keys : List Column) (measure : Measure) (reduction : Reduction) (runs : List Run) :
    List (List Float × Float) :=
  (groupBy compareKeys (fun run => keys.map run.get) runs).filterMap fun (key, members) =>
    (reduction.apply measure members).map fun value => (key, value)

end EvalCharts
