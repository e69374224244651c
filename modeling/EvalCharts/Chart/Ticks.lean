/-
Module: EvalCharts.Chart.Ticks
Purpose: The coordinates at which an axis is labelled: multiples of a step that is one, two or five
  times a power of ten, and as small as the permitted number of labels allows.
Main exports: remainder, Step, finestStep, ticks?
-/
import EvalCharts.Chart.Frame
import EvalCharts.Double.Shortest

namespace EvalCharts

-- Powers of whole numbers are those of the core library, whichever other powers are in scope.
attribute [local instance (20000)] instPowNat

/-- Differences below this one are taken for rounding errors. -/
def tolerance : Float := 2.220446049250313e-16

/-- What is left of `x` above a multiple of `step`. Almost a whole step is taken for nothing. -/
def remainder (x step : Float) : Float :=
  let excess := x - Double.floor (x / step) * step
  if (excess - step).abs < tolerance then 0.0 else excess

/-- The first multiple of a step that is not below `x`. -/
def firstMultiple (x step : Float) : Float :=
  let multiple := x - remainder x step
  if multiple < x then multiple + step else multiple

/-- A whole double as a number of labels. -/
def labelCount (x : Float) : Nat :=
  (Double.toInt 0 (2 ^ (64 : Nat) - 1) x).toNat

/-- A step between labels, and the tenth of the power of ten that it is measured with. -/
structure Step where
  size : Float
  grain : Float
deriving DecidableEq

/-- The largest power of ten that is not above a positive distance. -/
def largestPower (distance : Float) : Float :=
  let power : Double.Decimal := ⟨1, Double.decade (Double.units distance)⟩
  power.toDouble false

/-- Divide a power of ten by two, five and ten, as long as the number of labels between two bounds does
    not exceed a limit. The result is the last step that fits, and whether all of them do. -/
def refine (low high : Float) (limit : Nat) (power : Float) : List Float → Float → Float × Bool
  | [], size => (size, true)
  | part :: parts, size =>
    let finer := power / part
    let first := firstMultiple low finer
    let last := high - remainder high finer
    if limit < labelCount (Double.round (1.0 + (last - first) / power * part)) then (size, false)
    else refine low high limit power parts finer

/-- The finest step that fits. A power of ten can be divided by ten no more than some 640 times before
    nothing is left of it, so the fuel never ends the search early. -/
def finestStep (low high : Float) (limit : Nat) : Nat → Step → Step
  | 0, step => step
  | fuel + 1, step =>
    match refine low high limit step.size [2.0, 5.0, 10.0] step.size with
    | (size, false) => ⟨size, step.grain⟩
    | (_, true) => finestStep low high limit fuel ⟨step.size / 10.0, step.grain / 10.0⟩

/-- The step from which the search starts: the largest power of ten, or ten times as much if it leads
    to too many labels. -/
def coarsestStep (low high : Float) (limit : Nat) : Step :=
  let power := largestPower (high - low)
  if limit < 1 + labelCount (Double.floor ((high - low) / power)) then
    ⟨power * 10.0, power / 10.0 * 10.0⟩
  else ⟨power, power / 10.0⟩

/-- Multiples of a step up to `last`, as sums of a `base` and growing distances from it. A distance
    that is negative on the scale of the grain is moved by one grain. -/
def multiples (base last : Float) (step : Step) : Nat → Float → List Float
  | 0, _ => []
  | fuel + 1, distance =>
    if -tolerance ≤ last - distance - base then
      let isBelow := Double.round (distance / step.grain) * step.grain < 0.0
      let distance := if isBelow then distance + step.grain else distance
      (distance + base) :: multiples base last step fuel (distance + step.size)
    else []

/-- The coordinates at which an axis is labelled. The step is chosen so that about `limit` of them fit
    at most, and the fuel for listing them is twice as much. An axis without any extent is not labelled
    at all. -/
def ticks? (interval : Interval) (limit : Nat) : Option (List Float) :=
  let low := Double.minimum interval.low interval.high
  let high := Double.maximum interval.low interval.high
  if low.isNaN && high.isNaN then none
  else if (low - high).abs < tolerance then some [low]
  else
    let step := finestStep low high limit 700 (coarsestStep low high limit)
    let first := firstMultiple low step.size
    let base := Double.floor (first / step.grain) * step.grain
    let last := high - remainder high step.size
    some (multiples base last step (2 * limit + 2) (first - base))

end EvalCharts
