/-
Module: EvalCharts.Double.Whole
Purpose: Whole numbers among the doubles: which doubles are whole or even, how a double is rounded to
  a whole one, and how it is turned into an integer of a bounded range.
Main exports: isWhole, isEven, floor, ceil, round, toInt
-/
import EvalCharts.Double.Pattern

namespace EvalCharts.Double

/-- A finite double without a fractional part. -/
def isWhole (x : Float) : Bool :=
  x.isFinite && units x % unitsInOne == 0

/-- A whole double that is divisible by two; every double from `2 ^ 53` on is. -/
def isEven (x : Float) : Bool :=
  x.isFinite && units x % (2 * unitsInOne) == 0

/-- Drop the part of a number of units that is less than one. -/
def dropFraction (units : Nat) : Nat :=
  units / unitsInOne * unitsInOne

/-- Fill a number of units up to the next whole number. -/
def fillFraction (units : Nat) : Nat :=
  dropFraction (units + (unitsInOne - 1))

/-- The closest whole number of ones; a half goes up. -/
def nearestWhole (units : Nat) : Nat :=
  dropFraction (units + unitsInOne / 2)

/-- Replace the distance from zero of a finite double and keep its sign, that of a zero included. -/
def mapUnits (f : Nat → Nat) (x : Float) : Float :=
  if x.isFinite then ofMagnitude (isNegative x) (magnitudeOf (f (units x))) else x

/-- The largest whole double that is not above `x`. -/
def floor (x : Float) : Float :=
  mapUnits (if isNegative x then fillFraction else dropFraction) x

/-- The smallest whole double that is not below `x`. -/
def ceil (x : Float) : Float :=
  mapUnits (if isNegative x then dropFraction else fillFraction) x

/-- The closest whole double; a half goes away from zero. -/
def round (x : Float) : Float :=
  mapUnits nearestWhole x

/-- The integer part of a double, kept between two bounds; a NaN counts as zero. -/
def toInt (least greatest : Int) (x : Float) : Int :=
  if x.isNaN then 0
  else if x.isFinite then
    let whole : Int := (units x / unitsInOne : Nat)
    max least (min greatest (if isNegative x then -whole else whole))
  else if isNegative x then least else greatest

end EvalCharts.Double
