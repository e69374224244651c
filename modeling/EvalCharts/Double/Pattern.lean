/-
Module: EvalCharts.Double.Pattern
Purpose: The exact reading of a double: its sign, its magnitude, the number of least units it is
  worth, and the place it takes in the total order that keys and categories are sorted by.
Main exports: magnitude, isNegative, ofMagnitude, unitsOf, magnitudeOf, units, rank
-/

namespace EvalCharts.Double

-- Powers of whole numbers are those of the core library, whichever other powers are in scope. The type
-- of an exponent is written out where nothing else tells it.
attribute [local instance (20000)] instPowNat

/-- The bit pattern without its sign bit. Among doubles of one sign, a larger magnitude is a larger
    distance from zero, and the distances of finite doubles end just below `infiniteMagnitude`. -/
def magnitude (x : Float) : Nat :=
  x.toBits.toNat % 2 ^ (63 : Nat)

/-- The sign bit, which also tells the two zeros apart. -/
def isNegative (x : Float) : Bool :=
  2 ^ (63 : Nat) ≤ x.toBits.toNat

/-- The magnitude of both infinities. -/
def infiniteMagnitude : Nat := 2047 * 2 ^ (52 : Nat)

/-- The double with a given sign and magnitude. -/
def ofMagnitude (negative : Bool) (magnitude : Nat) : Float :=
  Float.ofBits (UInt64.ofNat (if negative then 2 ^ (63 : Nat) + magnitude else magnitude))

/-- How many units of `2 ^ -1074` a finite magnitude is worth. Every finite double is a whole number
    of these units, so exact arithmetic on doubles is arithmetic on natural numbers. -/
def unitsOf (magnitude : Nat) : Nat :=
  let exponent := magnitude / 2 ^ (52 : Nat)
  let fraction := magnitude % 2 ^ (52 : Nat)
  if exponent = 0 then fraction else (2 ^ (52 : Nat) + fraction) * 2 ^ (exponent - 1)

/-- The magnitude worth a given number of units; bits below the 53 leading ones are dropped. -/
def magnitudeOf (units : Nat) : Nat :=
  let shift := units.log2 - 52
  shift * 2 ^ (52 : Nat) + units / 2 ^ shift

/-- How many units a finite double lies away from zero. -/
def units (x : Float) : Nat :=
  unitsOf (magnitude x)

/-- The number of units in `1`. -/
def unitsInOne : Nat := 2 ^ (1074 : Nat)

/-- The place of a double in the total order of keys: numbers stand in their usual order, both zeros
    in one place, and NaN stands alone behind positive infinity. -/
def rank (x : Float) : Int :=
  if x.isNaN then 2 ^ (63 : Nat)
  else if isNegative x then -(magnitude x : Int)
  else magnitude x

/-- Two doubles that take the same place in the total order. -/
def sameKey (x y : Float) : Bool :=
  rank x == rank y

/-- The larger of two doubles, where a NaN gives way to the other one. -/
def maximum (x y : Float) : Float :=
  if x.isNaN then y else if y.isNaN then x else if x < y then y else x

/-- The smaller of two doubles, where a NaN gives way to the other one. -/
def minimum (x y : Float) : Float :=
  if x.isNaN then y else if y.isNaN then x else if y < x then y else x

end EvalCharts.Double
