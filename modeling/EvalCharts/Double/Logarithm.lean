/-
Module: EvalCharts.Double.Logarithm
Purpose: Decimal and natural logarithms, computed in whole numbers and rounded to the nearest double.
Main exports: logDigits, fixedLog, log10, ln
-/
import EvalCharts.Double.Nearest
import EvalCharts.Double.Shortest

namespace EvalCharts.Double

-- Powers of whole numbers are those of the core library, whichever other powers are in scope.
attribute [local instance (20000)] instPowNat

/-- Fractional bits of the factor whose logarithm is taken. -/
def factorBits : Nat := 320

/-- Fractional bits of a computed decimal logarithm. -/
def logBits : Nat := 160

/-- The leading binary digits of the decimal logarithm of a factor between one and ten. Squaring
    doubles the logarithm: the next digit is one exactly if the square reaches ten, and then dividing
    by ten brings it back between one and ten. -/
def logDigits : Nat → Nat → Nat → Nat
  | 0, _, digits => digits
  | steps + 1, factor, digits =>
    let square := factor * factor / 2 ^ factorBits
    if 10 * 2 ^ factorBits ≤ square then logDigits steps (square / 10) (2 * digits + 1)
    else logDigits steps square (2 * digits)

/-- The factor between one and ten by which a positive number of units exceeds its power of ten. -/
def leadingFactor (units : Nat) : Nat :=
  let exponent := decade units
  units * 10 ^ (-exponent).toNat * 2 ^ factorBits / (unitsInOne * 10 ^ exponent.toNat)

/-- The decimal logarithm of a positive number of units, in steps of `2 ^ -(logBits + 1)`. The last
    bit is set unless the logarithm is the whole number that the other bits show, so that rounding
    never sees a value halfway between two doubles. -/
def fixedLog (units : Nat) : Int :=
  let exponent := decade units
  let factor := leadingFactor units
  let whole := exponent * 2 ^ (logBits + 1)
  if factor = 2 ^ factorBits then whole
  else whole + (2 * logDigits logBits factor 0 + 1 : Nat)

/-- The natural logarithm of ten, in steps of `2 ^ -256`. -/
def lnTen : Nat :=
  266621138564480548222253459415182587429914225440519472036001743423645469947338

/-- A logarithm on all doubles: `onUnits` on the positive finite ones, negative infinity at both
    zeros, NaN below them, and infinity and NaN where they are. -/
def logarithm (onUnits : Nat → Float) (x : Float) : Float :=
  if x.isNaN then x
  else if magnitude x = 0 then ofMagnitude true infiniteMagnitude
  else if isNegative x then ofMagnitude false (infiniteMagnitude + 2 ^ (51 : Nat))
  else if x.isFinite then onUnits (units x)
  else x

/-- The double closest to the decimal logarithm. -/
def log10 (x : Float) : Float :=
  logarithm (fun units => ofRatio (fixedLog units) (2 ^ (logBits + 1))) x

/-- The double closest to the natural logarithm. -/
def ln (x : Float) : Float :=
  logarithm (fun units => ofRatio (fixedLog units * lnTen) (2 ^ (logBits + 1 + 256))) x

end EvalCharts.Double
