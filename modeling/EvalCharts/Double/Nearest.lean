/-
Module: EvalCharts.Double.Nearest
Purpose: Rounding of an exact quotient to the nearest double.
Main exports: nearestMagnitude, ofQuotient, ofRatio
-/
import EvalCharts.Double.Pattern

namespace EvalCharts.Double

-- Powers of whole numbers are those of the core library, whichever other powers are in scope.
attribute [local instance (20000)] instPowNat

/-- The magnitude closest to `numerator / denominator` units. A value halfway between two magnitudes
    goes to the even one. The quotient is cut to 53 leading bits, or to whole units below `2 ^ 53` of
    them; rounding up past the last of these bits moves into the next binade by itself, because
    magnitudes are consecutive. -/
def nearestMagnitude (numerator denominator : Nat) : Nat :=
  let shift := (numerator / denominator).log2 - 52
  let step := denominator * 2 ^ shift
  let below := numerator / step
  let excess := 2 * (numerator % step)
  let rounded := if excess < step ∨ (excess = step ∧ below % 2 = 0) then below else below + 1
  min (shift * 2 ^ (52 : Nat) + rounded) infiniteMagnitude

/-- The double closest to `numerator / denominator`, with a given sign. -/
def ofQuotient (negative : Bool) (numerator denominator : Nat) : Float :=
  ofMagnitude negative (nearestMagnitude (numerator * unitsInOne) denominator)

/-- The double closest to `numerator / denominator`. -/
def ofRatio (numerator : Int) (denominator : Nat) : Float :=
  ofQuotient (numerator < 0) numerator.natAbs denominator

end EvalCharts.Double
