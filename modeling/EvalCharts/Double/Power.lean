/-
Module: EvalCharts.Double.Power
Purpose: Integral powers of ten in floating-point arithmetic, each product rounded.
Main exports: powerOfTen
-/
import EvalCharts.Double.Pattern

namespace EvalCharts.Double

/-- Multiply `result` by `base` to the power `exponent` by repeated squaring, from the low bit of the
    exponent to its high bit. The number of steps is the number of those bits. -/
def squareAndMultiply : Nat → Float → Float → Nat → Float
  | 0, result, _, _ => result
  | steps + 1, result, base, exponent =>
    let result := if exponent % 2 = 1 then result * base else result
    squareAndMultiply steps result (base * base) (exponent / 2)

/-- Ten to an integral power. A negative power is the reciprocal of the positive one, so it is zero
    once that one overflows. -/
def powerOfTen (exponent : Int) : Float :=
  let size := exponent.natAbs
  let power := squareAndMultiply (size.log2 + 1) 1.0 10.0 size
  if exponent < 0 then 1.0 / power else power

end EvalCharts.Double
