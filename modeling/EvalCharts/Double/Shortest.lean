/-
Module: EvalCharts.Double.Shortest
Purpose: Writing a double with the fewest digits that read back as the same double, always in
  positional notation.
Main exports: digitCount, decade, shortest, positional, write, text
-/
import EvalCharts.Double.Decimal

namespace EvalCharts.Double

-- Powers of whole numbers are those of the core library, whichever other powers are in scope.
attribute [local instance (20000)] instPowNat

/-- The number of decimal digits of a natural number. -/
def digitCount (number : Nat) : Nat :=
  (Nat.toDigits 10 number).length

/-- The largest `e` with `10 ^ e` not above a positive number of units: from one on, one less than the
    number of digits in front of the point, and below one, by the number of digits in front of the
    point of the reciprocal, which has as many as the largest whole number below it. -/
def decade (units : Nat) : Int :=
  if unitsInOne ≤ units then (digitCount (units / unitsInOne) : Int) - 1
  else -(digitCount ((unitsInOne - 1) / units) : Int)

/-- The two decimals on the grid of multiples of `10 ^ exponent` that enclose a number of units, the
    nearer one first; the upper one counts as nearer when it is as near as the lower one. -/
def neighbours (units : Nat) (exponent : Int) : List Decimal :=
  let numerator := units * 10 ^ (-exponent).toNat
  let denominator := unitsInOne * 10 ^ exponent.toNat
  let below := numerator / denominator
  if 2 * (numerator % denominator) < denominator then
    [⟨below, exponent⟩, ⟨below + 1, exponent⟩]
  else
    [⟨below + 1, exponent⟩, ⟨below, exponent⟩]

/-- The decimal that a number of units is exactly worth. -/
def exactDecimal (units : Nat) : Decimal :=
  ⟨units * 5 ^ (1074 : Nat), -1074⟩

/-- The decimal with the fewest digits that reads back as a positive finite magnitude; among several,
    the nearest. Seventeen digits always suffice, and the exact value stands in for the search's end. -/
def shortest (magnitude : Nat) : Decimal :=
  let units := unitsOf magnitude
  let first := decade units
  let found := (List.range 17).findSome? fun (count : Nat) =>
    (neighbours units (first - count)).find? fun decimal => decimal.magnitude == magnitude
  found.getD (exactDecimal units)

/-- The digits behind the point, without zeros at the end. -/
def fractionText (places fraction : Nat) : List Char :=
  let digits := (Nat.toDigits 10 (10 ^ places + fraction)).drop 1
  (digits.reverse.dropWhile (· == '0')).reverse

/-- A decimal in positional notation: no exponent, and no point unless digits follow it. -/
def positional (decimal : Decimal) : List Char :=
  let ⟨digits, exponent⟩ := decimal
  if 0 ≤ exponent then
    Nat.toDigits 10 (digits * 10 ^ exponent.toNat)
  else
    let places := (-exponent).toNat
    let whole := Nat.toDigits 10 (digits / 10 ^ places)
    match fractionText places (digits % 10 ^ places) with
    | [] => whole
    | fraction => whole ++ '.' :: fraction

/-- The text of a magnitude. -/
def writeMagnitude (magnitude : Nat) : List Char :=
  if magnitude = 0 then ['0']
  else if magnitude < infiniteMagnitude then positional (shortest magnitude)
  else ['i', 'n', 'f']

/-- Write a double. A NaN has no sign. -/
def write (x : Float) : List Char :=
  if x.isNaN then ['N', 'a', 'N']
  else if isNegative x then '-' :: writeMagnitude (magnitude x)
  else writeMagnitude (magnitude x)

/-- The text of a double. -/
def text (x : Float) : String :=
  String.ofList (write x)

end EvalCharts.Double
