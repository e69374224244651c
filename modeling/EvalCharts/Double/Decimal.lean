/-
Module: EvalCharts.Double.Decimal
Purpose: Reading a double from text: an optional sign, then digits with an optional point and an
  optional decimal exponent, or one of the words for infinity and NaN in any case.
Main exports: Decimal, Decimal.toDouble, unsigned?, ReadError, read
-/
import EvalCharts.Double.Nearest

namespace EvalCharts.Double

-- Powers of whole numbers are those of the core library, whichever other powers are in scope.
attribute [local instance (20000)] instPowNat

/-- A decimal numeral without a sign: `digits * 10 ^ exponent`. -/
structure Decimal where
  digits : Nat
  exponent : Int
deriving DecidableEq, Repr

/-- The magnitude closest to a decimal. The first two tests keep the powers of ten small: a decimal
    of at least `10 ^ 310` is beyond every finite double, and one below `10 ^ -324` is less than half
    a unit. -/
def Decimal.magnitude (decimal : Decimal) : Nat :=
  let ⟨digits, exponent⟩ := decimal
  if digits = 0 then 0
  else if 309 < exponent then infiniteMagnitude
  else if exponent + (digits.log2 + 1 : Nat) < -323 then 0
  else nearestMagnitude (digits * 10 ^ exponent.toNat * unitsInOne) (10 ^ (-exponent).toNat)

/-- The double closest to a decimal, with a given sign. -/
def Decimal.toDouble (negative : Bool) (decimal : Decimal) : Float :=
  ofMagnitude negative decimal.magnitude

/-- Why a text is not a number. -/
inductive ReadError where
  | empty
  | malformed
deriving DecidableEq, Repr

/-- The sentence that reports a text which is not a number. -/
def ReadError.message : ReadError → String
  | .empty => "cannot parse float from empty string"
  | .malformed => "invalid float literal"

/-- Take an optional sign off the front of a text. -/
def splitSign : List Char → Bool × List Char
  | '-' :: rest => (true, rest)
  | '+' :: rest => (false, rest)
  | text => (false, text)

/-- Split a text behind its leading decimal digits. -/
def splitDigits (text : List Char) : List Char × List Char :=
  (text.takeWhile Char.isDigit, text.dropWhile Char.isDigit)

/-- The exponent at the end of a numeral: nothing, or the letter `e` with an optional sign and at
    least one digit. -/
def exponent? : List Char → Option Int
  | [] => some 0
  | letter :: rest =>
    if letter = 'e' ∨ letter = 'E' then
      let (negative, text) := splitSign rest
      let (digits, tail) := splitDigits text
      if digits = [] ∨ tail ≠ [] then none
      else
        let size : Int := Nat.ofDigitChars 10 digits 0
        some (if negative then -size else size)
    else none

/-- The digits behind an optional point. -/
def fractionDigits : List Char → List Char × List Char
  | '.' :: rest => splitDigits rest
  | text => ([], text)

/-- A numeral without a sign: digits with at most one point among them, at least one digit on either
    side of it, and an optional exponent. -/
def unsigned? (text : List Char) : Option Decimal :=
  let (whole, tail) := splitDigits text
  let (fraction, tail) := fractionDigits tail
  if whole = [] ∧ fraction = [] then none
  else
    (exponent? tail).map fun exponent =>
      { digits := Nat.ofDigitChars 10 (whole ++ fraction) 0
        exponent := exponent - fraction.length }

/-- The words for values that no digits denote. -/
def word? (text : List Char) : Option Nat :=
  match String.ofList (text.map Char.toLower) with
  | "inf" => some infiniteMagnitude
  | "infinity" => some infiniteMagnitude
  | "nan" => some (infiniteMagnitude + 2 ^ (51 : Nat))
  | _ => none

/-- Read a double. Neither blanks nor separators are allowed anywhere. -/
def read (text : List Char) : Except ReadError Float :=
  if text = [] then .error .empty
  else
    let (negative, body) := splitSign text
    match unsigned? body with
    | some decimal => .ok (decimal.toDouble negative)
    | none =>
      match word? body with
      | some magnitude => .ok (ofMagnitude negative magnitude)
      | none => .error .malformed

end EvalCharts.Double
