/-
Module: EvalCharts.CommandLine.Value
Purpose: Reading the value of an option into the part of a configuration that the option is about.
Main exports: readCount, Setting.put
-/
import EvalCharts.CommandLine.Refusal
import EvalCharts.Text

namespace EvalCharts.CommandLine

-- Powers of whole numbers are those of the core library, whichever other powers are in scope.
attribute [local instance (20000)] instPowNat

/-- Continue a number with further digits, as long as it fits into 32 bits. -/
def readDigits (value : Nat) : List Char → Except CountError Nat
  | [] => .ok value
  | digit :: digits =>
    if digit.isDigit then
      let next := 10 * value + (digit.toNat - '0'.toNat)
      if next < 2 ^ (32 : Nat) then readDigits next digits else .error .tooLarge
    else .error .notADigit

/-- Read a positive number of 32 bits. A plus sign may stand in front of its digits. -/
def readCount (text : List Char) : Except CountError Nat := do
  let value ←
    match text with
    | [] => .error .empty
    | ['+'] => .error .notADigit
    | '+' :: digits => readDigits 0 digits
    | digits => readDigits 0 digits
  if value = 0 then .error .zero else .ok value

namespace Setting

/-- Read a path, which must not be empty. -/
def readPath (setting : Setting) (value : String) : Except UsageError String :=
  if value.isEmpty then .error (.valueRequired setting) else .ok value

/-- Read a number. -/
def readNumber (setting : Setting) (value : List Char) : Except UsageError Float :=
  (Double.read value).mapError fun error =>
    .invalidValue setting (String.ofList value) (.number error)

/-- Take over the value of an option. A sweep that is `given` already is continued, all else is
    replaced. -/
def put (setting : Setting) (given : Bool) (value : String) (config : Config) :
    Except UsageError Config := do
  let number := setting.readNumber value.toList
  let limits := config.thresholds
  match setting with
  | .input => return { config with input := ← setting.readPath value }
  | .outputDir => return { config with outputDir := ← setting.readPath value }
  | .simMember => return { config with thresholds := { limits with simMember := ← number } }
  | .simMeta => return { config with thresholds := { limits with simMeta := ← number } }
  | .synMember => return { config with thresholds := { limits with synMember := ← number } }
  | .synMeta => return { config with thresholds := { limits with synMeta := ← number } }
  | .ngramSize => return { config with thresholds := { limits with ngramSize := ← number } }
  | .missing => return { config with thresholds := { limits with missing := ← number } }
  | .maxDistance => return { config with thresholds := { limits with maxDistance := ← number } }
  | .synMetaSweep =>
    let numbers ← (Text.cut ',' value.toList).mapM setting.readNumber
    return { config with synMetaSweep := if given then config.synMetaSweep ++ numbers else numbers }
  | .maxK =>
    let count ← (readCount value.toList).mapError fun error =>
      .invalidValue setting value (.count error)
    return { config with maxK := count }

end Setting

end EvalCharts.CommandLine
