/-
Module: EvalCharts.CommandLine.Refusal
Purpose: What keeps an argument list from asking for charts: a request for information, a misuse of
  the options, or values that no chart can be drawn for.
Main exports: CountError, ValueError, UsageError, CheckError, Refusal
-/
import EvalCharts.CommandLine.Setting

namespace EvalCharts.CommandLine

/-- Why a text is not a positive number of 32 bits. -/
inductive CountError where
  | empty
  | notADigit
  | tooLarge
  | zero
deriving DecidableEq, Repr

/-- The sentence that reports a text which is not a count. -/
def CountError.message : CountError → String
  | .empty => "cannot parse integer from empty string"
  | .notADigit => "invalid digit found in string"
  | .tooLarge => "number too large to fit in target type"
  | .zero => "number would be zero for non-zero type"

/-- Why a value does not suit its option. -/
inductive ValueError where
  | number (error : Double.ReadError)
  | count (error : CountError)
deriving DecidableEq, Repr

def ValueError.message : ValueError → String
  | .number error => error.message
  | .count error => error.message

/-- A misuse of the options. -/
inductive UsageError where
  /-- An argument that is neither an option nor the value of one. -/
  | unexpected (argument : String)
  /-- An option without its value. -/
  | valueRequired (setting : Setting)
  /-- A value, or a part of a list of values, that cannot be read. -/
  | invalidValue (setting : Setting) (value : String) (reason : ValueError)
  /-- An option that is given twice. -/
  | repeated (setting : Setting)
  /-- A value for an option that takes none. -/
  | unneededValue (flag : Flag) (value : String)
deriving DecidableEq, Repr

/-- The line that reports a misuse. -/
def UsageError.message : UsageError → String
  | .unexpected argument => "error: unexpected argument '" ++ argument ++ "' found"
  | .valueRequired setting =>
    "error: a value is required for '" ++ setting.usage ++ "' but none was supplied"
  | .invalidValue setting value reason =>
    "error: invalid value '" ++ value ++ "' for '" ++ setting.usage ++ "': " ++ reason.message
  | .repeated setting =>
    "error: the argument '" ++ setting.usage ++ "' cannot be used multiple times"
  | .unneededValue flag value =>
    "error: unexpected value '" ++ value ++ "' for '--" ++ flag.longName
      ++ "' found; no more were expected"

/-- A configuration that no chart can be drawn for. -/
inductive CheckError where
  | infiniteThreshold
  | emptySweep
  | infiniteSweep
deriving DecidableEq, Repr

def CheckError.message : CheckError → String
  | .infiniteThreshold => "thresholds must be finite numbers"
  | .emptySweep => "the synonym threshold sweep needs at least one value"
  | .infiniteSweep => "the synonym threshold sweep must only contain finite numbers"

/-- Why an argument list does not ask for charts. -/
inductive Refusal where
  /-- Help is asked for, with all details or as a summary. -/
  | help (detailed : Bool)
  /-- The version is asked for. -/
  | version
  | usage (error : UsageError)
  | check (error : CheckError)
deriving DecidableEq, Repr

end EvalCharts.CommandLine
