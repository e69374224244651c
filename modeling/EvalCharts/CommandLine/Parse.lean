/-
Module: EvalCharts.CommandLine.Parse
Purpose: Reading an argument list from left to right into a configuration. An option and its value are
  either one argument or two, and the value of two is looked at when the next option is met.
Main exports: Argument, Argument.ofText, Reader, Reader.step, Config.check, parse
-/
import EvalCharts.CommandLine.Value

namespace EvalCharts.CommandLine

/-- What an argument is, seen alone. -/
inductive Argument where
  /-- The two dashes behind which no option stands. -/
  | endOfOptions
  /-- An option, possibly with its value. -/
  | option (setting : Setting) (value? : Option String)
  /-- A flag, by its long name or by its letter. -/
  | bareFlag (flag : Flag) (long : Bool)
  /-- A flag with a value. -/
  | flagValue (flag : Flag) (value : String)
  /-- An option that there is not. -/
  | unknown (shown : String)
  /-- Neither an option nor a flag. -/
  | word (text : String)
deriving DecidableEq, Repr

namespace Argument

/-- An argument behind two dashes, cut at its first `=`. -/
def ofLong (name : String) (value? : Option String) : Argument :=
  match Setting.ofLong? name with
  | some setting => .option setting value?
  | none =>
    match Flag.ofLong? name, value? with
    | some flag, none => .bareFlag flag true
    | some flag, some value => .flagValue flag value
    | none, _ => .unknown ("--" ++ name)

/-- An argument behind a single dash. What follows the letter of an option is its value; an `=` may
    stand between them. What follows the letter of a flag is never looked at. -/
def ofShort (letter : Char) (rest : List Char) : Argument :=
  match Setting.ofLetter? letter with
  | some setting =>
    match rest with
    | [] => .option setting none
    | '=' :: value => .option setting (some (String.ofList value))
    | value => .option setting (some (String.ofList value))
  | none =>
    match Flag.ofLetter? letter with
    | some flag => .bareFlag flag false
    | none => .unknown (String.ofList ['-', letter])

/-- Tell what an argument is. A dash alone is a word. -/
def ofText (text : String) : Argument :=
  match text.toList with
  | ['-', '-'] => .endOfOptions
  | '-' :: '-' :: body =>
    let name := String.ofList (body.takeWhile (· ≠ '='))
    match body.dropWhile (· ≠ '=') with
    | [] => ofLong name none
    | _ :: value => ofLong name (some (String.ofList value))
  | '-' :: letter :: rest => ofShort letter rest
  | _ => .word text

end Argument

/-- The option that was met last, if its value is still to be taken over. -/
inductive Pending where
  | nothing
  /-- Its value has not been met. -/
  | named (setting : Setting)
  /-- Its value was an argument of its own, which has not been looked at. -/
  | valued (setting : Setting) (value : String)
deriving DecidableEq, Repr

/-- An argument list read up to some place. -/
structure Reader where
  config : Config
  /-- The options whose values have been taken over. -/
  given : List Setting
  pending : Pending
  /-- Whether the end of options has been met. -/
  ended : Bool
deriving DecidableEq

namespace Reader

/-- Nothing read yet. -/
def start : Reader := ⟨.initial, [], .nothing, false⟩

/-- Take over the value of an option. Only the sweep may be given more than once. -/
def accept (reader : Reader) (setting : Setting) (value : String) : Except UsageError Reader :=
  let again := reader.given.contains setting
  if again ∧ setting ≠ .synMetaSweep then .error (.repeated setting)
  else (setting.put again value reader.config).map fun config =>
    { reader with config := config, given := setting :: reader.given, pending := .nothing }

/-- Look at the option that was met last. -/
def settle (reader : Reader) : Except UsageError Reader :=
  match reader.pending with
  | .nothing => .ok reader
  | .named setting => .error (.valueRequired setting)
  | .valued setting value => reader.accept setting value

/-- Read an option with its value, or wait for the value. -/
def meet (reader : Reader) (setting : Setting) (value? : Option String) :
    Except UsageError Reader := do
  let reader ← reader.settle
  match value? with
  | some value => reader.accept setting value
  | none => return { reader with pending := .named setting }

/-- What a flag leads to. -/
def answer (long : Bool) : Flag → Refusal
  | .help => .help long
  | .version => .version

/-- Read one more argument. One that cannot stand at its place is reported before the option that was
    met last is looked at. -/
def step (reader : Reader) (text : String) : Except Refusal Reader :=
  if reader.ended then .error (.usage (.unexpected text))
  else
    match Argument.ofText text with
    | .endOfOptions => .ok { reader with ended := true }
    | .option setting value? => (reader.meet setting value?).mapError .usage
    | .bareFlag flag long =>
      match reader.settle with
      | .error error => .error (.usage error)
      | .ok _ => .error (answer long flag)
    | .flagValue flag value => .error (.usage (.unneededValue flag value))
    | .unknown shown => .error (.usage (.unexpected shown))
    | .word text =>
      match reader.pending with
      | .named setting => .ok { reader with pending := .valued setting text }
      | _ => .error (.usage (.unexpected text))

end Reader

/-- The check that all values which runs are compared with are finite. -/
def check (config : Config) : Except CheckError Config :=
  if config.thresholds.entries.any fun (_, value) => !value.isFinite then .error .infiniteThreshold
  else if config.synMetaSweep.isEmpty then .error .emptySweep
  else if config.synMetaSweep.any fun value => !value.isFinite then .error .infiniteSweep
  else .ok config

/-- Read an argument list. -/
def parse (arguments : List String) : Except Refusal Config := do
  let reader ← arguments.foldlM Reader.step .start
  let reader ← reader.settle.mapError .usage
  (check reader.config).mapError .check

end EvalCharts.CommandLine
