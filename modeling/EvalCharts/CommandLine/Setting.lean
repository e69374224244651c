/-
Module: EvalCharts.CommandLine.Setting
Purpose: The options of the command line: how each of them is written, and which part of a
  configuration the value of an option describes.
Main exports: Setting, Setting.usage, Setting.ofLong?, Setting.ofShort?, Setting.valueText, Flag
-/
import EvalCharts.Config

namespace EvalCharts.CommandLine

/-- The options that take a value. -/
inductive Setting where
  | input
  | outputDir
  | simMember
  | simMeta
  | synMember
  | synMeta
  | ngramSize
  | missing
  | maxDistance
  | synMetaSweep
  | maxK
deriving DecidableEq, Repr

namespace Setting

/-- Every option that takes a value, in the order of the help text. -/
def all : List Setting :=
  [.input, .outputDir, .simMember, .simMeta, .synMember, .synMeta, .ngramSize, .missing,
    .maxDistance, .synMetaSweep, .maxK]

/-- The name of an option behind its two dashes. -/
def longName : Setting → String
  | .input => "input"
  | .outputDir => "output-dir"
  | .simMember => "sim-member"
  | .simMeta => "sim-meta"
  | .synMember => "syn-member"
  | .synMeta => "syn-meta"
  | .ngramSize => "ngram-size"
  | .missing => "missing"
  | .maxDistance => "max-distance"
  | .synMetaSweep => "syn-meta-sweep"
  | .maxK => "max-k"

/-- The letter of an option behind a single dash, if it has one. -/
def letter? : Setting → Option Char
  | .input => some 'i'
  | .outputDir => some 'o'
  | .maxK => some 'k'
  | _ => none

/-- The word that stands for the value of an option in messages. -/
def placeholder : Setting → String
  | .input => "INPUT"
  | .outputDir => "OUTPUT_DIR"
  | .simMember => "SIM_MEMBER"
  | .simMeta => "SIM_META"
  | .synMember => "SYN_MEMBER"
  | .synMeta => "SYN_META"
  | .ngramSize => "NGRAM_SIZE"
  | .missing => "MISSING"
  | .maxDistance => "MAX_DISTANCE"
  | .synMetaSweep => "SYN_META_SWEEP"
  | .maxK => "MAX_K"

/-- An option with its value, as messages show it. -/
def usage (setting : Setting) : String :=
  "--" ++ setting.longName ++ " <" ++ setting.placeholder ++ ">"

/-- The option of a long name. Names are not abbreviated. -/
def ofLong? (name : String) : Option Setting :=
  all.find? fun setting => setting.longName == name

/-- The option of a letter. -/
def ofLetter? (letter : Char) : Option Setting :=
  all.find? fun setting => setting.letter? == some letter

/-- The value of an option that describes the corresponding part of a configuration. -/
def valueText (config : Config) : Setting → String
  | .input => config.input
  | .outputDir => config.outputDir
  | .simMember => Double.text config.thresholds.simMember
  | .simMeta => Double.text config.thresholds.simMeta
  | .synMember => Double.text config.thresholds.synMember
  | .synMeta => Double.text config.thresholds.synMeta
  | .ngramSize => Double.text config.thresholds.ngramSize
  | .missing => Double.text config.thresholds.missing
  | .maxDistance => Double.text config.thresholds.maxDistance
  | .synMetaSweep => ",".intercalate (config.synMetaSweep.map Double.text)
  | .maxK => toString config.maxK

theorem ofLong?_longName (setting : Setting) : ofLong? setting.longName = some setting := by
  cases setting <;> decide

theorem ofLetter?_eq_some {setting : Setting} {letter : Char} (h : setting.letter? = some letter) :
    ofLetter? letter = some setting := by
  cases setting <;> simp [letter?] at h <;> subst h <;> decide

end Setting

/-- The options that take no value. -/
inductive Flag where
  | help
  | version
deriving DecidableEq, Repr

namespace Flag

/-- The name of a flag behind its two dashes. -/
def longName : Flag → String
  | .help => "help"
  | .version => "version"

/-- The letter of a flag behind a single dash. -/
def letter : Flag → Char
  | .help => 'h'
  | .version => 'V'

/-- The flag of a long name. -/
def ofLong? (name : String) : Option Flag :=
  [help, version].find? fun flag => flag.longName == name

/-- The flag of a letter. -/
def ofLetter? (letter : Char) : Option Flag :=
  [help, version].find? fun flag => flag.letter == letter

end Flag

end EvalCharts.CommandLine
