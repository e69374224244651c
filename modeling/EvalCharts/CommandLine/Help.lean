/-
Module: EvalCharts.CommandLine.Help
Purpose: The texts that describe the program and its options, as a summary and with all details.
Main exports: helpText, versionText
-/
import EvalCharts.CommandLine.Setting

namespace EvalCharts.CommandLine

/-- What the help texts say about an option. -/
structure Entry where
  letter? : Option Char
  longName : String
  placeholder? : Option String
  /-- The sentence of both texts. -/
  sentence : String
  /-- A paragraph that only the detailed text has. -/
  detail? : Option String
  default? : Option String

/-- The sentence that describes an option. -/
def Setting.sentence : Setting → String
  | .input => "Semicolon-separated results file, optionally gzip-compressed (.gz)"
  | .outputDir => "Directory where the SVG charts are written"
  | .simMember => "Similarity threshold for members (\"simMember\" column)"
  | .simMeta => "Similarity threshold for metadata (\"simMeta\" column)"
  | .synMember => "Synonym threshold for members (\"synMember\" column)"
  | .synMeta => "Synonym threshold for metadata (\"synMeta\" column)"
  | .ngramSize => "Ngram size (\"ngramSize\" column)"
  | .missing => "Coverage threshold (\"%missing\" column)"
  | .maxDistance => "Distance threshold (\"maxDistance\" column)"
  | .synMetaSweep => "Metadata synonym thresholds compared in the top-k and timing charts"
  | .maxK => "Largest candidate rank of the top-k similarity chart"

/-- What is said about an option that takes a value. -/
def Setting.entry (setting : Setting) : Entry where
  letter? := setting.letter?
  longName := setting.longName
  placeholder? := some setting.placeholder
  sentence := setting.sentence
  detail? :=
    match setting with
    | .outputDir => some "Will be created if it does not exist yet."
    | _ => none
  default? := some (setting.valueText .initial)

/-- What is said about a flag. Either help text refers to the other one. -/
def Flag.entry (detailed : Bool) (flag : Flag) : Entry where
  letter? := some flag.letter
  longName := flag.longName
  placeholder? := none
  sentence :=
    match flag with
    | .help =>
      if detailed then "Print help (see a summary with '-h')"
      else "Print help (see more with '--help')"
    | .version => "Print version"
  detail? := none
  default? := none

namespace Entry

/-- The line that shows how an option is written. Options without a letter leave its place blank. -/
def heading (entry : Entry) : String :=
  let letter :=
    match entry.letter? with
    | some letter => String.ofList ['-', letter, ',', ' ']
    | none => "    "
  let value :=
    match entry.placeholder? with
    | some placeholder => " <" ++ placeholder ++ ">"
    | none => ""
  "  " ++ letter ++ "--" ++ entry.longName ++ value

/-- A line below a heading. -/
def indent (line : String) : String :=
  "          " ++ line

/-- The remark on what holds if the option is not given. -/
def remark (default : String) : String :=
  "[default: " ++ default ++ "]"

/-- The lines of an option in the summary. -/
def summaryLines (entry : Entry) : List String :=
  let sentence :=
    match entry.default? with
    | some default => entry.sentence ++ " " ++ remark default
    | none => entry.sentence
  [entry.heading, indent sentence]

/-- The lines of an option in the detailed text. Its paragraphs stand apart. -/
def detailedLines (entry : Entry) : List String :=
  let paragraphs :=
    entry.sentence :: (entry.detail?.toList ++ (entry.default?.map remark).toList)
  entry.heading :: (paragraphs.intersperse "").map indent

end Entry

/-- All options of a help text. -/
def entries (detailed : Bool) : List Entry :=
  Setting.all.map Setting.entry ++ [Flag.help, Flag.version].map (Flag.entry detailed)

/-- The text that describes the program. -/
def helpText (detailed : Bool) : String :=
  let about :=
    if detailed then
      ["Draw the charts of a C-BI evaluation run", "",
        "Every threshold selects the runs whose corresponding column is exactly equal to it. "
          ++ "The synonym threshold is replaced by each value of the sweep in the top-k similarity "
          ++ "and timing charts."]
    else ["Draw the charts of a C-BI evaluation run"]
  let options :=
    if detailed then [""].intercalate ((entries detailed).map Entry.detailedLines)
    else (entries detailed).flatMap Entry.summaryLines
  let lines := about ++ ["", "Usage: cbi-charts [OPTIONS]", "", "Options:"] ++ options
  String.join (lines.map fun line => line ++ "\n")

/-- The text that names the program's version. -/
def versionText : String := "cbi-charts 0.1.0\n"

end EvalCharts.CommandLine
