/-
Module: EvalCharts.Config
Purpose: What a charting is asked for: where the results are, where the charts go, and which runs
  they show.
Main exports: Thresholds, Thresholds.baseFilter, Config, Config.initial, Config.windows,
  Config.firstWindows, Config.firstWindows_eq_take
-/
import EvalCharts.Selection

namespace EvalCharts

/-- The tuning parameters that single out the runs of interest. -/
structure Thresholds where
  simMember : Float
  simMeta : Float
  synMember : Float
  synMeta : Float
  ngramSize : Float
  missing : Float
  maxDistance : Float
deriving DecidableEq

namespace Thresholds

/-- The column that each threshold speaks about, in the order in which conditions are written. -/
def entries (thresholds : Thresholds) : List (Column × Float) :=
  [(.simMember, thresholds.simMember), (.simMeta, thresholds.simMeta),
    (.synMember, thresholds.synMember), (.synMeta, thresholds.synMeta),
    (.missing, thresholds.missing), (.maxDistance, thresholds.maxDistance),
    (.ngramSize, thresholds.ngramSize)]

/-- The filter that keeps the runs which match every threshold exactly. -/
def baseFilter (thresholds : Thresholds) : Filter :=
  thresholds.entries.foldl (fun filter (column, value) => filter.require (.equals column value))
    .everything

end Thresholds

/-- What a charting is asked for. -/
structure Config where
  /-- Path of the results file. -/
  input : String
  /-- Path of the directory for the charts. -/
  outputDir : String
  thresholds : Thresholds
  /-- Metadata synonym thresholds that are compared with each other. -/
  synMetaSweep : List Float
  /-- Largest candidate rank of the top-k windows. -/
  maxK : Nat
deriving DecidableEq

namespace Config

/-- What is charted unless something else is asked for. -/
def initial : Config where
  input := "resources/test/test.csv"
  outputDir := "resources/test/charts"
  thresholds :=
    { simMember := 0.9, simMeta := 0.4, synMember := 1.0, synMeta := 5.0, ngramSize := 3.0
      missing := 0.6, maxDistance := 3.0 }
  synMetaSweep := [1.0, 3.0, 5.0]
  maxK := 5

/-- The upper bounds of the top-k windows, ascending. -/
def windows (config : Config) : List Nat :=
  List.range' 1 config.maxK

/-- The first few windows, without listing the others. -/
def firstWindows (config : Config) (count : Nat) : List Nat :=
  List.range' 1 (min count config.maxK)

theorem firstWindows_eq_take (config : Config) (count : Nat) :
    config.firstWindows count = config.windows.take count := by
  unfold firstWindows windows
  apply List.ext_getElem
  · simp
  · intro i _ _
    simp

end Config

end EvalCharts
