/-
Module: EvalCharts.View.Compute
Purpose: Computing the views of an evaluation from its runs.
Main exports: similarityByK, topKSimilarity, pruning, timing, ViewKind.compute, computeAll
-/
import EvalCharts.View.Basic
import EvalCharts.Config
import EvalCharts.Aggregate

namespace EvalCharts

/-- The points of groups that are keyed by a single column. -/
def pointsOf (groups : List (List Float × Float)) : List (Float × Float) :=
  groups.filterMap fun (key, value) => key.head?.map fun x => (x, value)

/-- The label of a series that belongs to one value of the sweep. The threshold counts from zero and
    the label from one. -/
def sweepLabel (synMeta : Float) : String :=
  "SynThr = " ++ Double.text (synMeta + 1.0)

/-- Keep only runs with an even, positive number of ngrams. -/
def requireEvenNgrams (filter : Filter) : Filter :=
  (filter.require (.even .ngramsCount)).require (.positive .ngramsCount)

/-- The mean similarity of the runs of interest for each candidate rank. -/
def similarityByK (config : Config) (dataset : Dataset) : List Series :=
  let runs := config.thresholds.baseFilter.select dataset.runs
  [⟨"C-BI", pointsOf (aggregate [.k] (.column .similarity) .mean runs)⟩]

/-- The mean, over the test sentences, of the best similarity among the candidates up to rank `k`, if
    there are any. -/
def windowPoint? (runs : List Run) (k : Nat) : Option (Float × Float) :=
  let bound := Float.ofNat k
  let window := (Filter.everything.require (.atMost .k bound)).select runs
  (aggregate [] (.column .similarity) (.meanOfBest .id) window).head?.map fun group =>
    (bound, group.2)

/-- The mean best similarity in each window of candidates, one series per value of the sweep. A window
    without runs has no point. -/
def topKSimilarity (config : Config) (dataset : Dataset) : List Series :=
  let base := config.thresholds.baseFilter.release .synMeta
  config.synMetaSweep.map fun synMeta =>
    let runs := (base.require (.equals .synMeta synMeta)).select dataset.runs
    ⟨sweepLabel synMeta, config.windows.filterMap (windowPoint? runs)⟩

/-- The mean numbers of candidate mappings for each number of ngrams. -/
def pruning (config : Config) (dataset : Dataset) : List Series :=
  let runs := (requireEvenNgrams config.thresholds.baseFilter).select dataset.runs
  let series (label : String) (column : Column) : Series :=
    ⟨label, pointsOf (aggregate [.ngramsCount] (.column column) .mean runs)⟩
  [series "All" .sentenceCount, series "Distinct" .sentenceCountPruned,
    series "Computed" .sentencePruned]

/-- The total processing time of a run, in milliseconds. -/
def processingTime : Measure :=
  .sum [.lemmatizationTime, .matchTime, .sentenceTime]

/-- The mean processing time in seconds for each number of ngrams, one series per value of the
    sweep. -/
def timing (config : Config) (dataset : Dataset) : List Series :=
  let base := requireEvenNgrams (config.thresholds.baseFilter.release .synMeta)
  config.synMetaSweep.map fun synMeta =>
    let runs := (base.require (.equals .synMeta synMeta)).select dataset.runs
    let points := pointsOf (aggregate [.ngramsCount] processingTime .mean runs)
    ⟨sweepLabel synMeta, points.map fun (x, milliseconds) => (x, milliseconds / 1000.0)⟩

/-- The view of one kind. -/
def ViewKind.compute (kind : ViewKind) (config : Config) (dataset : Dataset) : View :=
  match kind with
  | .similarityByK => ⟨kind, EvalCharts.similarityByK config dataset⟩
  | .topKSimilarity => ⟨kind, EvalCharts.topKSimilarity config dataset⟩
  | .pruning => ⟨kind, EvalCharts.pruning config dataset⟩
  | .timing => ⟨kind, EvalCharts.timing config dataset⟩

/-- The views of all kinds. -/
def computeAll (config : Config) (dataset : Dataset) : List View :=
  ViewKind.all.map fun kind => kind.compute config dataset

end EvalCharts
