/-
Module: EvalCharts.Proofs.View.Selection
Purpose: Which runs the views look at. What is built by requiring and releasing conditions keeps just the
  runs that agree with the thresholds, with or without the one that is swept.
Main exports: Thresholds.meetsOthers, Thresholds.meets, select_baseFilter, sweepRuns, select_sweep,
  evenNgrams, select_evenNgrams
-/
import EvalCharts.View.Compute

namespace EvalCharts

namespace Thresholds

/-- The run agrees with all thresholds but the one that is swept. -/
def meetsOthers (thresholds : Thresholds) (run : Run) : Bool :=
  run.get .simMember == thresholds.simMember && run.get .simMeta == thresholds.simMeta &&
    run.get .synMember == thresholds.synMember && run.get .missing == thresholds.missing &&
    run.get .maxDistance == thresholds.maxDistance && run.get .ngramSize == thresholds.ngramSize

/-- The run agrees with all thresholds. -/
def meets (thresholds : Thresholds) (run : Run) : Bool :=
  thresholds.meetsOthers run && run.get .synMeta == thresholds.synMeta

theorem predicates_baseFilter (thresholds : Thresholds) :
    thresholds.baseFilter.predicates =
      thresholds.entries.map fun entry => .equals entry.1 entry.2 := rfl

theorem accepts_baseFilter (thresholds : Thresholds) (run : Run) :
    thresholds.baseFilter.accepts run = thresholds.meets run := by
  unfold Filter.accepts
  rw [predicates_baseFilter]
  simp only [entries, List.map_cons, List.map_nil, List.all_cons, List.all_nil, Predicate.accepts,
    meets, meetsOthers]
  ac_rfl

/-- Without the condition on the swept threshold the others remain. -/
theorem accepts_release (thresholds : Thresholds) (run : Run) :
    (thresholds.baseFilter.release .synMeta).accepts run = thresholds.meetsOthers run := by
  have hpredicates : (thresholds.baseFilter.release .synMeta).predicates =
      [.equals .simMember thresholds.simMember, .equals .simMeta thresholds.simMeta,
        .equals .synMember thresholds.synMember, .equals .missing thresholds.missing,
        .equals .maxDistance thresholds.maxDistance, .equals .ngramSize thresholds.ngramSize] := rfl
  unfold Filter.accepts
  rw [hpredicates]
  simp only [List.all_cons, List.all_nil, Predicate.accepts, meetsOthers]
  ac_rfl

end Thresholds

/-- The runs that agree with all thresholds. -/
def baseRuns (thresholds : Thresholds) (runs : List Run) : List Run :=
  runs.filter thresholds.meets

/-- The runs that agree with one value of the sweep and with all other thresholds. -/
def sweepRuns (thresholds : Thresholds) (synMeta : Float) (runs : List Run) : List Run :=
  runs.filter fun run => thresholds.meetsOthers run && run.get .synMeta == synMeta

/-- The runs with an even, positive number of ngrams. -/
def evenNgrams (runs : List Run) : List Run :=
  runs.filter fun run => Double.isEven (run.get .ngramsCount) && 0.0 < run.get .ngramsCount

theorem select_baseFilter (thresholds : Thresholds) (runs : List Run) :
    thresholds.baseFilter.select runs = baseRuns thresholds runs :=
  List.filter_congr fun run _ => thresholds.accepts_baseFilter run

theorem select_sweep (thresholds : Thresholds) (synMeta : Float) (runs : List Run) :
    ((thresholds.baseFilter.release .synMeta).require (.equals .synMeta synMeta)).select runs =
      sweepRuns thresholds synMeta runs := by
  apply List.filter_congr
  intro run _
  rw [Filter.accepts_require, Thresholds.accepts_release]
  rfl

theorem accepts_requireEvenNgrams (filter : Filter) (run : Run) :
    (requireEvenNgrams filter).accepts run = (filter.accepts run &&
      (Double.isEven (run.get .ngramsCount) && decide (0.0 < run.get .ngramsCount))) := by
  unfold requireEvenNgrams
  rw [Filter.accepts_require, Filter.accepts_require, Bool.and_assoc]
  rfl

theorem select_evenNgrams (thresholds : Thresholds) (runs : List Run) :
    (requireEvenNgrams thresholds.baseFilter).select runs =
      evenNgrams (baseRuns thresholds runs) := by
  unfold evenNgrams baseRuns
  rw [List.filter_filter]
  apply List.filter_congr
  intro run _
  rw [accepts_requireEvenNgrams, Thresholds.accepts_baseFilter, Bool.and_comm]

theorem select_evenNgrams_sweep (thresholds : Thresholds) (synMeta : Float) (runs : List Run) :
    ((requireEvenNgrams (thresholds.baseFilter.release .synMeta)).require
      (.equals .synMeta synMeta)).select runs =
      evenNgrams (sweepRuns thresholds synMeta runs) := by
  unfold evenNgrams sweepRuns
  rw [List.filter_filter]
  apply List.filter_congr
  intro run _
  rw [Filter.accepts_require, accepts_requireEvenNgrams, Thresholds.accepts_release,
    Predicate.accepts]
  ac_rfl

/-- Selecting the runs of a sweep value once more changes nothing. -/
theorem sweepRuns_sweepRuns (thresholds : Thresholds) (synMeta : Float) (runs : List Run) :
    sweepRuns thresholds synMeta (sweepRuns thresholds synMeta runs) =
      sweepRuns thresholds synMeta runs := by
  unfold sweepRuns
  rw [List.filter_filter]
  simp only [Bool.and_self]

end EvalCharts
