/-
Module: EvalCharts.Proofs.View.Curves
Purpose: The views of means as curves over the raw runs. A curve says which runs it selects, by which key
  they are put together, what is averaged over them, and what becomes of a mean before it is shown.
Main exports: Curve, Curve.points, ViewKind.curves, compute_eq_curves, evenNgrams_of_mem_curves
-/
import EvalCharts.Proofs.View.MeanCurves

namespace EvalCharts

/-- A series that shows the mean of a measure for each key of the runs it selects. -/
structure Curve where
  label : String
  selects : Run → Bool
  key : Run → Float
  measure : Run → Float
  /-- What becomes of a mean before it is shown. -/
  scaled : Float → Float

namespace Curve

variable (curve : Curve) (runs : List Run)

/-- The runs that a curve is made of. -/
def selected : List Run :=
  runs.filter curve.selects

/-- The measures of the selected runs with one key, in the order of the runs. -/
def measuresAt (x : Float) : List Float :=
  ((curve.selected runs).filter fun run => Double.sameKey (curve.key run) x).map curve.measure

/-- The points of a curve. -/
def points : List (Float × Float) :=
  (meanCurve curve.key curve.measure (curve.selected runs)).map fun (x, y) => (x, curve.scaled y)

/-- A curve as a series of a view. -/
def series : Series :=
  ⟨curve.label, curve.points runs⟩

theorem measuresAt_eq (x : Float) :
    curve.measuresAt runs x =
      (runsAt curve.key (curve.selected runs) (Double.rank x)).map curve.measure := by
  rw [runsAt_rank, measuresAt]

/-- A point shows the key of one of the selected runs. -/
theorem exists_of_mem_points {curve : Curve} {runs : List Run} {point : Float × Float}
    (h : point ∈ curve.points runs) : ∃ run ∈ curve.selected runs, curve.key run = point.1 := by
  obtain ⟨mean, hmean, rfl⟩ := List.mem_map.1 h
  obtain ⟨first, hfirst, hkey, -⟩ := of_mem_meanCurve hmean
  exact ⟨first, (of_head?_runsAt hfirst).1, hkey⟩

end Curve

/-- The curves of the views of means. -/
def ViewKind.curves (kind : ViewKind) (config : Config) : List Curve :=
  let isEven (run : Run) : Bool :=
    Double.isEven (run.get .ngramsCount) && 0.0 < run.get .ngramsCount
  match kind with
  | .similarityByK =>
    [{ label := "C-BI"
       selects := config.thresholds.meets
       key := fun run => run.get .k
       measure := fun run => run.get .similarity
       scaled := id }]
  | .topKSimilarity => []
  | .pruning =>
    [("All", Column.sentenceCount), ("Distinct", Column.sentenceCountPruned),
      ("Computed", Column.sentencePruned)].map fun (label, column) =>
        { label
          selects := fun run => isEven run && config.thresholds.meets run
          key := fun run => run.get .ngramsCount
          measure := fun run => run.get column
          scaled := id }
  | .timing =>
    config.synMetaSweep.map fun synMeta =>
      { label := sweepLabel synMeta
        selects := fun run =>
          isEven run && (config.thresholds.meetsOthers run && run.get .synMeta == synMeta)
        key := fun run => run.get .ngramsCount
        measure := fun run =>
          run.get .lemmatizationTime + run.get .matchTime + run.get .sentenceTime
        scaled := fun milliseconds => milliseconds / 1000.0 }

/-- The views of means are made of curves. -/
theorem compute_eq_curves {kind : ViewKind} (h : kind ≠ .topKSimilarity) (config : Config)
    (dataset : Dataset) :
    kind.compute config dataset =
      ⟨kind, (kind.curves config).map fun curve => curve.series dataset.runs⟩ := by
  cases kind with
  | similarityByK =>
      rw [ViewKind.compute, similarityByK_eq]
      simp [ViewKind.curves, Curve.series, Curve.points, Curve.selected, baseRuns]
  | topKSimilarity => exact absurd rfl h
  | pruning =>
      rw [ViewKind.compute, pruning_eq]
      simp [ViewKind.curves, Curve.series, Curve.points, Curve.selected, baseRuns, evenNgrams]
  | timing =>
      rw [ViewKind.compute, timing_eq]
      simp [ViewKind.curves, Curve.series, Curve.points, Curve.selected, sweepRuns, evenNgrams,
        Function.comp_def]

/-- The keys of the views of ngrams are even and positive. -/
theorem evenNgrams_of_mem_curves {kind : ViewKind} (hkind : kind ≠ .similarityByK) {config : Config}
    {curve : Curve} (hcurve : curve ∈ kind.curves config) {runs : List Run} {run : Run}
    (hrun : run ∈ curve.selected runs) :
    Double.isEven (curve.key run) = true ∧ 0.0 < curve.key run := by
  have hselects := (List.mem_filter.1 hrun).2
  cases kind with
  | similarityByK => exact absurd rfl hkind
  | topKSimilarity => exact absurd hcurve List.not_mem_nil
  | pruning =>
      obtain ⟨entry, -, rfl⟩ := List.mem_map.1 hcurve
      simp only [Bool.and_eq_true, decide_eq_true_eq] at hselects
      exact hselects.1
  | timing =>
      obtain ⟨synMeta, -, rfl⟩ := List.mem_map.1 hcurve
      simp only [Bool.and_eq_true, decide_eq_true_eq] at hselects
      exact hselects.1

end EvalCharts
