/-
Module: EvalCharts.Proofs.View.MeanCurves
Purpose: The views that show means are curves of means over the raw runs: one point for each key of the
  selected runs, in ascending order of the keys, worth the mean of the measures of the runs with that key.
Main exports: IsMeanCurve, isMeanCurve_meanCurve, processingTime_of, mean_views
-/
import EvalCharts.Proofs.View.Selection
import EvalCharts.Proofs.Aggregation
import EvalCharts.Proofs.Double.Monotone

namespace EvalCharts

/-- The curve of the means of a measure over some runs. The points stand in strictly ascending order of
    their keys, there is one for each key of the runs, a point shows the key of the first of its runs, and
    its value is the sum of their measures, in the order of the runs, divided by their number. -/
structure IsMeanCurve (key measure : Run → Float) (runs : List Run)
    (points : List (Float × Float)) : Prop where
  ascending : points.Pairwise fun point point' => Double.rank point.1 < Double.rank point'.1
  keys : ∀ p, (∃ point ∈ points, Double.rank point.1 = p) ↔ ∃ run ∈ runs, Double.rank (key run) = p
  first : ∀ point ∈ points,
    ((runs.filter fun run => Double.sameKey (key run) point.1).head?).map key = some point.1
  value : ∀ point ∈ points,
    point.2 = ((runs.filter fun run => Double.sameKey (key run) point.1).map measure).foldl
        (fun sum value => sum + value) 0.0 /
      Float.ofNat (runs.filter fun run => Double.sameKey (key run) point.1).length

theorem runsAt_rank (key : Run → Float) (runs : List Run) (x : Float) :
    runsAt key runs (Double.rank x) = runs.filter fun run => Double.sameKey (key run) x := by
  unfold runsAt Double.sameKey
  apply List.filter_congr
  intro run _
  rw [Bool.beq_eq_decide_eq]

/-- Each point of a curve is the mean at the place of its key. -/
theorem of_mem_meanCurve {key measure : Run → Float} {runs : List Run} {point : Float × Float}
    (h : point ∈ meanCurve key measure runs) :
    ∃ first, (runsAt key runs (Double.rank point.1)).head? = some first ∧ key first = point.1 ∧
      mean ((runsAt key runs (Double.rank point.1)).map measure) = point.2 := by
  unfold meanCurve at h
  obtain ⟨p, hp, hpoint⟩ := List.mem_filterMap.1 h
  obtain ⟨first, hfirst, -⟩ := classAt?_of_mem hp
  have hmem := List.mem_filter.1 (List.mem_of_mem_head? hfirst)
  unfold meanAt? at hpoint
  rw [hfirst, Option.map_some, Option.some.injEq] at hpoint
  have hrank : Double.rank point.1 = p := by
    rw [← hpoint]
    exact of_decide_eq_true hmem.2
  rw [hrank]
  exact ⟨first, hfirst, congrArg Prod.fst hpoint, congrArg Prod.snd hpoint⟩

theorem isMeanCurve_meanCurve (key measure : Run → Float) (runs : List Run) :
    IsMeanCurve key measure runs (meanCurve key measure runs) where
  ascending := by
    have hasc := places_ascending (fun run => Double.rank (key run)) runs
    rw [← meanCurve_places key measure runs] at hasc
    exact List.pairwise_map.1 hasc
  keys p := by
    have hmem : p ∈ places (fun run => Double.rank (key run)) runs ↔ _ := mem_places
    rw [← meanCurve_places key measure runs, List.mem_map] at hmem
    exact hmem
  first point h := by
    obtain ⟨first, hfirst, hkey, -⟩ := of_mem_meanCurve h
    rw [← runsAt_rank, hfirst, Option.map_some, hkey]
  value point h := by
    obtain ⟨first, -, -, hvalue⟩ := of_mem_meanCurve h
    rw [← runsAt_rank, ← hvalue, mean, List.length_map]

/-- Curves over the same runs and keys have the same keys, whatever they measure. -/
theorem meanCurve_keys (key measure measure' : Run → Float) (runs : List Run) :
    (meanCurve key measure runs).map Prod.fst = (meanCurve key measure' runs).map Prod.fst := by
  unfold meanCurve
  rw [List.map_filterMap, List.map_filterMap]
  apply List.filterMap_congr
  intro p _
  simp only [meanAt?, Option.map_map, Function.comp_def]

/-! ### From groups to points -/

theorem pointsOf_aggregate (column : Column) (measure : Measure) (runs : List Run) :
    pointsOf (aggregate [column] measure .mean runs) =
      meanCurve (fun run => run.get column) measure.of runs := by
  unfold pointsOf
  rw [aggregate_single, List.filterMap_map]
  exact List.filterMap_some

/-- The processing time of a run is the sum of the times of its phases. -/
theorem processingTime_of (run : Run) :
    processingTime.of run =
      run.get .lemmatizationTime + run.get .matchTime + run.get .sentenceTime := by
  simp only [processingTime, Measure.of, List.foldl_cons, List.foldl_nil, Double.negative_zero_add]

theorem similarityByK_eq (config : Config) (dataset : Dataset) :
    similarityByK config dataset =
      [⟨"C-BI", meanCurve (fun run => run.get .k) (fun run => run.get .similarity)
        (baseRuns config.thresholds dataset.runs)⟩] := by
  unfold similarityByK
  rw [select_baseFilter]
  simp only [pointsOf_aggregate]
  rfl

theorem pruning_eq (config : Config) (dataset : Dataset) :
    pruning config dataset =
      [("All", Column.sentenceCount), ("Distinct", Column.sentenceCountPruned),
        ("Computed", Column.sentencePruned)].map fun (label, column) =>
          ⟨label, meanCurve (fun run => run.get .ngramsCount) (fun run => run.get column)
            (evenNgrams (baseRuns config.thresholds dataset.runs))⟩ := by
  unfold pruning
  rw [select_evenNgrams]
  simp only [pointsOf_aggregate]
  rfl

theorem timing_eq (config : Config) (dataset : Dataset) :
    timing config dataset =
      config.synMetaSweep.map fun synMeta =>
        ⟨sweepLabel synMeta, (meanCurve (fun run => run.get .ngramsCount)
          (fun run => run.get .lemmatizationTime + run.get .matchTime + run.get .sentenceTime)
          (evenNgrams (sweepRuns config.thresholds synMeta dataset.runs))).map
            fun (x, milliseconds) => (x, milliseconds / 1000.0)⟩ := by
  unfold timing
  apply List.map_congr_left
  intro synMeta _
  rw [select_evenNgrams_sweep]
  simp only [pointsOf_aggregate, processingTime_of]

/-- All series of the pruning view have the same keys. -/
theorem pruning_keys {config : Config} {dataset : Dataset} {series series' : Series}
    (h : series ∈ pruning config dataset) (h' : series' ∈ pruning config dataset) :
    series.points.map Prod.fst = series'.points.map Prod.fst := by
  rw [pruning_eq] at h h'
  obtain ⟨entry, -, rfl⟩ := List.mem_map.1 h
  obtain ⟨entry', -, rfl⟩ := List.mem_map.1 h'
  exact meanCurve_keys _ _ _ _

/-- The three views of means are curves of means over the raw runs. -/
theorem mean_views (config : Config) (dataset : Dataset) :
    similarityByK config dataset =
      [⟨"C-BI", meanCurve (fun run => run.get .k) (fun run => run.get .similarity)
        (baseRuns config.thresholds dataset.runs)⟩] ∧
    pruning config dataset =
      [("All", Column.sentenceCount), ("Distinct", Column.sentenceCountPruned),
        ("Computed", Column.sentencePruned)].map (fun (label, column) =>
          ⟨label, meanCurve (fun run => run.get .ngramsCount) (fun run => run.get column)
            (evenNgrams (baseRuns config.thresholds dataset.runs))⟩) ∧
    (∀ series ∈ pruning config dataset, ∀ series' ∈ pruning config dataset,
      series.points.map Prod.fst = series'.points.map Prod.fst) ∧
    timing config dataset =
      config.synMetaSweep.map (fun synMeta =>
        ⟨sweepLabel synMeta, (meanCurve (fun run => run.get .ngramsCount)
          (fun run => run.get .lemmatizationTime + run.get .matchTime + run.get .sentenceTime)
          (evenNgrams (sweepRuns config.thresholds synMeta dataset.runs))).map
            fun (x, milliseconds) => (x, milliseconds / 1000.0)⟩) ∧
    ∀ key measure runs, IsMeanCurve key measure runs (meanCurve key measure runs) :=
  ⟨similarityByK_eq config dataset, pruning_eq config dataset,
    fun _ h _ h' => pruning_keys h h', timing_eq config dataset, isMeanCurve_meanCurve⟩

end EvalCharts
