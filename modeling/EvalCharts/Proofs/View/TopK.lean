/-
Module: EvalCharts.Proofs.View.TopK
Purpose: The top-k view in terms of the raw runs: which windows have a point, what it is worth, and how
  it changes as the window grows.
Main exports: inWindow, topKPoints, topKSimilarity_series, topKSimilarity_of_selected, topKSimilarity_eq,
  meanBestSimilarity_le, topKSimilarity_drops, topKSimilarity_monotone
-/
import EvalCharts.Proofs.View.Selection
import EvalCharts.Proofs.BestValues

namespace EvalCharts

/-- The runs whose candidate rank is at most a bound. -/
def inWindow (bound : Float) (runs : List Run) : List Run :=
  runs.filter fun run => run.get .k ≤ bound

/-- The mean, over the test sentences, of the best similarity of each among some runs. -/
def meanBestSimilarity (runs : List Run) : Float :=
  meanOfLargest (fun run => run.get .id) (fun run => run.get .similarity) runs

/-- One point for each window up to a largest one that holds a run. -/
def topKPoints (maxK : Nat) (runs : List Run) : List (Float × Float) :=
  ((List.range' 1 maxK).filter fun k => inWindow (Float.ofNat k) runs ≠ []).map fun k =>
    (Float.ofNat k, meanBestSimilarity (inWindow (Float.ofNat k) runs))

/-! ### Windows -/

theorem windowPoint?_eq (runs : List Run) (k : Nat) :
    windowPoint? runs k =
      if inWindow (Float.ofNat k) runs = [] then none
      else some (Float.ofNat k, meanBestSimilarity (inWindow (Float.ofNat k) runs)) := by
  have hwindow : (Filter.everything.require (.atMost .k (Float.ofNat k))).select runs =
      inWindow (Float.ofNat k) runs := by
    apply List.filter_congr
    intro run _
    rw [Filter.accepts_require]
    rfl
  unfold windowPoint?
  simp only [hwindow, aggregate_whole]
  by_cases hnil : inWindow (Float.ofNat k) runs = []
  · simp only [hnil, if_true]
    rfl
  · simp only [hnil, if_false, Reduction.apply_meanOfBest hnil]
    rfl

theorem filterMap_windowPoint? (windows : List Nat) (runs : List Run) :
    windows.filterMap (windowPoint? runs) =
      (windows.filter fun k => inWindow (Float.ofNat k) runs ≠ []).map fun k =>
        (Float.ofNat k, meanBestSimilarity (inWindow (Float.ofNat k) runs)) := by
  induction windows with
  | nil => rfl
  | cons k windows ih =>
      rw [List.filterMap_cons, windowPoint?_eq, List.filter_cons]
      by_cases hnil : inWindow (Float.ofNat k) runs = []
      · simp only [hnil, if_true, ne_eq, not_true_eq_false, decide_false, Bool.false_eq_true, if_false, ih]
      · simp only [hnil, if_false, ne_eq, not_false_eq_true, decide_true, if_true, List.map_cons, ih]

theorem topKSimilarity_series (config : Config) (dataset : Dataset) :
    topKSimilarity config dataset = config.synMetaSweep.map fun synMeta =>
      ⟨sweepLabel synMeta, topKPoints config.maxK (sweepRuns config.thresholds synMeta dataset.runs)⟩ := by
  unfold topKSimilarity
  apply List.map_congr_left
  intro synMeta _
  rw [select_sweep]
  simp only [filterMap_windowPoint?]
  rfl

/-- Each series is made of the runs of its sweep value alone, whatever the swept threshold is. -/
theorem topKSimilarity_of_selected (config : Config) (dataset : Dataset) (other : Float → Float) :
    topKSimilarity config dataset = config.synMetaSweep.flatMap fun synMeta =>
      topKSimilarity
        { config with
          thresholds := { config.thresholds with synMeta := other synMeta }
          synMetaSweep := [synMeta] }
        ⟨sweepRuns config.thresholds synMeta dataset.runs⟩ := by
  rw [topKSimilarity_series, ← List.flatMap_pure_eq_map]
  congr 1
  funext synMeta
  rw [topKSimilarity_series]
  have hruns : sweepRuns { config.thresholds with synMeta := other synMeta } synMeta
      (sweepRuns config.thresholds synMeta dataset.runs) =
      sweepRuns config.thresholds synMeta dataset.runs := sweepRuns_sweepRuns _ _ _
  rw [List.map_cons, List.map_nil, hruns]
  rfl

/-- The top-k view lists the points of its windows for each value of the sweep, and a series depends on
    nothing but the runs that agree with its sweep value and with the six other thresholds. -/
theorem topKSimilarity_eq (config : Config) (dataset : Dataset) :
    topKSimilarity config dataset = config.synMetaSweep.map (fun synMeta =>
      ⟨sweepLabel synMeta,
        topKPoints config.maxK (sweepRuns config.thresholds synMeta dataset.runs)⟩) ∧
    ∀ other : Float → Float,
      topKSimilarity config dataset = config.synMetaSweep.flatMap fun synMeta =>
        topKSimilarity
          { config with
            thresholds := { config.thresholds with synMeta := other synMeta }
            synMetaSweep := [synMeta] }
          ⟨sweepRuns config.thresholds synMeta dataset.runs⟩ :=
  ⟨topKSimilarity_series config dataset, topKSimilarity_of_selected config dataset⟩

/-! ### Growing windows -/

/-- A larger window holds the runs of a smaller one. -/
theorem inWindow_subset {bound bound' : Float} (h : bound ≤ bound') (runs : List Run) :
    inWindow bound runs ⊆ inWindow bound' runs := by
  intro run hmem
  obtain ⟨hrun, hle⟩ := List.mem_filter.1 hmem
  rw [decide_eq_true_eq] at hle
  exact List.mem_filter.2 ⟨hrun, decide_eq_true (Double.le_of_le_of_le hle h)⟩

/-- More runs of the same test sentences have a larger mean of the best similarities. -/
theorem meanBestSimilarity_le {runs runs' : List Run} (hne : runs ≠ []) (hsub : runs ⊆ runs')
    (hfinite : ∀ run ∈ runs', (run.get .similarity).isFinite = true)
    (hentities : ∀ run ∈ runs', ∃ run' ∈ runs, Double.sameKey (run'.get .id) (run.get .id) = true) :
    meanBestSimilarity runs ≤ meanBestSimilarity runs' := by
  apply meanOfLargest_le hne hsub hfinite
  intro run hmem
  obtain ⟨run', hmem', hsame⟩ := hentities run hmem
  exact ⟨run', hmem', Double.sameKey_iff_rank.1 hsame⟩

/-- What a point of a series is worth, read off its own coordinate. -/
theorem of_mem_topKPoints {maxK : Nat} {runs : List Run} {point : Float × Float}
    (h : point ∈ topKPoints maxK runs) :
    inWindow point.1 runs ≠ [] ∧ point.2 = meanBestSimilarity (inWindow point.1 runs) := by
  obtain ⟨k, hk, rfl⟩ := List.mem_map.1 h
  exact ⟨of_decide_eq_true (List.mem_filter.1 hk).2, rfl⟩

/-! ### Candidates of a few sentences -/

/-- A run that agrees with the initial thresholds. -/
def candidate (id k similarity : Float) : Run where
  get
    | .id => id
    | .k => k
    | .similarity => similarity
    | .simMember => 0.9
    | .simMeta => 0.4
    | .synMember => 1.0
    | .synMeta => 5.0
    | .missing => 0.6
    | .maxDistance => 3.0
    | .ngramSize => 3.0
    | _ => 0.0

/-- A charting of two windows under a single value of the sweep. -/
def twoWindows : Config :=
  { Config.initial with synMetaSweep := [5.0], maxK := 2 }

/-- Two sentences, the second of which has its only candidate, a bad one, outside of the first window. -/
def lateCandidates : Dataset :=
  ⟨[candidate 1.0 1.0 0.9, candidate 2.0 2.0 0.1]⟩

/-- Two sentences that both have a candidate in the first window. -/
def steadyCandidates : Dataset :=
  ⟨[candidate 1.0 1.0 0.3, candidate 1.0 2.0 0.1, candidate 2.0 1.0 0.2, candidate 2.0 2.0 0.8]⟩

/-- What the view shows of these. -/
def steadySeries : Series :=
  ⟨"SynThr = 6", [(1.0, 0.25), (2.0, 0.55)]⟩

/-- A sentence that only enters a later window can lower the mean. -/
theorem topKSimilarity_drops :
    (∀ run ∈ lateCandidates.runs, (run.get .similarity).isFinite = true) ∧
      topKSimilarity twoWindows lateCandidates = [⟨"SynThr = 6", [(1.0, 0.9), (2.0, 0.5)]⟩] ∧
      ¬∀ series ∈ topKSimilarity twoWindows lateCandidates, ∀ point ∈ series.points,
        ∀ point' ∈ series.points, point.1 < point'.1 → point.2 ≤ point'.2 := by
  have hseries : topKSimilarity twoWindows lateCandidates =
      [⟨"SynThr = 6", [(1.0, 0.9), (2.0, 0.5)]⟩] := by decide +kernel
  refine ⟨by decide, hseries, ?_⟩
  intro h
  rw [hseries] at h
  have hle := h _ List.mem_cons_self (1.0, 0.9) List.mem_cons_self (2.0, 0.5)
    (List.mem_cons_of_mem _ List.mem_cons_self) (by decide)
  exact absurd hle (by decide)

/-- A larger window has no smaller mean, as long as it shows no test sentence for the first time. -/
theorem topKSimilarity_monotone (config : Config) (dataset : Dataset)
    (hfinite : ∀ run ∈ dataset.runs, (run.get .similarity).isFinite = true)
    (synMeta : Float) (series : Series)
    (hseries : (synMeta, series) ∈ config.synMetaSweep.zip (topKSimilarity config dataset))
    (point point' : Float × Float) (hpoint : point ∈ series.points) (hpoint' : point' ∈ series.points)
    (hlt : point.1 < point'.1)
    (hentities : ∀ run ∈ inWindow point'.1 (sweepRuns config.thresholds synMeta dataset.runs),
      ∃ run' ∈ inWindow point.1 (sweepRuns config.thresholds synMeta dataset.runs),
        Double.sameKey (run'.get .id) (run.get .id) = true) :
    point.2 ≤ point'.2 := by
  have hpoints : series.points =
      topKPoints config.maxK (sweepRuns config.thresholds synMeta dataset.runs) := by
    have hzip := List.zip_map' (f := id) (g := fun synMeta => Series.mk (sweepLabel synMeta)
      (topKPoints config.maxK (sweepRuns config.thresholds synMeta dataset.runs)))
      (l := config.synMetaSweep)
    rw [List.map_id, ← topKSimilarity_series] at hzip
    rw [hzip, List.mem_map] at hseries
    obtain ⟨value, -, heq⟩ := hseries
    obtain ⟨rfl, rfl⟩ := Prod.mk.inj heq
    rfl
  rw [hpoints] at hpoint hpoint'
  obtain ⟨hne, hvalue⟩ := of_mem_topKPoints hpoint
  obtain ⟨-, hvalue'⟩ := of_mem_topKPoints hpoint'
  rw [hvalue, hvalue']
  apply meanBestSimilarity_le hne (inWindow_subset (Double.le_of_lt hlt) _) _ hentities
  intro run hmem
  exact hfinite run (List.mem_filter.1 (List.mem_filter.1 hmem).1).1

theorem topKSimilarity_monotone_steady :
    topKSimilarity twoWindows steadyCandidates = [steadySeries] ∧ (0.25 : Float) ≤ 0.55 := by
  have hseries : topKSimilarity twoWindows steadyCandidates = [steadySeries] := by decide +kernel
  have hmem : (5.0, steadySeries) ∈
      twoWindows.synMetaSweep.zip (topKSimilarity twoWindows steadyCandidates) := by
    rw [hseries]
    exact List.mem_cons_self
  refine ⟨hseries, topKSimilarity_monotone twoWindows steadyCandidates (by decide) 5.0 steadySeries hmem
    (1.0, 0.25) (2.0, 0.55) List.mem_cons_self (List.mem_cons_of_mem _ List.mem_cons_self) (by decide)
    (by decide)⟩

end EvalCharts
