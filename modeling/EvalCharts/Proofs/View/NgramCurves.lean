/-
Module: EvalCharts.Proofs.View.NgramCurves
Purpose: The views over the number of ngrams. Their points stand at the even, positive whole numbers that
  the selected runs have there, in ascending order, and a run with such a number counts at that number and
  nowhere else.
Main exports: meanAtCount, IsNgramCurve, isNgramCurve_meanCurve, ngram_views
-/
import EvalCharts.Proofs.View.MeanCurves
import EvalCharts.Proofs.Double.Parity

namespace EvalCharts

/-- The mean of a measure over the runs that have just some number of ngrams. -/
def meanAtCount (measure : Run → Float) (runs : List Run) (x : Float) : Float :=
  mean ((runs.filter fun run => run.get .ngramsCount = x).map measure)

/-- The points that show something of each even count among the numbers of ngrams of some runs, in
    ascending order. -/
structure IsNgramCurve (runs : List Run) (shown : Float → Float) (points : List (Float × Float)) :
    Prop where
  ascending : points.Pairwise fun point point' => point.1 < point'.1
  counts : ∀ x, (∃ y, (x, y) ∈ points) ↔
    Double.IsEvenCount x ∧ ∃ run ∈ runs, run.get .ngramsCount = x
  value : ∀ x y, (x, y) ∈ points → y = shown x

theorem mem_evenNgrams {runs : List Run} {run : Run} :
    run ∈ evenNgrams runs ↔ run ∈ runs ∧ Double.IsEvenCount (run.get .ngramsCount) := by
  rw [evenNgrams, List.mem_filter, Bool.and_eq_true, decide_eq_true_eq, Double.isEven_and_pos_iff]

/-- The runs with the key of an even count have just that number of ngrams. -/
theorem runsAt_evenNgrams {x : Float} (hx : Double.IsEvenCount x) (runs : List Run) :
    runsAt (fun run => run.get .ngramsCount) (evenNgrams runs) (Double.rank x) =
      runs.filter fun run => run.get .ngramsCount = x := by
  obtain ⟨heven, hpos⟩ := Double.isEven_and_pos_iff.2 hx
  rw [runsAt_rank, evenNgrams, List.filter_filter]
  apply List.filter_congr
  intro run _
  rw [Bool.eq_iff_iff, Bool.and_eq_true, Bool.and_eq_true, decide_eq_true_eq, decide_eq_true_eq]
  constructor
  · rintro ⟨hsame, -, hpos'⟩
    exact Double.eq_of_sameKey_of_pos hpos' hsame
  · rintro rfl
    exact ⟨Double.sameKey_iff_rank.2 rfl, heven, hpos⟩

/-- A point of the curve over the runs with even counts. -/
theorem of_mem_meanCurve_evenNgrams {measure : Run → Float} {runs : List Run} {x y : Float}
    (h : (x, y) ∈ meanCurve (fun run => run.get .ngramsCount) measure (evenNgrams runs)) :
    (Double.IsEvenCount x ∧ ∃ run ∈ runs, run.get .ngramsCount = x) ∧ y = meanAtCount measure runs x := by
  obtain ⟨first, hfirst, hkey, hvalue⟩ := of_mem_meanCurve h
  obtain ⟨hmem, heven⟩ := mem_evenNgrams.1 (of_head?_runsAt hfirst).1
  rw [hkey] at heven
  rw [runsAt_evenNgrams heven] at hvalue
  exact ⟨⟨heven, first, hmem, hkey⟩, hvalue.symm⟩

theorem isNgramCurve_meanCurve (measure : Run → Float) (runs : List Run) :
    IsNgramCurve runs (meanAtCount measure runs)
      (meanCurve (fun run => run.get .ngramsCount) measure (evenNgrams runs)) where
  ascending := by
    have hcurve := isMeanCurve_meanCurve (fun run => run.get .ngramsCount) measure (evenNgrams runs)
    refine hcurve.ascending.imp_of_mem fun {point point'} hpoint hpoint' hrank => ?_
    obtain ⟨⟨hcount, -⟩, -⟩ := of_mem_meanCurve_evenNgrams hpoint
    obtain ⟨⟨hcount', -⟩, -⟩ := of_mem_meanCurve_evenNgrams hpoint'
    exact Double.lt_iff.2
      ⟨Double.isNaN_of_isFinite hcount.1, Double.isNaN_of_isFinite hcount'.1, hrank⟩
  counts x := by
    have hcurve := isMeanCurve_meanCurve (fun run => run.get .ngramsCount) measure (evenNgrams runs)
    constructor
    · rintro ⟨y, hpoint⟩
      exact (of_mem_meanCurve_evenNgrams hpoint).1
    · rintro ⟨hcount, run, hrun, rfl⟩
      obtain ⟨⟨x, y⟩, hpoint, hrank⟩ :=
        (hcurve.keys _).2 ⟨run, mem_evenNgrams.2 ⟨hrun, hcount⟩, rfl⟩
      -- above zero there is one double for each key
      have hpos := (Double.isEven_and_pos_iff.2 hcount).2
      have heq := Double.eq_of_sameKey_of_pos hpos (Double.sameKey_iff_rank.2 hrank.symm)
      exact ⟨y, heq ▸ hpoint⟩
  value _ _ hpoint := (of_mem_meanCurve_evenNgrams hpoint).2

/-- Scaling a curve leaves its points where they are. -/
theorem IsNgramCurve.scale {runs : List Run} {shown : Float → Float} {points : List (Float × Float)}
    (h : IsNgramCurve runs shown points) (scaled : Float → Float) :
    IsNgramCurve runs (fun x => scaled (shown x)) (points.map fun (x, y) => (x, scaled y)) where
  ascending := List.pairwise_map.2 h.ascending
  counts x := by
    rw [← h.counts]
    constructor
    · rintro ⟨_, hpoint⟩
      obtain ⟨⟨x', y⟩, hmem, heq⟩ := List.mem_map.1 hpoint
      obtain ⟨rfl, -⟩ := Prod.mk.inj heq
      exact ⟨y, hmem⟩
    · rintro ⟨y, hpoint⟩
      exact ⟨scaled y, List.mem_map.2 ⟨(x, y), hpoint, rfl⟩⟩
  value x _ hpoint := by
    obtain ⟨⟨x', y⟩, hmem, heq⟩ := List.mem_map.1 hpoint
    obtain ⟨rfl, rfl⟩ := Prod.mk.inj heq
    exact congrArg scaled (h.value _ _ hmem)

/-- The pruning and the timing view have a point just at the even, positive numbers of ngrams of the runs
    that they select, and its value is taken from the runs with that number. Such a number is above zero
    and leaves nothing when it is divided by two. -/
theorem ngram_views (config : Config) (dataset : Dataset) :
    List.Forall₂ (fun column series =>
        let runs := baseRuns config.thresholds dataset.runs
        IsNgramCurve runs (meanAtCount (fun run => run.get column) runs) series.points)
      [.sentenceCount, .sentenceCountPruned, .sentencePruned] (pruning config dataset) ∧
    List.Forall₂ (fun synMeta series =>
        let runs := sweepRuns config.thresholds synMeta dataset.runs
        let milliseconds (run : Run) : Float :=
          run.get .lemmatizationTime + run.get .matchTime + run.get .sentenceTime
        IsNgramCurve runs (fun x => meanAtCount milliseconds runs x / 1000.0) series.points)
      config.synMetaSweep (timing config dataset) ∧
    ∀ x, Double.IsEvenCount x ↔ (Double.remainder x 2.0 == 0.0) = true ∧ 0.0 < x := by
  refine ⟨?_, ?_, ?_⟩
  · rw [pruning_eq]
    exact .cons (isNgramCurve_meanCurve _ _)
      (.cons (isNgramCurve_meanCurve _ _) (.cons (isNgramCurve_meanCurve _ _) .nil))
  · rw [timing_eq, List.forall₂_map_right_iff, List.forall₂_same]
    exact fun synMeta _ => (isNgramCurve_meanCurve _ _).scale fun milliseconds => milliseconds / 1000.0
  · intro x
    rw [← Double.isEven_eq_remainder, Double.isEven_and_pos_iff]

end EvalCharts
