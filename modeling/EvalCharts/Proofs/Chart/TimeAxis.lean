/-
Module: EvalCharts.Proofs.Chart.TimeAxis
Purpose: The vertical axis of the processing times, which goes from zero to ten percent above the largest
  mean. All means that are finite stand within it, whatever was measured: they are shown in seconds, and
  what is left of a number of milliseconds after the division leaves room for ten percent more.
Main exports: yRange_linear, linear_high_isFinite_iff, nonneg_mean, timing_axis
-/
import EvalCharts.Proofs.Chart.Categories
import EvalCharts.Proofs.Double.Scaling
import EvalCharts.Proofs.Sums
import EvalCharts.Proofs.View.Curves
import EvalCharts.Proofs.View.TopK

namespace EvalCharts

/-! ### Linear axes -/

theorem positive_headroom : Double.Positive 1.1 ∧ Double.unitsInOne ≤ Double.units 1.1 := by
  have hfinite : (1.1 : Float).isFinite = true := by decide
  refine ⟨⟨hfinite, by decide, by decide⟩, ?_⟩
  rw [← Double.unitsOf_one]
  exact Double.unitsOf_mono (Double.magnitude_lt hfinite).le (by decide)

section Linear

variable {view : View} (hscale : view.kind.scale = .linear)

include hscale

/-- The top of a linear axis comes from the largest value, or from none that is above zero. -/
theorem yRange_linear :
    ∃ greatest, 0.0 ≤ greatest ∧ greatest.isFinite = true ∧ (∀ y ∈ view.values, y ≤ greatest) ∧
      (0.0 < greatest → greatest ∈ view.values) ∧
      (Frame.ofView view).yRange = ⟨0.0, if 0.0 < greatest then greatest * 1.1 else 1.0⟩ := by
  have hfinite : ∀ y ∈ 0.0 :: view.values, y.isFinite = true := by
    intro y hy
    rcases List.mem_cons.1 hy with rfl | hmem
    · decide
    · exact (mem_values.1 hmem).2
  obtain ⟨hmem, hle⟩ := foldl_maximum fun y hy => Double.isNaN_of_isFinite (hfinite y hy)
  refine ⟨_, hle 0.0 List.mem_cons_self, hfinite _ hmem, fun y hy => hle y (List.mem_cons_of_mem _ hy), ?_,
    by rw [Frame.ofView, hscale]; rfl⟩
  intro hpos
  rcases List.mem_cons.1 hmem with hzero | hvalue
  · rw [hzero] at hpos
    exact absurd hpos (by decide)
  · exact hvalue

/-- A linear axis starts at zero, has an extent, and reaches all values, or is infinite. -/
theorem linear_extent :
    (Frame.ofView view).yRange.low = 0.0 ∧ 0.0 < (Frame.ofView view).yRange.high ∧
      ∀ y ∈ view.values, y ≤ (Frame.ofView view).yRange.high := by
  obtain ⟨greatest, hnonneg, hfinite, hle, -, hrange⟩ := yRange_linear hscale
  obtain ⟨hheadroom, hone⟩ := positive_headroom
  rw [hrange]
  by_cases hpos : 0.0 < greatest
  · have hbelow := Double.le_mul_of_one_le hnonneg hfinite hheadroom hone
    simp only [if_pos hpos]
    exact ⟨trivial, Double.lt_of_lt_of_rank_le hpos (Double.le_iff.1 hbelow).2.1 (Double.le_iff.1 hbelow).2.2,
      fun y hy => Double.le_of_le_of_le (hle y hy) hbelow⟩
  · have hzero : greatest ≤ 0.0 := Double.le_of_not_lt (by decide) (Double.isNaN_of_isFinite hfinite) hpos
    simp only [if_neg hpos]
    exact ⟨trivial, by decide, fun y hy =>
      Double.le_of_le_of_le (Double.le_of_le_of_le (hle y hy) hzero) (by decide)⟩

/-- A linear axis is finite just if ten percent more is for none of its values too much. -/
theorem linear_high_isFinite_iff :
    (Frame.ofView view).yRange.high.isFinite = true ↔
      ∀ y ∈ view.values, 0.0 < y → (y * 1.1).isFinite = true := by
  obtain ⟨greatest, hnonneg, hfinite, hle, hmem, hrange⟩ := yRange_linear hscale
  obtain ⟨hheadroom, hone⟩ := positive_headroom
  rw [hrange]
  constructor
  · intro htop y hy hpos
    have hfinitey := (mem_values.1 hy).2
    have habove := Double.lt_of_lt_of_rank_le hpos (Double.isNaN_of_isFinite hfinite)
      (Double.le_iff.1 (hle y hy)).2.2
    simp only [if_pos habove] at htop
    have hlow := Double.le_mul_of_one_le (Double.le_of_lt hpos) hfinitey hheadroom hone
    have hhigh := Double.mul_le_mul_right (hle y hy) hfinitey hfinite hheadroom
    exact Double.isFinite_of_le_of_le hlow hhigh hfinitey htop
  · intro hroom
    by_cases hpos : 0.0 < greatest
    · simp only [if_pos hpos]
      exact hroom greatest (hmem hpos) hpos
    · simp only [if_neg hpos]
      decide

end Linear

/-! ### Times -/

/-- Dividing by a thousand leaves room for ten percent more. -/
theorem isFinite_headroom {x : Float} (h : (x / 1000.0).isFinite = true) :
    (x / 1000.0 * 1.1).isFinite = true := by
  have hd : Double.Positive 1000.0 := ⟨by decide, by decide, by decide⟩
  obtain ⟨hheadroom, -⟩ := positive_headroom
  obtain ⟨hlow, hhigh⟩ := Double.le_greatest_of_isFinite (Double.isFinite_of_isFinite_div h hd)
  have hlow' := Double.div_le_div_right hlow hd
  have hhigh' := Double.div_le_div_right hhigh hd
  exact Double.isFinite_of_le_of_le
    (Double.mul_le_mul_right hlow' (by decide +kernel) h hheadroom)
    (Double.mul_le_mul_right hhigh' h (by decide +kernel) hheadroom) (by decide +kernel) (by decide +kernel)

/-- A sum of values that are not negative is not negative, be it infinite. -/
theorem nonneg_total {values : List Float} (h : ∀ value ∈ values, 0.0 ≤ value) : 0.0 ≤ total values := by
  induction values using List.reverseRecOn with
  | nil => decide
  | append_singleton values value ih =>
      rw [total_concat]
      exact Double.nonneg_add (ih fun v hv => h v (List.mem_append_left _ hv)) (h value (by simp))

/-- A mean of values that are not negative is not negative, unless it is the quotient of two infinities. -/
theorem nonneg_mean {values : List Float} (hne : values ≠ []) (h : ∀ value ∈ values, 0.0 ≤ value)
    (hnum : (mean values).isNaN = false) : 0.0 ≤ mean values := by
  rw [mean_eq_total] at hnum ⊢
  refine Double.nonneg_div (nonneg_total h) ?_ hnum
  have hone : (0.0 : Float) < Float.ofNat 1 := by decide
  have hle := Double.ofNat_le_ofNat (Nat.one_le_iff_ne_zero.2 (mt List.length_eq_zero_iff.1 hne))
  exact Double.lt_of_lt_of_rank_le hone (Double.isNaN_ofNat _) (Double.le_iff.1 hle).2.2

/-- The processing times before they are turned into seconds. -/
def timingInMilliseconds (config : Config) (dataset : Dataset) : View :=
  ⟨.timing, (ViewKind.timing.curves config).map fun curve =>
    Curve.series { curve with scaled := id } dataset.runs⟩

/-- Every point of the processing times is a mean in milliseconds over a thousand. -/
theorem of_mem_timing {config : Config} {dataset : Dataset} {series : Series} {point : Float × Float}
    (hseries : series ∈ (ViewKind.timing.compute config dataset).series) (hpoint : point ∈ series.points) :
    ∃ runs ≠ [], (∀ run ∈ runs, run ∈ dataset.runs) ∧
      point.2 = mean (runs.map fun run =>
        run.get .lemmatizationTime + run.get .matchTime + run.get .sentenceTime) / 1000.0 := by
  rw [ViewKind.compute, timing_eq] at hseries
  obtain ⟨synMeta, -, rfl⟩ := List.mem_map.1 hseries
  obtain ⟨timed, htimed, rfl⟩ := List.mem_map.1 hpoint
  obtain ⟨first, hfirst, -, hvalue⟩ := of_mem_meanCurve htimed
  refine ⟨_, List.ne_nil_of_mem (List.mem_of_mem_head? hfirst), ?_, by rw [hvalue]⟩
  intro run hrun
  exact List.mem_of_mem_filter (List.mem_of_mem_filter (List.mem_of_mem_filter hrun))

theorem isFinite_timing_high (config : Config) (dataset : Dataset) :
    (Frame.ofView (ViewKind.timing.compute config dataset)).yRange.high.isFinite = true := by
  rw [linear_high_isFinite_iff rfl]
  intro y hy _
  obtain ⟨⟨series, hseries, point, hpoint, rfl⟩, hfinite⟩ := mem_values.1 hy
  obtain ⟨runs, -, -, hvalue⟩ := of_mem_timing hseries hpoint
  rw [hvalue] at hfinite ⊢
  exact isFinite_headroom hfinite

theorem nonneg_timing {config : Config} {dataset : Dataset}
    (htimes : ∀ run ∈ dataset.runs, 0.0 ≤ run.get .lemmatizationTime ∧ 0.0 ≤ run.get .matchTime ∧
      0.0 ≤ run.get .sentenceTime) {series : Series} {point : Float × Float}
    (hseries : series ∈ (ViewKind.timing.compute config dataset).series) (hpoint : point ∈ series.points)
    (hnum : point.2.isNaN = false) : 0.0 ≤ point.2 := by
  obtain ⟨runs, hne, hmem, hvalue⟩ := of_mem_timing hseries hpoint
  rw [hvalue] at hnum ⊢
  refine Double.nonneg_div (nonneg_mean (mt List.map_eq_nil_iff.1 hne) ?_ ?_) (by decide) hnum
  · intro value hvalue
    obtain ⟨run, hrun, rfl⟩ := List.mem_map.1 hvalue
    obtain ⟨hlemmatization, hmatch, hsentence⟩ := htimes run (hmem run hrun)
    exact Double.nonneg_add (Double.nonneg_add hlemmatization hmatch) hsentence
  · exact Double.isNaN_of_isNaN_div hnum

/-- A run that took some milliseconds. -/
def timedRun (milliseconds : Float) : Run :=
  ((candidate 1.0 1.0 0.5).set .ngramsCount 2.0).set .sentenceTime milliseconds

/-- The axis of the processing times is finite and reaches every mean that is finite, whatever the columns
    hold, and no bar leaves it as long as no phase took a negative time. Ten percent more is never too much
    for a number of seconds, but it can be for one of milliseconds. -/
theorem timing_axis (config : Config) (dataset : Dataset) :
    let view := ViewKind.timing.compute config dataset
    let range := (Frame.ofView view).yRange
    (range.low = 0.0 ∧ 0.0 < range.high ∧ range.high.isFinite = true) ∧
      (∀ series ∈ view.series, ∀ point ∈ series.points, point.2.isFinite = true → point.2 ≤ range.high) ∧
      ((∀ run ∈ dataset.runs, 0.0 ≤ run.get .lemmatizationTime ∧ 0.0 ≤ run.get .matchTime ∧
          0.0 ≤ run.get .sentenceTime) →
        ∀ series ∈ view.series, ∀ point ∈ series.points, point.2.isFinite = true → 0.0 ≤ point.2) ∧
      ((Frame.ofView (timingInMilliseconds config dataset)).yRange.high.isFinite = true ↔
        ∀ y ∈ (timingInMilliseconds config dataset).values, 0.0 < y → (y * 1.1).isFinite = true) ∧
      (Frame.ofView (timingInMilliseconds twoWindows ⟨[timedRun 1.7e308]⟩)).yRange.high.isFinite = false := by
  intro view range
  have hscale : view.kind.scale = .linear := rfl
  obtain ⟨hlow, hpos, hreaches⟩ := linear_extent hscale
  refine ⟨⟨hlow, hpos, isFinite_timing_high config dataset⟩, ?_, ?_, linear_high_isFinite_iff rfl, ?_⟩
  · intro series hseries point hpoint hfinite
    exact hreaches _ (mem_values.2 ⟨⟨series, hseries, point, hpoint, rfl⟩, hfinite⟩)
  · intro htimes series hseries point hpoint hfinite
    exact nonneg_timing htimes hseries hpoint (Double.isNaN_of_isFinite hfinite)
  · decide +kernel

theorem timing_axis_short :
    (ViewKind.timing.compute twoWindows ⟨[timedRun 1500.0]⟩).series = [⟨"SynThr = 6", [(2.0, 1.5)]⟩] ∧
      1.5 ≤ (Frame.ofView (ViewKind.timing.compute twoWindows ⟨[timedRun 1500.0]⟩)).yRange.high ∧
      (0.0 : Float) ≤ 1.5 := by
  have hseries : (ViewKind.timing.compute twoWindows ⟨[timedRun 1500.0]⟩).series =
      [⟨"SynThr = 6", [(2.0, 1.5)]⟩] := by decide +kernel
  obtain ⟨-, hreaches, hnonneg, -⟩ := timing_axis twoWindows ⟨[timedRun 1500.0]⟩
  rw [hseries] at hreaches hnonneg
  exact ⟨hseries, hreaches _ List.mem_cons_self (2.0, 1.5) List.mem_cons_self (by decide),
    hnonneg (by decide +kernel) _ List.mem_cons_self (2.0, 1.5) List.mem_cons_self (by decide)⟩

end EvalCharts
