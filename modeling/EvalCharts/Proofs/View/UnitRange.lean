/-
Module: EvalCharts.Proofs.View.UnitRange
Purpose: The views whose vertical axis is fixed from zero to one. Where all similarities lie between zero
  and one so do their means, rounding included, because a running sum never passes the number of its
  summands; hence no point of these views leaves the axis.
Main exports: InUnit, total_le_count, inUnit_mean, inUnit_meanOfLargest, unit_views
-/
import EvalCharts.Proofs.Sums
import EvalCharts.Proofs.View.MeanCurves
import EvalCharts.Proofs.View.TopK
import EvalCharts.Chart.Frame

namespace EvalCharts

/-- The value lies between zero and one. -/
def InUnit (x : Float) : Prop :=
  0.0 ≤ x ∧ x ≤ 1.0

theorem InUnit.isFinite {x : Float} (h : InUnit x) : x.isFinite = true := by
  obtain ⟨-, hnum, hlow⟩ := Double.le_iff.1 h.1
  obtain ⟨-, -, hhigh⟩ := Double.le_iff.1 h.2
  have hzero : Double.rank 0.0 = 0 := by decide
  have hone : Double.rank 1.0 < Double.infiniteMagnitude := by decide
  have hinf : 0 < (Double.infiniteMagnitude : Int) := by decide
  exact Double.isFinite_of_rank hnum (by omega) (by omega)

/-! ### Sums and counts -/

/-- A running sum of values up to one never passes their number. -/
theorem total_le_count {values : List Float} (hlength : values.length ≤ 2 ^ 53)
    (h : ∀ value ∈ values, InUnit value) :
    0.0 ≤ total values ∧ total values ≤ Float.ofNat values.length := by
  induction values using List.reverseRecOn with
  | nil => decide
  | append_singleton values value ih =>
      rw [List.length_append, List.length_singleton] at hlength
      obtain ⟨hlow, hhigh⟩ := ih (by omega) fun v hv => h v (List.mem_append_left _ hv)
      have hvalue := h value (by simp)
      rw [total_concat, List.length_append, List.length_singleton]
      constructor
      · have hsum := Double.add_le_add hlow hvalue.1 (by decide) hvalue.isFinite
        exact Double.le_congr (Double.rank_positive_zero_add 0.0) rfl hsum
      · have hsum := Double.add_le_add hhigh hvalue.2 hvalue.isFinite (by decide)
        exact Double.le_congr rfl (Double.rank_ofNat_add_one (by omega)) hsum

/-- The mean of values between zero and one lies there too, although it can pass the largest of them. -/
theorem inUnit_mean {values : List Float} (hne : values ≠ []) (hlength : values.length ≤ 2 ^ 53)
    (h : ∀ value ∈ values, InUnit value) : InUnit (mean values) := by
  have hd : Double.Positive (Float.ofNat values.length) :=
    Double.positive_ofNat (mt List.length_eq_zero_iff.1 hne) (by omega)
  obtain ⟨hlow, hhigh⟩ := total_le_count hlength h
  have hlow' := Double.div_le_div_right hlow hd
  have hhigh' := Double.div_le_div_right hhigh hd
  rw [mean_eq_total]
  exact ⟨Double.le_congr (Double.rank_zero_div hd) rfl hlow',
    Double.le_congr rfl (Double.rank_div_self hd) hhigh'⟩

example : (0.1 : Float) < mean [0.1, 0.1, 0.1] := by decide +kernel

/-! ### The views -/

/-- The mean of the largest values of entities lies between zero and one if all values do. -/
theorem inUnit_meanOfLargest {entity measure : Run → Float} {runs : List Run} (hne : runs ≠ [])
    (hlength : runs.length ≤ 2 ^ 53) (h : ∀ run ∈ runs, InUnit (measure run)) :
    InUnit (meanOfLargest entity measure runs) := by
  unfold meanOfLargest
  refine inUnit_mean (mt List.map_eq_nil_iff.1 (mt places_eq_nil.1 hne)) ?_ ?_
  · rw [List.length_map]
    exact (length_places_le _ _).trans hlength
  · intro value hvalue
    obtain ⟨p, hp, rfl⟩ := List.mem_map.1 hvalue
    obtain ⟨run, hrun⟩ := List.exists_mem_of_ne_nil _ (runsAt_ne_nil hp)
    have hunit := h run (List.mem_filter.1 hrun).1
    obtain ⟨hmem, -⟩ := largest_mem ⟨measure run, List.mem_map_of_mem hrun,
      Double.isNaN_of_isFinite hunit.isFinite⟩
    obtain ⟨best, hbest, heq⟩ := List.mem_map.1 hmem
    exact heq ▸ h best (List.mem_filter.1 hbest).1

/-- Every point of a curve of means lies between zero and one if all measures do. -/
theorem inUnit_meanCurve {key measure : Run → Float} {runs : List Run}
    (hlength : runs.length ≤ 2 ^ 53) (h : ∀ run ∈ runs, InUnit (measure run)) {point : Float × Float}
    (hpoint : point ∈ meanCurve key measure runs) : InUnit point.2 := by
  obtain ⟨first, hfirst, -, hvalue⟩ := of_mem_meanCurve hpoint
  have hmem := List.mem_of_mem_head? hfirst
  rw [← hvalue]
  refine inUnit_mean (List.ne_nil_of_mem (List.mem_map_of_mem hmem)) ?_ ?_
  · rw [List.length_map]
    exact (List.length_filter_le _ _).trans hlength
  · intro value hvalue
    obtain ⟨run, hrun, rfl⟩ := List.mem_map.1 hvalue
    exact h run (List.mem_filter.1 hrun).1

/-- If all similarities lie between zero and one, so do all points of the two views of similarities, whose
    vertical axis is fixed to that range. -/
theorem unit_views (config : Config) (dataset : Dataset) (hlength : dataset.runs.length < 2 ^ 53)
    (h : ∀ run ∈ dataset.runs, 0.0 ≤ run.get .similarity ∧ run.get .similarity ≤ 1.0)
    (kind : ViewKind) (hkind : kind = .similarityByK ∨ kind = .topKSimilarity) :
    (Frame.ofView (kind.compute config dataset)).yRange = ⟨0.0, 1.0⟩ ∧
      ∀ series ∈ (kind.compute config dataset).series, ∀ point ∈ series.points,
        0.0 ≤ point.2 ∧ point.2 ≤ 1.0 := by
  rcases hkind with rfl | rfl
  · refine ⟨rfl, ?_⟩
    intro series hseries point hpoint
    rw [ViewKind.compute, similarityByK_eq, List.mem_singleton] at hseries
    rw [hseries] at hpoint
    refine inUnit_meanCurve ?_ ?_ hpoint
    · exact (List.length_filter_le _ _).trans hlength.le
    · exact fun run hrun => h run (List.mem_filter.1 hrun).1
  · refine ⟨rfl, ?_⟩
    intro series hseries point hpoint
    rw [ViewKind.compute, topKSimilarity_series] at hseries
    obtain ⟨synMeta, -, rfl⟩ := List.mem_map.1 hseries
    obtain ⟨hne, hvalue⟩ := of_mem_topKPoints hpoint
    rw [hvalue]
    refine inUnit_meanOfLargest hne ?_ ?_
    · exact (List.length_filter_le _ _).trans ((List.length_filter_le _ _).trans hlength.le)
    · exact fun run hrun => h run (List.mem_filter.1 (List.mem_filter.1 hrun).1).1

/-- Three candidates of one rank whose similarities have a mean above all of them. -/
def equalCandidates : Dataset :=
  ⟨[candidate 1.0 1.0 0.1, candidate 2.0 1.0 0.1, candidate 3.0 1.0 0.1]⟩

theorem unit_views_equal :
    (Frame.ofView (ViewKind.similarityByK.compute twoWindows equalCandidates)).yRange = ⟨0.0, 1.0⟩ ∧
      (ViewKind.similarityByK.compute twoWindows equalCandidates).series =
        [⟨"C-BI", [(1.0, 0.10000000000000002)]⟩] ∧
      (0.0 : Float) ≤ 0.10000000000000002 ∧ (0.10000000000000002 : Float) ≤ 1.0 := by
  have hseries : (ViewKind.similarityByK.compute twoWindows equalCandidates).series =
      [⟨"C-BI", [(1.0, 0.10000000000000002)]⟩] := by decide +kernel
  obtain ⟨hrange, hpoints⟩ := unit_views twoWindows equalCandidates (by decide) (by decide)
    .similarityByK (Or.inl rfl)
  rw [hseries] at hpoints
  exact ⟨hrange, hseries, hpoints _ List.mem_cons_self (1.0, 0.10000000000000002) List.mem_cons_self⟩

end EvalCharts
