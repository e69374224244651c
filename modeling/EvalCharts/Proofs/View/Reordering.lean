/-
Module: EvalCharts.Proofs.View.Reordering
Purpose: What the order of the runs can change. The largest values of entities do not depend on it, so the
  top-k view does not either. Curves of means keep their keys up to the sign of a zero, and their values
  up to the rounding of running sums.
Main exports: topKSimilarity_perm, Curve.Agree, Curve.points_agree, Curve.KeysAlike, computeAll_perm,
  computeAll_reorder
-/
import EvalCharts.Proofs.Sums
import EvalCharts.Proofs.View.Curves
import EvalCharts.Proofs.View.TopK

namespace EvalCharts

/-! ### Runs in another order -/

theorem runsAt_perm {runs runs' : List Run} (h : runs.Perm runs') (key : Run → Float) (p : Int) :
    (runsAt key runs p).Perm (runsAt key runs' p) :=
  h.filter _

/-! ### The largest values of entities -/

theorem meanBestSimilarity_perm {runs runs' : List Run} (h : runs.Perm runs') :
    meanBestSimilarity runs = meanBestSimilarity runs' :=
  meanOfLargest_congr (.of_subset h.subset) (.of_subset h.symm.subset)

theorem topKPoints_perm {runs runs' : List Run} (h : runs.Perm runs') (maxK : Nat) :
    topKPoints maxK runs = topKPoints maxK runs' := by
  have hwindow : ∀ bound, (inWindow bound runs).Perm (inWindow bound runs') := fun _ => h.filter _
  unfold topKPoints
  have hempty : ∀ bound, inWindow bound runs = [] ↔ inWindow bound runs' = [] := by
    intro bound
    rw [← List.length_eq_zero_iff, (hwindow bound).length_eq, List.length_eq_zero_iff]
  simp only [ne_eq, hempty, meanBestSimilarity_perm (hwindow _)]

/-- The top-k view does not depend on the order of the runs. -/
theorem topKSimilarity_perm (config : Config) {dataset dataset' : Dataset}
    (h : dataset.runs.Perm dataset'.runs) :
    topKSimilarity config dataset = topKSimilarity config dataset' := by
  rw [topKSimilarity_series, topKSimilarity_series]
  apply List.map_congr_left
  intro synMeta _
  have hruns : (sweepRuns config.thresholds synMeta dataset.runs).Perm
      (sweepRuns config.thresholds synMeta dataset'.runs) := h.filter _
  rw [topKPoints_perm hruns]

/-! ### Curves of the same runs in two orders -/

/-- How the points of a curve for one key agree where the same runs come in two orders. They show the same
    number up to the sign of a zero, and the mean of the same measures; the means are equal if the sums of
    the measures do not depend on their order, as those of counts do not, and otherwise differ by rounding
    alone. -/
structure Curve.Agree (curve : Curve) (runs runs' : List Run) (point point' : Float × Float) : Prop where
  sameKey : Double.sameKey point.1 point'.1 = true
  perm : (curve.measuresAt runs point.1).Perm (curve.measuresAt runs' point'.1)
  value : point.2 = curve.scaled (mean (curve.measuresAt runs point.1))
  value' : point'.2 = curve.scaled (mean (curve.measuresAt runs' point'.1))
  same : OrderFree (curve.measuresAt runs point.1) → point.2 = point'.2
  counted : ∀ counts : List Nat, curve.measuresAt runs point.1 = counts.map Float.ofNat →
    counts.sum ≤ 2 ^ 53 → point.2 = point'.2
  close : (∀ measure ∈ curve.measuresAt runs point.1, measure.isFinite = true) →
    (total (curve.measuresAt runs point.1)).isFinite = true →
    (total (curve.measuresAt runs' point'.1)).isFinite = true →
    2 ^ 53 * (Double.signedUnits (total (curve.measuresAt runs point.1)) -
        Double.signedUnits (total (curve.measuresAt runs' point'.1))).natAbs ≤
      2 * (((curve.measuresAt runs point.1).length - 1) *
        absoluteTotal (curve.measuresAt runs point.1))

namespace Curve

variable {curve : Curve} {runs runs' : List Run}

theorem selected_perm (h : runs.Perm runs') : (curve.selected runs).Perm (curve.selected runs') :=
  h.filter _

theorem measuresAt_perm (h : runs.Perm runs') {x x' : Float} (hx : Double.rank x = Double.rank x') :
    (curve.measuresAt runs x).Perm (curve.measuresAt runs' x') := by
  rw [measuresAt_eq, measuresAt_eq, hx]
  exact (runsAt_perm (selected_perm h) _ _).map _

theorem mean_perm {values values' : List Float} (h : values.Perm values') (hfree : OrderFree values) :
    mean values = mean values' := by
  rw [mean_eq_total, mean_eq_total, total_perm h hfree, h.length_eq]

theorem scaled_mean_perm (h : runs.Perm runs') {x x' : Float} (hx : Double.rank x = Double.rank x')
    (hfree : OrderFree (curve.measuresAt runs x)) :
    curve.scaled (mean (curve.measuresAt runs x)) = curve.scaled (mean (curve.measuresAt runs' x')) :=
  congrArg curve.scaled (mean_perm (measuresAt_perm h hx) hfree)

/-- Points for the same key agree. -/
theorem agree_of_rank_eq (h : runs.Perm runs') {x x' : Float} (hx : Double.rank x = Double.rank x') :
    curve.Agree runs runs' (x, curve.scaled (mean (curve.measuresAt runs x)))
      (x', curve.scaled (mean (curve.measuresAt runs' x'))) where
  sameKey := beq_iff_eq.2 hx
  perm := measuresAt_perm h hx
  value := rfl
  value' := rfl
  same := scaled_mean_perm h hx
  counted counts hcounts hsum := by
    have hfree := orderFree_ofNat hsum
    rw [← hcounts] at hfree
    exact scaled_mean_perm h hx hfree
  close := total_perm_close (measuresAt_perm h hx)

/-- A curve has the same points one by one, whatever the order of the runs, as far as they agree. -/
theorem points_agree (curve : Curve) (h : runs.Perm runs') :
    List.Forall₂ (curve.Agree runs runs') (curve.points runs) (curve.points runs') := by
  have hselected : (curve.selected runs).Perm (curve.selected runs') := selected_perm h
  unfold points meanCurve
  rw [← places_perm hselected, List.map_filterMap, List.map_filterMap]
  apply forall₂_filterMap
  intro p hp
  have hp' : p ∈ places (fun run => Double.rank (curve.key run)) (curve.selected runs') := by
    rwa [← places_perm hselected]
  obtain ⟨first, hfirst, -⟩ := classAt?_of_mem hp
  obtain ⟨first', hfirst', -⟩ := classAt?_of_mem hp'
  obtain ⟨-, hrank⟩ := of_head?_runsAt hfirst
  obtain ⟨-, hrank'⟩ := of_head?_runsAt hfirst'
  refine ⟨_, _, ?_, ?_, agree_of_rank_eq h (hrank.trans hrank'.symm)⟩
  · rw [meanAt?, hfirst, measuresAt_eq, hrank]
    rfl
  · rw [meanAt?, hfirst', measuresAt_eq, hrank']
    rfl

/-- Selected runs whose keys are the same also show the same key, so that no two keys differ in the sign of
    a zero alone. -/
def KeysAlike (curve : Curve) (runs : List Run) : Prop :=
  ∀ run ∈ curve.selected runs, ∀ run' ∈ curve.selected runs,
    Double.sameKey (curve.key run) (curve.key run') = true → curve.key run = curve.key run'

/-- Points that agree show the same number if keys that are the same look alike. -/
theorem key_eq_of_mem_zip (h : runs.Perm runs') (hkeys : curve.KeysAlike runs)
    {point point' : Float × Float} (hzip : (point, point') ∈ (curve.points runs).zip (curve.points runs')) :
    point.1 = point'.1 := by
  have hagree := (List.forall₂_iff_zip.1 (curve.points_agree h)).2 hzip
  obtain ⟨hmem, hmem'⟩ := List.of_mem_zip hzip
  obtain ⟨run, hrun, hkey⟩ := exists_of_mem_points hmem
  obtain ⟨run', hrun', hkey'⟩ := exists_of_mem_points hmem'
  rw [← hkey, ← hkey']
  refine hkeys run hrun run' ((selected_perm h).mem_iff.2 hrun') ?_
  rw [hkey, hkey']
  exact hagree.sameKey

theorem points_keys_eq (h : runs.Perm runs') (hkeys : curve.KeysAlike runs) :
    (curve.points runs).map Prod.fst = (curve.points runs').map Prod.fst := by
  rw [← List.forall₂_eq_eq_eq, List.forall₂_map_left_iff, List.forall₂_map_right_iff]
  exact List.forall₂_iff_zip.2 ⟨(curve.points_agree h).length_eq, key_eq_of_mem_zip h hkeys⟩

theorem points_eq_of_orderFree (h : runs.Perm runs') (hkeys : curve.KeysAlike runs)
    (hfree : ∀ x, OrderFree (curve.measuresAt runs x)) : curve.points runs = curve.points runs' := by
  obtain ⟨hlength, hagree⟩ := List.forall₂_iff_zip.1 (curve.points_agree h)
  rw [← List.forall₂_eq_eq_eq]
  refine List.forall₂_iff_zip.2 ⟨hlength, ?_⟩
  intro point point' hzip
  exact Prod.ext (key_eq_of_mem_zip h hkeys hzip) ((hagree hzip).same (hfree _))

end Curve

/-- The keys of the views of ngrams are positive, so no two of them differ by a sign alone. -/
theorem keysAlike_of_mem_curves {kind : ViewKind} (hkind : kind ≠ .similarityByK) {config : Config}
    {curve : Curve} (hcurve : curve ∈ kind.curves config) (runs : List Run) : curve.KeysAlike runs := by
  intro run hrun run' _ h
  exact Double.eq_of_sameKey_of_pos (evenNgrams_of_mem_curves hkind hcurve hrun).2 h

/-- Nothing is visible of the order of the runs where sums do not depend on it either, and where no two
    candidate ranks differ in the sign of a zero alone. -/
theorem computeAll_perm {config : Config} {dataset dataset' : Dataset}
    (h : dataset.runs.Perm dataset'.runs)
    (hkeys : ∀ curve ∈ ViewKind.similarityByK.curves config, curve.KeysAlike dataset.runs)
    (hfree : ∀ kind : ViewKind, ∀ curve ∈ kind.curves config, ∀ x,
      OrderFree (curve.measuresAt dataset.runs x)) :
    computeAll config dataset = computeAll config dataset' := by
  apply List.map_congr_left
  intro kind _
  by_cases htop : kind = .topKSimilarity
  · rw [htop, ViewKind.compute, ViewKind.compute, topKSimilarity_perm config h]
  · rw [compute_eq_curves htop, compute_eq_curves htop]
    congr 1
    apply List.map_congr_left
    intro curve hcurve
    have hkeysAlike : curve.KeysAlike dataset.runs := by
      by_cases hkind : kind = .similarityByK
      · exact hkeys curve (hkind ▸ hcurve)
      · exact keysAlike_of_mem_curves hkind hcurve _
    rw [Curve.series, Curve.series, Curve.points_eq_of_orderFree h hkeysAlike (hfree kind curve hcurve)]

/-- What the order of the runs can change. The top-k view is the same in every order. The other views are
    made of the same curves, whose points agree one by one: they show the same number up to the sign of a
    zero, and values that differ by the rounding of their sums alone. Where neither a sign nor a rounding
    can differ, all views and the summary are equal. -/
theorem computeAll_reorder (config : Config) (dataset dataset' : Dataset)
    (h : dataset.runs.Perm dataset'.runs) :
    ViewKind.topKSimilarity.compute config dataset = ViewKind.topKSimilarity.compute config dataset' ∧
    (∀ kind : ViewKind, kind ≠ .topKSimilarity →
      kind.compute config dataset =
        ⟨kind, (kind.curves config).map fun curve => curve.series dataset.runs⟩ ∧
      kind.compute config dataset' =
        ⟨kind, (kind.curves config).map fun curve => curve.series dataset'.runs⟩ ∧
      ∀ curve ∈ kind.curves config,
        List.Forall₂ (curve.Agree dataset.runs dataset'.runs)
          (curve.points dataset.runs) (curve.points dataset'.runs) ∧
        (kind ≠ .similarityByK →
          (curve.points dataset.runs).map Prod.fst = (curve.points dataset'.runs).map Prod.fst)) ∧
    ((∀ curve ∈ ViewKind.similarityByK.curves config, curve.KeysAlike dataset.runs) →
      (∀ kind : ViewKind, ∀ curve ∈ kind.curves config, ∀ x,
        OrderFree (curve.measuresAt dataset.runs x)) →
      computeAll config dataset = computeAll config dataset' ∧
        summary (computeAll config dataset) = summary (computeAll config dataset')) := by
  refine ⟨?_, ?_, ?_⟩
  · rw [ViewKind.compute, ViewKind.compute, topKSimilarity_perm config h]
  · intro kind hkind
    refine ⟨compute_eq_curves hkind config dataset, compute_eq_curves hkind config dataset', ?_⟩
    intro curve hcurve
    exact ⟨curve.points_agree h, fun hother =>
      Curve.points_keys_eq h (keysAlike_of_mem_curves hother hcurve _)⟩
  · intro hkeys hfree
    have hall := computeAll_perm h hkeys hfree
    exact ⟨hall, congrArg summary hall⟩

/-! ### Three candidates of one rank -/

/-- Three similarities whose sum is rounded differently from the other end. -/
def tenths : Dataset :=
  ⟨[candidate 1.0 1.0 0.1, candidate 2.0 1.0 0.2, candidate 3.0 1.0 0.3]⟩

def tenthsReversed : Dataset :=
  ⟨tenths.runs.reverse⟩

/-- The order of the runs can show in the last digit of a mean. -/
theorem computeAll_reversed :
    tenths.runs.Perm tenthsReversed.runs ∧
      similarityByK twoWindows tenths = [⟨"C-BI", [(1.0, 0.20000000000000004)]⟩] ∧
      similarityByK twoWindows tenthsReversed = [⟨"C-BI", [(1.0, 0.19999999999999998)]⟩] ∧
      computeAll twoWindows tenths ≠ computeAll twoWindows tenthsReversed ∧
      summary (computeAll twoWindows tenths) ≠ summary (computeAll twoWindows tenthsReversed) := by
  refine ⟨(List.reverse_perm _).symm, ?_, ?_, ?_, ?_⟩ <;> decide +kernel

/-- Two candidates of one rank, which are added in either order. -/
def twoTenths : Dataset :=
  ⟨[candidate 1.0 1.0 0.1, candidate 2.0 1.0 0.2]⟩

def twoTenthsReversed : Dataset :=
  ⟨twoTenths.runs.reverse⟩

theorem computeAll_reorder_twoTenths :
    twoTenths.runs.Perm twoTenthsReversed.runs ∧
      computeAll twoWindows twoTenths = computeAll twoWindows twoTenthsReversed ∧
      summary (computeAll twoWindows twoTenths) = summary (computeAll twoWindows twoTenthsReversed) := by
  have hperm : twoTenths.runs.Perm twoTenthsReversed.runs := (List.reverse_perm _).symm
  refine ⟨hperm, (computeAll_reorder twoWindows twoTenths twoTenthsReversed hperm).2.2 ?_ ?_⟩
  · unfold Curve.KeysAlike
    decide +kernel
  · intro kind curve _ x
    refine Or.inl ?_
    rw [Curve.measuresAt, List.length_map]
    exact (List.length_filter_le _ _).trans (List.length_filter_le _ twoTenths.runs)

end EvalCharts
