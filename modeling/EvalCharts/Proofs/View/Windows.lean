/-
Module: EvalCharts.Proofs.View.Windows
Purpose: How the windows of a top-k series hang together. Windows only grow, so those that hold a run are
  the last ones of all; the value changes only where a run comes in; and a smaller largest window cuts the
  series short and leaves the rest as it is.
Main exports: filter_range'_tail, inWindow_eq_of_none_between, IsWindowSeries, isWindowSeries_topKPoints,
  topKPoints_prefix, topKSimilarity_windows
-/
import EvalCharts.Proofs.View.TopK

namespace EvalCharts

/-- What a condition that never ceases to hold keeps of an interval is the end of it. -/
theorem filter_range'_tail {p : Nat → Bool} (h : ∀ n, p n = true → p (n + 1) = true) (count : Nat) :
    ∃ first, 1 ≤ first ∧ first ≤ count + 1 ∧
      (∀ n, 1 ≤ n → n ≤ count → (p n = true ↔ first ≤ n)) ∧
      (List.range' 1 count).filter p = List.range' first (count + 1 - first) := by
  induction count with
  | zero => exact ⟨1, le_rfl, le_rfl, by omega, rfl⟩
  | succ count ih =>
      obtain ⟨first, hpos, hle, hiff, hfilter⟩ := ih
      have hsplit : (List.range' 1 (count + 1)).filter p =
          List.range' first (count + 1 - first) ++ [count + 1].filter p := by
        rw [List.range'_concat, List.filter_append, hfilter, Nat.one_mul, Nat.add_comm 1 count]
      cases hlast : p (count + 1) with
      | true =>
          -- the new number goes behind those kept so far
          refine ⟨first, hpos, by omega, ?_, ?_⟩
          · intro n hn hn'
            rcases Nat.lt_or_eq_of_le hn' with hlt | rfl
            · exact hiff n hn (by omega)
            · exact ⟨fun _ => hle, fun _ => hlast⟩
          · have hcount : count + 1 + 1 - first = (count + 1 - first) + 1 := by omega
            have hend : first + 1 * (count + 1 - first) = count + 1 := by omega
            rw [hsplit, hcount, List.range'_concat, hend, List.filter_cons, hlast]
            rfl
      | false =>
          -- then no number has been kept so far
          have hnone : first = count + 1 := by
            by_contra hne
            have hcount : p count = true := (hiff count (by omega) le_rfl).2 (by omega)
            rw [h count hcount] at hlast
            exact Bool.noConfusion hlast
          refine ⟨count + 2, by omega, le_rfl, ?_, ?_⟩
          · intro n hn hn'
            rcases Nat.lt_or_eq_of_le hn' with hlt | rfl
            · rw [hiff n hn (by omega)]
              omega
            · rw [hlast]
              exact ⟨fun h => Bool.noConfusion h, by omega⟩
          · rw [hsplit, hnone, Nat.sub_self, Nat.sub_self, List.filter_cons, hlast]
            rfl

/-! ### Windows -/

theorem inWindow_ne_nil_iff {bound : Float} {runs : List Run} :
    inWindow bound runs ≠ [] ↔ ∃ run ∈ runs, run.get .k ≤ bound := by
  simp [inWindow, List.filter_eq_nil_iff]

/-- A larger window still holds a run. -/
theorem inWindow_ne_nil_of_le {bound bound' : Float} (h : bound ≤ bound') {runs : List Run}
    (hne : inWindow bound runs ≠ []) : inWindow bound' runs ≠ [] := by
  intro hnil
  have hsub := inWindow_subset h runs
  rw [hnil] at hsub
  exact hne (List.subset_nil.1 hsub)

/-- Windows hold the same runs if no run ranks in between. -/
theorem inWindow_eq_of_none_between {bound bound' : Float} (h : bound ≤ bound') {runs : List Run}
    (hnone : ∀ run ∈ runs, ¬(bound < run.get .k ∧ run.get .k ≤ bound')) :
    inWindow bound runs = inWindow bound' runs := by
  apply List.filter_congr
  intro run hmem
  rw [decide_eq_decide]
  constructor
  · exact fun hle => Double.le_of_le_of_le hle h
  · intro hle
    have hnum := (Double.le_iff.1 h).1
    have hnum' := (Double.le_iff.1 hle).1
    exact Double.le_of_not_lt hnum hnum' fun hlt => hnone run hmem ⟨hlt, hle⟩

/-! ### Series of windows -/

/-- The points of the windows up to a largest one, over some runs. They stand at the windows that hold a run,
    which are those from the least such window on, if there is one; and from one point to a later one the
    value changes only if a run ranks behind the first window and not behind the second. -/
structure IsWindowSeries (maxK : Nat) (runs : List Run) (points : List (Float × Float)) : Prop where
  tail : ∃ first, 1 ≤ first ∧ first ≤ maxK + 1 ∧
    (∀ k, 1 ≤ k → k ≤ maxK → ((∃ run ∈ runs, run.get .k ≤ Float.ofNat k) ↔ first ≤ k)) ∧
    points.map Prod.fst = (List.range' first (maxK + 1 - first)).map Float.ofNat
  steady : ∀ {k k' : Nat} {y y' : Float}, k ≤ k' → (Float.ofNat k, y) ∈ points →
    (Float.ofNat k', y') ∈ points → y ≠ y' →
    ∃ run ∈ runs, Float.ofNat k < run.get .k ∧ run.get .k ≤ Float.ofNat k'

theorem isWindowSeries_topKPoints (maxK : Nat) (runs : List Run) :
    IsWindowSeries maxK runs (topKPoints maxK runs) where
  tail := by
    obtain ⟨first, hpos, hle, hiff, hfilter⟩ :=
      filter_range'_tail (p := fun k => inWindow (Float.ofNat k) runs ≠ []) (fun k hk =>
        decide_eq_true (inWindow_ne_nil_of_le (Double.ofNat_le_ofNat k.le_succ) (of_decide_eq_true hk)))
        maxK
    refine ⟨first, hpos, hle, ?_, ?_⟩
    · intro k hk hk'
      rw [← inWindow_ne_nil_iff, ← hiff k hk hk', decide_eq_true_eq]
    · rw [topKPoints, hfilter, List.map_map]
      rfl
  steady hle hpoint hpoint' hne := by
    by_contra hnone
    have heq := inWindow_eq_of_none_between (Double.ofNat_le_ofNat hle) fun run hmem hbetween =>
      hnone ⟨run, hmem, hbetween⟩
    obtain ⟨-, hvalue⟩ := of_mem_topKPoints hpoint
    obtain ⟨-, hvalue'⟩ := of_mem_topKPoints hpoint'
    exact hne (hvalue.trans ((congrArg meanBestSimilarity heq).trans hvalue'.symm))

/-- Up to a smaller largest window there are just the first points. -/
theorem topKPoints_prefix {maxK maxK' : Nat} (h : maxK ≤ maxK') (runs : List Run) :
    topKPoints maxK runs <+: topKPoints maxK' runs := by
  have hrange : List.range' 1 maxK <+: List.range' 1 maxK' := by
    obtain ⟨rest, rfl⟩ := Nat.exists_eq_add_of_le h
    exact ⟨_, List.range'_append_1⟩
  exact (hrange.filter _).map _

/-- For each value of the sweep the top-k view shows the windows from the least one on that holds a selected
    run; from one window to the next the value changes only if a run comes in; and a larger largest window
    adds points behind the others. -/
theorem topKSimilarity_windows (config : Config) (dataset : Dataset) :
    List.Forall₂ (fun synMeta series =>
        IsWindowSeries config.maxK (sweepRuns config.thresholds synMeta dataset.runs) series.points)
      config.synMetaSweep (topKSimilarity config dataset) ∧
    ∀ maxK, config.maxK ≤ maxK →
      List.Forall₂ (fun series series' => series.label = series'.label ∧ series.points <+: series'.points)
        (topKSimilarity config dataset) (topKSimilarity { config with maxK := maxK } dataset) := by
  constructor
  · rw [topKSimilarity_series, List.forall₂_map_right_iff, List.forall₂_same]
    intro synMeta _
    exact isWindowSeries_topKPoints _ _
  · intro maxK hle
    rw [topKSimilarity_series, topKSimilarity_series, List.forall₂_map_left_iff,
      List.forall₂_map_right_iff, List.forall₂_same]
    intro synMeta _
    exact ⟨rfl, topKPoints_prefix hle _⟩

/-- A sentence with candidates that rank between the windows. -/
def fractionalRanks : Dataset :=
  ⟨[candidate 1.0 1.5 0.3, candidate 1.0 2.5 0.9]⟩

/-- No point at the first window, which holds no run, and one more point for one more window. -/
theorem topKSimilarity_windows_fractional :
    topKSimilarity twoWindows fractionalRanks = [⟨"SynThr = 6", [(2.0, 0.3)]⟩] ∧
      topKSimilarity { twoWindows with maxK := 3 } fractionalRanks =
        [⟨"SynThr = 6", [(2.0, 0.3), (3.0, 0.9)]⟩] ∧
      List.Forall₂ (fun series series' => series.label = series'.label ∧ series.points <+: series'.points)
        (topKSimilarity twoWindows fractionalRanks)
        (topKSimilarity { twoWindows with maxK := 3 } fractionalRanks) :=
  ⟨by decide +kernel, by decide +kernel,
    (topKSimilarity_windows twoWindows fractionalRanks).2 3 (by decide)⟩

end EvalCharts
