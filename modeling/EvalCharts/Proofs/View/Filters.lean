/-
Module: EvalCharts.Proofs.View.Filters
Purpose: The filters that the views build. A view looks at the runs through these filters alone, and the
  constants in their conditions are the thresholds and the values of the sweep.
Main exports: ViewKind.filters, ViewKind.computeWith, compute_eq_computeWith, computeWith_congr,
  accepts_baseFilter_iff, isFinite_of_mem_filters
-/
import EvalCharts.Proofs.View.Selection
import Mathlib.Data.List.Basic

namespace EvalCharts

/-- The filters of a view: those that select the runs of its series, and those of its windows. -/
def ViewKind.filters (kind : ViewKind) (config : Config) : List Filter :=
  let base := config.thresholds.baseFilter
  match kind with
  | .similarityByK => [base]
  | .topKSimilarity =>
    config.synMetaSweep.map (fun synMeta =>
      (base.release .synMeta).require (.equals .synMeta synMeta)) ++
    config.windows.map fun k => Filter.everything.require (.atMost .k (Float.ofNat k))
  | .pruning => [requireEvenNgrams base]
  | .timing =>
    config.synMetaSweep.map fun synMeta =>
      (requireEvenNgrams (base.release .synMeta)).require (.equals .synMeta synMeta)

/-- The view of one kind, where it is left open how a filter selects runs. -/
def ViewKind.computeWith (select : Filter → List Run → List Run) (kind : ViewKind) (config : Config)
    (dataset : Dataset) : View :=
  let base := config.thresholds.baseFilter
  match kind with
  | .similarityByK =>
    let runs := select base dataset.runs
    ⟨kind, [⟨"C-BI", pointsOf (aggregate [.k] (.column .similarity) .mean runs)⟩]⟩
  | .topKSimilarity =>
    ⟨kind, config.synMetaSweep.map fun synMeta =>
      let runs := select ((base.release .synMeta).require (.equals .synMeta synMeta)) dataset.runs
      ⟨sweepLabel synMeta, config.windows.filterMap fun k =>
        let window := select (Filter.everything.require (.atMost .k (Float.ofNat k))) runs
        (aggregate [] (.column .similarity) (.meanOfBest .id) window).head?.map fun group =>
          (Float.ofNat k, group.2)⟩⟩
  | .pruning =>
    let runs := select (requireEvenNgrams base) dataset.runs
    ⟨kind, [("All", Column.sentenceCount), ("Distinct", Column.sentenceCountPruned),
      ("Computed", Column.sentencePruned)].map fun (label, column) =>
        ⟨label, pointsOf (aggregate [.ngramsCount] (.column column) .mean runs)⟩⟩
  | .timing =>
    ⟨kind, config.synMetaSweep.map fun synMeta =>
      let runs := select ((requireEvenNgrams (base.release .synMeta)).require
        (.equals .synMeta synMeta)) dataset.runs
      let points := pointsOf (aggregate [.ngramsCount] processingTime .mean runs)
      ⟨sweepLabel synMeta, points.map fun (x, milliseconds) => (x, milliseconds / 1000.0)⟩⟩

theorem compute_eq_computeWith (kind : ViewKind) (config : Config) (dataset : Dataset) :
    kind.compute config dataset = kind.computeWith Filter.select config dataset := by
  cases kind <;> rfl

/-- A view builds no other filters than those listed: what other filters select does not matter. -/
theorem computeWith_congr {kind : ViewKind} {config : Config} {select : Filter → List Run → List Run}
    (h : ∀ filter ∈ kind.filters config, ∀ runs, select filter runs = filter.select runs)
    (dataset : Dataset) : kind.computeWith select config dataset = kind.compute config dataset := by
  rw [compute_eq_computeWith]
  cases kind with
  | similarityByK =>
      have hbase := h _ List.mem_cons_self
      simp only [ViewKind.computeWith, hbase]
  | topKSimilarity =>
      have hsweep : ∀ synMeta ∈ config.synMetaSweep, _ := fun synMeta hmem =>
        h _ (List.mem_append_left _ (List.mem_map_of_mem hmem))
      have hwindow : ∀ k ∈ config.windows, _ := fun k hmem =>
        h _ (List.mem_append_right _ (List.mem_map_of_mem hmem))
      simp only [ViewKind.computeWith, View.mk.injEq, true_and]
      apply List.map_congr_left
      intro synMeta hmem
      rw [hsweep synMeta hmem]
      congr 1
      apply List.filterMap_congr
      intro k hk
      rw [hwindow k hk]
  | pruning =>
      have hbase := h _ List.mem_cons_self
      simp only [ViewKind.computeWith, hbase]
  | timing =>
      have hsweep : ∀ synMeta ∈ config.synMetaSweep, _ := fun synMeta hmem =>
        h _ (List.mem_map_of_mem hmem)
      simp only [ViewKind.computeWith, View.mk.injEq, true_and]
      apply List.map_congr_left
      intro synMeta hmem
      rw [hsweep synMeta hmem]

/-- The base filter accepts the runs that have the seven thresholds in their columns. -/
theorem accepts_baseFilter_iff (thresholds : Thresholds) (run : Run) :
    thresholds.baseFilter.accepts run = true ↔
      ∀ entry ∈ thresholds.entries, (run.get entry.1 == entry.2) = true := by
  unfold Filter.accepts
  rw [thresholds.predicates_baseFilter, List.all_map, List.all_eq_true]
  rfl

/-! ### Constants -/

/-- The constants of the base filter are the thresholds. -/
theorem isFinite_of_mem_baseFilter {thresholds : Thresholds}
    (h : ∀ entry ∈ thresholds.entries, entry.2.isFinite = true) {column : Column} {value : Float}
    (hmem : Predicate.equals column value ∈ thresholds.baseFilter.predicates) :
    value.isFinite = true := by
  rw [thresholds.predicates_baseFilter, List.mem_map] at hmem
  obtain ⟨entry, hentry, heq⟩ := hmem
  rw [← (Predicate.equals.inj heq).2]
  exact h entry hentry

theorem mem_require {filter : Filter} {predicate added : Predicate} :
    predicate ∈ (filter.require added).predicates ↔ predicate ∈ filter.predicates ∨ predicate = added := by
  simp [Filter.require]

theorem equals_mem_requireEvenNgrams {filter : Filter} {column : Column} {value : Float} :
    Predicate.equals column value ∈ (requireEvenNgrams filter).predicates ↔
      Predicate.equals column value ∈ filter.predicates := by
  simp [requireEvenNgrams, mem_require]

/-- With finite thresholds and a finite sweep, no filter of a view compares with a NaN or an infinity. -/
theorem isFinite_of_mem_filters {config : Config}
    (hthresholds : ∀ entry ∈ config.thresholds.entries, entry.2.isFinite = true)
    (hsweep : ∀ value ∈ config.synMetaSweep, value.isFinite = true) {kind : ViewKind} {filter : Filter}
    (hfilter : filter ∈ kind.filters config) {column : Column} {value : Float}
    (hmem : Predicate.equals column value ∈ filter.predicates) : value.isFinite = true := by
  have hbase := fun hmem : Predicate.equals column value ∈ config.thresholds.baseFilter.predicates =>
    isFinite_of_mem_baseFilter hthresholds hmem
  cases kind with
  | similarityByK =>
      rw [List.mem_singleton.1 hfilter] at hmem
      exact hbase hmem
  | topKSimilarity =>
      rcases List.mem_append.1 hfilter with hfilter | hfilter
      · obtain ⟨synMeta, hsynMeta, rfl⟩ := List.mem_map.1 hfilter
        rcases mem_require.1 hmem with hmem | heq
        · exact hbase (Filter.mem_release.1 hmem).1
        · rw [(Predicate.equals.inj heq).2]
          exact hsweep synMeta hsynMeta
      · obtain ⟨k, -, rfl⟩ := List.mem_map.1 hfilter
        simp [Filter.everything, mem_require] at hmem
  | pruning =>
      rw [List.mem_singleton.1 hfilter] at hmem
      exact hbase (equals_mem_requireEvenNgrams.1 hmem)
  | timing =>
      obtain ⟨synMeta, hsynMeta, rfl⟩ := List.mem_map.1 hfilter
      rcases mem_require.1 hmem with hmem | heq
      · exact hbase (Filter.mem_release.1 (equals_mem_requireEvenNgrams.1 hmem)).1
      · rw [(Predicate.equals.inj heq).2]
        exact hsweep synMeta hsynMeta

end EvalCharts
