/-
Module: EvalCharts.Proofs.Filtering
Purpose: How filters are made, and what they select. A filter that is made step by step holds the conditions
  that no later step drops. Filters select parts of a list of runs that depend on the set of their conditions
  alone, so selections can be repeated, swapped and joined.
Main exports: Filter.Edit, Filter.edited, Filter.surviving, predicates_edited, accepts_swept,
  everything_edited, Filter.IsSelection, select_select, select_sublist_select, select_algebra
-/
import EvalCharts.Proofs.View.Selection
import Mathlib.Data.List.Basic

namespace EvalCharts

namespace Filter

/-! ### Editing -/

/-- A step in the making of a filter. -/
inductive Edit where
  /-- Add a condition behind the others. -/
  | require (predicate : Predicate)
  /-- Drop every condition on a column. -/
  | release (column : Column)
deriving DecidableEq

/-- A filter after one more step. -/
def edit (filter : Filter) : Edit → Filter
  | .require predicate => filter.require predicate
  | .release column => filter.release column

/-- A filter after some more steps. -/
def edited (filter : Filter) (edits : List Edit) : Filter :=
  edits.foldl edit filter

/-- The conditions that some steps add and that no later step drops, in the order in which they are
    added. -/
def surviving : List Edit → List Predicate
  | [] => []
  | .require predicate :: later =>
    if .release predicate.column ∈ later then surviving later else predicate :: surviving later
  | .release _ :: later => surviving later

/-- Editing keeps the conditions that are not dropped and adds those that survive. -/
theorem predicates_edited (filter : Filter) (edits : List Edit) :
    (filter.edited edits).predicates =
      (filter.predicates.filter fun predicate => .release predicate.column ∉ edits) ++
        surviving edits := by
  induction edits generalizing filter with
  | nil => simp [edited, surviving]
  | cons step later ih =>
      have hstep : filter.edited (step :: later) = (filter.edit step).edited later := rfl
      rw [hstep, ih]
      cases step with
      | require predicate =>
          -- the new condition stands behind those of the filter and before those of the later steps
          simp only [edit, require, surviving, List.filter_append, List.mem_cons, reduceCtorEq,
            false_or, List.filter_cons, List.filter_nil]
          by_cases hdropped : .release predicate.column ∈ later
          · simp [hdropped]
          · simp [hdropped]
      | release column =>
          simp only [edit, release, surviving, List.filter_filter, List.mem_cons, Edit.release.injEq,
            not_or, Bool.decide_and, Bool.and_comm, ne_eq]

theorem edited_append (filter : Filter) (edits later : List Edit) :
    filter.edited (edits ++ later) = (filter.edited edits).edited later :=
  List.foldl_append

theorem surviving_map_require (predicates : List Predicate) :
    surviving (predicates.map .require) = predicates := by
  induction predicates with
  | nil => rfl
  | cons predicate predicates ih => simp [surviving, ih]

/-- Adding some conditions one after the other. -/
theorem predicates_edited_require (filter : Filter) (predicates : List Predicate) :
    (filter.edited (predicates.map .require)).predicates = filter.predicates ++ predicates := by
  rw [predicates_edited, surviving_map_require]
  simp

theorem accepts_eq_true_iff {filter : Filter} {run : Run} :
    filter.accepts run = true ↔ ∀ predicate ∈ filter.predicates, predicate.accepts run = true :=
  List.all_eq_true

theorem accepts_edited_require (filter : Filter) (predicates : List Predicate) (run : Run) :
    (filter.edited (predicates.map .require)).accepts run =
      (filter.accepts run && predicates.all fun predicate => predicate.accepts run) := by
  unfold accepts
  rw [predicates_edited_require, List.all_append]

end Filter

/-- Putting another value in the place of a threshold, with any conditions added in between, leaves the
    filter of the thresholds with that value. -/
theorem accepts_swept (thresholds : Thresholds) (synMeta : Float) (between : List Predicate) (run : Run) :
    (thresholds.baseFilter.edited
        (.release .synMeta :: between.map .require ++ [.require (.equals .synMeta synMeta)])).accepts run =
      ({ thresholds with synMeta := synMeta }.baseFilter.edited (between.map .require)).accepts run := by
  have hsteps : thresholds.baseFilter.edited
      (.release .synMeta :: between.map .require ++ [.require (.equals .synMeta synMeta)]) =
      ((thresholds.baseFilter.release .synMeta).edited (between.map .require)).require
        (.equals .synMeta synMeta) := Filter.edited_append _ _ _
  have hmeets : { thresholds with synMeta := synMeta }.meets run =
      (thresholds.meetsOthers run && run.get .synMeta == synMeta) := rfl
  rw [hsteps, Filter.accepts_require, Filter.accepts_edited_require, Filter.accepts_edited_require,
    Thresholds.accepts_release, Thresholds.accepts_baseFilter, hmeets, Predicate.accepts,
    Bool.and_assoc, Bool.and_assoc, Bool.and_comm (between.all _)]

/-- A filter that is made from nothing holds the added conditions that no later step drops, in their order
    and as often as they are added, and accepts the runs that meet all of them. So the filters of the views
    that are compared over a sweep accept what the filter of the thresholds with the value of the sweep
    accepts. -/
theorem everything_edited (edits : List Filter.Edit) :
    (Filter.everything.edited edits).predicates = Filter.surviving edits ∧
      (∀ run, (Filter.everything.edited edits).accepts run = true ↔
        ∀ predicate ∈ Filter.surviving edits, predicate.accepts run = true) ∧
      (∀ thresholds : Thresholds, thresholds.baseFilter = Filter.everything.edited
        (thresholds.entries.map fun (column, value) => .require (.equals column value))) ∧
      ∀ (thresholds : Thresholds) (synMeta : Float) (run : Run),
        (∀ between : List Predicate,
          (thresholds.baseFilter.edited
              (.release .synMeta :: between.map .require ++
                [.require (.equals .synMeta synMeta)])).accepts run =
            ({ thresholds with synMeta := synMeta }.baseFilter.edited (between.map .require)).accepts run) ∧
          ((requireEvenNgrams (thresholds.baseFilter.release .synMeta)).require
              (.equals .synMeta synMeta)).accepts run =
            (requireEvenNgrams { thresholds with synMeta := synMeta }.baseFilter).accepts run := by
  have hpredicates : (Filter.everything.edited edits).predicates = Filter.surviving edits :=
    Filter.predicates_edited .everything edits
  refine ⟨hpredicates, ?_, ?_, ?_⟩
  · intro run
    rw [Filter.accepts_eq_true_iff, hpredicates]
  · intro thresholds
    rw [Filter.edited, List.foldl_map]
    rfl
  · intro thresholds synMeta run
    refine ⟨fun between => accepts_swept thresholds synMeta between run, ?_⟩
    exact accepts_swept thresholds synMeta [.even .ngramsCount, .positive .ngramsCount] run

/-! ### Selecting -/

namespace Filter

/-- The runs that meet all conditions, in their order and as often as they occur: the longest part of the
    runs in which every one meets them. -/
structure IsSelection (filter : Filter) (runs selected : List Run) : Prop where
  sublist : selected.Sublist runs
  accepted : ∀ run ∈ selected, ∀ predicate ∈ filter.predicates, predicate.accepts run = true
  longest : ∀ part : List Run, part.Sublist runs →
    (∀ run ∈ part, ∀ predicate ∈ filter.predicates, predicate.accepts run = true) → part.Sublist selected

theorem isSelection_select (filter : Filter) (runs : List Run) :
    filter.IsSelection runs (filter.select runs) where
  sublist := List.filter_sublist
  accepted _ hmem := accepts_eq_true_iff.1 (List.mem_filter.1 hmem).2
  longest part hpart haccepted := by
    have hself : filter.select part = part :=
      List.filter_eq_self.2 fun run hmem => accepts_eq_true_iff.2 (haccepted run hmem)
    rw [← hself]
    exact hpart.filter _

/-- There is one longest part. -/
theorem IsSelection.eq {filter : Filter} {runs selected selected' : List Run}
    (h : filter.IsSelection runs selected) (h' : filter.IsSelection runs selected') :
    selected = selected' :=
  (h'.longest _ h.sublist h.accepted).antisymm (h.longest _ h'.sublist h'.accepted)

/-- A filter that holds the conditions of two others selects what they select one after the other. -/
theorem select_select {filter other both : Filter}
    (h : ∀ predicate, predicate ∈ both.predicates ↔
      predicate ∈ filter.predicates ∨ predicate ∈ other.predicates) (runs : List Run) :
    other.select (filter.select runs) = both.select runs := by
  unfold select
  rw [List.filter_filter]
  apply List.filter_congr
  intro run _
  rw [Bool.eq_iff_iff, Bool.and_eq_true, accepts_eq_true_iff, accepts_eq_true_iff, accepts_eq_true_iff]
  simp only [h, or_imp, forall_and]
  exact and_comm

theorem mem_joined {filter other : Filter} {predicate : Predicate} :
    predicate ∈ (⟨filter.predicates ++ other.predicates⟩ : Filter).predicates ↔
      predicate ∈ filter.predicates ∨ predicate ∈ other.predicates :=
  List.mem_append

theorem select_comm (filter other : Filter) (runs : List Run) :
    other.select (filter.select runs) = filter.select (other.select runs) := by
  rw [select_select fun _ => mem_joined, select_select fun _ => mem_joined.trans or_comm]

theorem select_self (filter : Filter) (runs : List Run) :
    filter.select (filter.select runs) = filter.select runs :=
  select_select (fun _ => or_self_iff.symm) runs

/-- More conditions select less. -/
theorem select_sublist_select {filter other : Filter} (h : filter.predicates ⊆ other.predicates)
    (runs : List Run) : (other.select runs).Sublist (filter.select runs) := by
  have hboth : ∀ predicate, predicate ∈ other.predicates ↔
      predicate ∈ filter.predicates ∨ predicate ∈ other.predicates :=
    fun _ => ⟨Or.inr, fun hmem => hmem.elim (fun hmem => h hmem) id⟩
  rw [← select_select hboth]
  exact List.filter_sublist

end Filter

/-- The conditions of a series of the top-k view together with the one of a window. -/
def windowFilter (thresholds : Thresholds) (synMeta : Float) (k : Nat) : Filter :=
  ((thresholds.baseFilter.release .synMeta).require (.equals .synMeta synMeta)).require
    (.atMost .k (Float.ofNat k))

/-- The window of a top-k series holds the runs that one filter selects among all runs. -/
theorem select_window (thresholds : Thresholds) (synMeta : Float) (k : Nat) (runs : List Run) :
    (Filter.everything.require (.atMost .k (Float.ofNat k))).select
        (((thresholds.baseFilter.release .synMeta).require (.equals .synMeta synMeta)).select runs) =
      (windowFilter thresholds synMeta k).select runs :=
  Filter.select_select (fun _ => Filter.mem_joined) runs

/-- Selections make up an algebra. What a filter selects is the longest part of the runs that meets its
    conditions; selecting by two filters one after the other, in either order, is selecting by any filter
    with the conditions of both; so selecting twice changes nothing, more conditions select less and
    dropped ones select more, and the top-k view can be computed with a single filter for each window. -/
theorem select_algebra (filter other : Filter) (runs : List Run) :
    (∀ selected, filter.IsSelection runs selected ↔ selected = filter.select runs) ∧
      other.select (filter.select runs) = filter.select (other.select runs) ∧
      (∀ both : Filter, (∀ predicate, predicate ∈ both.predicates ↔
          predicate ∈ filter.predicates ∨ predicate ∈ other.predicates) →
        other.select (filter.select runs) = both.select runs) ∧
      filter.select (filter.select runs) = filter.select runs ∧
      (∀ predicate, ((filter.require predicate).select runs).Sublist (filter.select runs)) ∧
      (∀ column, (filter.select runs).Sublist ((filter.release column).select runs)) ∧
      ∀ config : Config, topKSimilarity config ⟨runs⟩ = config.synMetaSweep.map fun synMeta =>
        ⟨sweepLabel synMeta, config.windows.filterMap fun k =>
          (aggregate [] (.column .similarity) (.meanOfBest .id)
            ((windowFilter config.thresholds synMeta k).select runs)).head?.map fun group =>
              (Float.ofNat k, group.2)⟩ := by
  refine ⟨?_, Filter.select_comm filter other runs, fun both h => Filter.select_select h runs,
    Filter.select_self filter runs, ?_, ?_, ?_⟩
  · intro selected
    constructor
    · exact fun h => h.eq (Filter.isSelection_select filter runs)
    · rintro rfl
      exact Filter.isSelection_select filter runs
  · exact fun predicate => Filter.select_sublist_select (List.subset_append_left _ _) runs
  · exact fun column => Filter.select_sublist_select (List.filter_subset_self _) runs
  · intro config
    unfold topKSimilarity windowPoint?
    simp only [select_window]

/-- Runs whose candidate ranks are a NaN and two numbers, one of them twice. -/
def mixedRanks : List Run :=
  [Run.zero.set .k (0.0 / 0.0), Run.zero.set .k 2.0, Run.zero.set .k 1.0, Run.zero.set .k 2.0]

/-- The conditions of both filters in another order, and one of them twice. -/
theorem select_algebra_mixedRanks :
    (∀ predicate, predicate ∈ [Predicate.even .k, .atMost .k 2.0, .even .k] ↔
        predicate ∈ [Predicate.atMost .k 2.0] ∨ predicate ∈ [Predicate.even .k]) ∧
      Filter.select ⟨[.even .k]⟩ (Filter.select ⟨[.atMost .k 2.0]⟩ mixedRanks) =
        Filter.select ⟨[.even .k, .atMost .k 2.0, .even .k]⟩ mixedRanks ∧
      (Filter.select ⟨[.even .k, .atMost .k 2.0, .even .k]⟩ mixedRanks).map (fun run => run.get .k) =
        [2.0, 2.0] := by
  have hboth : ∀ predicate, predicate ∈ [Predicate.even .k, .atMost .k 2.0, .even .k] ↔
      predicate ∈ [Predicate.atMost .k 2.0] ∨ predicate ∈ [Predicate.even .k] := by
    intro predicate
    simp only [List.mem_cons, List.not_mem_nil, or_false]
    tauto
  refine ⟨hboth, ?_, by decide +kernel⟩
  exact (select_algebra ⟨[.atMost .k 2.0]⟩ ⟨[.even .k]⟩ mixedRanks).2.2.1
    ⟨[.even .k, .atMost .k 2.0, .even .k]⟩ hboth

end EvalCharts
