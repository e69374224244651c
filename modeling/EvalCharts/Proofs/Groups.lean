/-
Module: EvalCharts.Proofs.Groups
Purpose: Aggregation by any number of key columns. The groups show the distinct keys of the runs in
  lexicographic order, each run counts in just one of them, and the value of a group is determined by its
  own runs.
Main exports: Double.Before, KeysBefore, sameKeys, Reduced, IsBest, Reduction.IsValue, Grouped.reduced,
  reduced_bestByEntity, reduced_aggregate, filter_aggregate, aggregate_groups
-/
import EvalCharts.Proofs.Aggregation

namespace EvalCharts

/-! ### Keys -/

namespace Double

/-- The order of single keys: that of the numbers, with NaN behind all of them. -/
def Before (x y : Float) : Prop :=
  x < y ∨ x.isNaN = false ∧ y.isNaN = true

theorem rank_lt_of_isNaN {x y : Float} (hx : x.isNaN = false) (hy : y.isNaN = true) :
    rank x < rank y := by
  have hle := (rank_le_infinite hx).2
  have hlast : (infiniteMagnitude : Int) < 2 ^ 63 := by decide
  rw [rank_of_isNaN hy]
  exact lt_of_le_of_lt hle hlast

theorem before_iff {x y : Float} : Before x y ↔ rank x < rank y := by
  unfold Before
  rw [lt_iff]
  cases hx : x.isNaN with
  | true =>
      have hnot : ¬ rank x < rank y := by
        cases hy : y.isNaN with
        | true => simp [rank_of_isNaN hx, rank_of_isNaN hy]
        | false => exact (rank_lt_of_isNaN hy hx).asymm
      simp [hnot]
  | false =>
      cases hy : y.isNaN with
      | true => simp [rank_lt_of_isNaN hx hy]
      | false => simp

end Double

/-- The lexicographic order of keys. -/
def KeysBefore : List Float → List Float → Prop
  | _, [] => False
  | [], _ :: _ => True
  | x :: xs, y :: ys => Double.Before x y ∨ Double.sameKey x y = true ∧ KeysBefore xs ys

/-- Keys that are the same at every place. -/
def sameKeys : List Float → List Float → Bool
  | [], [] => true
  | x :: xs, y :: ys => Double.sameKey x y && sameKeys xs ys
  | _, _ => false

theorem keysBefore_iff {xs ys : List Float} :
    KeysBefore xs ys ↔ xs.map Double.rank < ys.map Double.rank := by
  induction xs generalizing ys with
  | nil => cases ys <;> simp [KeysBefore]
  | cons x xs ih =>
      cases ys with
      | nil => simp [KeysBefore]
      | cons y ys =>
          simp only [KeysBefore, Double.before_iff, Double.sameKey_iff_rank, ih, List.map_cons,
            List.cons_lt_cons_iff]

theorem sameKeys_iff {xs ys : List Float} :
    sameKeys xs ys = true ↔ xs.map Double.rank = ys.map Double.rank := by
  induction xs generalizing ys with
  | nil => cases ys <;> simp [sameKeys]
  | cons x xs ih =>
      cases ys with
      | nil => simp [sameKeys]
      | cons y ys => simp [sameKeys, Double.sameKey_iff_rank, ih]

example : sameKeys [-0.0, 0.0 / 0.0] [0.0, 0.0 / 0.0] = true := by decide

/-- Tuples compare as the tuples of their ranks do. -/
theorem compares_ranks : Compares compareKeys (List.map Double.rank) := by
  intro xs ys
  induction xs generalizing ys with
  | nil =>
      cases ys with
      | nil => exact (compare_eq_iff_eq.2 rfl).symm
      | cons y ys => exact (compare_lt_iff_lt.2 (List.nil_lt_cons _ _)).symm
  | cons x xs ih =>
      cases ys with
      | nil => exact (compare_gt_iff_gt.2 (List.nil_lt_cons _ _)).symm
      | cons y ys =>
          simp only [compareKeys, compareDoubles, ih, List.map_cons]
          rcases lt_trichotomy (Double.rank x) (Double.rank y) with hlt | heq | hgt
          · rw [compare_lt_iff_lt.2 hlt, compare_lt_iff_lt.2 (List.cons_lt_cons_iff.2 (.inl hlt))]
            rfl
          · rw [heq, compare_eq_iff_eq.2 rfl, Ordering.eq_then]
            rcases lt_trichotomy (xs.map Double.rank) (ys.map Double.rank) with hlt' | heq' | hgt'
            · rw [compare_lt_iff_lt.2 hlt', compare_lt_iff_lt.2
                (List.cons_lt_cons_iff.2 (.inr ⟨rfl, hlt'⟩))]
            · rw [heq', compare_eq_iff_eq.2 rfl, compare_eq_iff_eq.2 rfl]
            · rw [compare_gt_iff_gt.2 hgt', compare_gt_iff_gt.2
                (List.cons_lt_cons_iff.2 (.inr ⟨rfl, hgt'⟩))]
          · rw [compare_gt_iff_gt.2 hgt, compare_gt_iff_gt.2 (List.cons_lt_cons_iff.2 (.inl hgt))]
            rfl

/-! ### Reducing groups -/

section Reducing

variable {κ ρ α β : Type} [LinearOrder ρ] {place : κ → ρ} {key : α → κ}

/-- Groups that have been reduced to a value each. They stand in strictly ascending order of their keys, each
    member counts in just one of them, each shows the key of its first member, and its value is one of its
    members alone. -/
structure Reduced (before : κ → κ → Prop) (same : κ → κ → Bool) (key : α → κ)
    (value : List α → β → Prop) (members : List α) (groups : List (κ × β)) : Prop where
  ascending : groups.Pairwise fun group group' => before group.1 group'.1
  unique : ∀ member ∈ members, ∃! group, group ∈ groups ∧ same (key member) group.1 = true
  first : ∀ group ∈ groups,
    (members.filter fun member => same (key member) group.1).head?.map key = some group.1
  value : ∀ group ∈ groups, value (members.filter fun member => same (key member) group.1) group.2

/-- The groups with the values of their members, if there are any. -/
def reduceGroups (reduce? : List α → Option β) (groups : List (κ × List α)) : List (κ × β) :=
  groups.filterMap fun (key, members) => (reduce? members).map fun value => (key, value)

theorem mem_reduceGroups {reduce? : List α → Option β} {groups : List (κ × List α)} {k : κ} {b : β} :
    (k, b) ∈ reduceGroups reduce? groups ↔ ∃ list, (k, list) ∈ groups ∧ reduce? list = some b := by
  simp [reduceGroups]

/-- Reducing groups leaves their keys alone. -/
theorem filter_reduceGroups {reduce? : List α → Option β} {groups : List (κ × List α)}
    (p : κ → Bool) :
    (reduceGroups reduce? groups).filter (fun group => p group.1) =
      reduceGroups reduce? (groups.filter fun group => p group.1) := by
  unfold reduceGroups
  rw [List.filter_filterMap, List.filterMap_filter]
  congr 1
  funext ⟨k, list⟩
  cases hp : p k <;> cases hreduce : reduce? list <;> simp [hp, hreduce]

namespace Grouped

variable {members : List α} {groups : List (κ × List α)}

/-- A reduction that has a value for every list of members but the empty one drops no group. -/
theorem reduced (h : Grouped place key members groups) {before : κ → κ → Prop} {same : κ → κ → Bool}
    (hbefore : ∀ x y, before x y ↔ place x < place y)
    (hsame : ∀ x y, same x y = true ↔ place x = place y) {reduce? : List α → Option β}
    {value : List α → β → Prop}
    (hvalue : ∀ list ≠ [], ∃ b, reduce? list = some b ∧ value list b) :
    Reduced before same key value members (reduceGroups reduce? groups) := by
  have hfilter : ∀ {group}, group ∈ groups →
      (members.filter fun member => same (key member) group.1) = group.2 := by
    intro group hmem
    rw [← h.members_eq hmem]
    apply List.filter_congr
    intro member _
    rw [Bool.eq_iff_iff, hsame, decide_eq_true_eq]
  exact {
    ascending := by
      apply h.ascending.filterMap
      rintro ⟨k, list⟩ ⟨k', list'⟩ hlt b hb b' hb'
      obtain ⟨v, -, rfl⟩ := Option.map_eq_some_iff.1 hb
      obtain ⟨v', -, rfl⟩ := Option.map_eq_some_iff.1 hb'
      exact (hbefore k k').2 hlt
    unique := by
      intro member hmem
      obtain ⟨⟨k, list⟩, hgroup, hplace⟩ := h.exists_group hmem
      obtain ⟨b, hb, -⟩ := hvalue list (h.ne_nil hgroup)
      refine ⟨(k, b), ⟨mem_reduceGroups.2 ⟨list, hgroup, hb⟩, (hsame _ _).2 hplace.symm⟩, ?_⟩
      rintro ⟨k', b'⟩ ⟨hreduced, hkey⟩
      obtain ⟨list', hgroup', hb'⟩ := mem_reduceGroups.1 hreduced
      obtain ⟨rfl, rfl⟩ := Prod.mk.inj (h.eq_of_place_eq hgroup' hgroup
        (((hsame _ _).1 hkey).symm.trans hplace.symm))
      rw [Option.some.inj (hb'.symm.trans hb)]
    first := by
      rintro ⟨k, b⟩ hreduced
      obtain ⟨list, hgroup, -⟩ := mem_reduceGroups.1 hreduced
      rw [hfilter hgroup]
      exact h.first _ hgroup
    value := by
      rintro ⟨k, b⟩ hreduced
      obtain ⟨list, hgroup, hb⟩ := mem_reduceGroups.1 hreduced
      obtain ⟨b', hb', hb'value⟩ := hvalue list (h.ne_nil hgroup)
      rw [hfilter hgroup, Option.some.inj (hb.symm.trans hb')]
      exact hb'value }

end Grouped

end Reducing

/-! ### Values -/

/-- The best of some values: one of them that no number among them exceeds, and NaN only if all are NaN. -/
structure IsBest (values : List Float) (best : Float) : Prop where
  mem : best ∈ values
  le : ∀ value ∈ values, value.isNaN = false → value ≤ best
  isNaN_iff : best.isNaN = true ↔ ∀ value ∈ values, value.isNaN = true

theorem isBest_largest {values : List Float} (h : values ≠ []) : IsBest values (largest values) := by
  by_cases hexists : ∃ value ∈ values, value.isNaN = false
  · obtain ⟨hmem, hnum⟩ := largest_mem hexists
    refine ⟨hmem, fun value => le_largest, ?_⟩
    simp only [hnum, Bool.false_eq_true, false_iff]
    intro hall
    obtain ⟨value, hvalue, hvalue'⟩ := hexists
    exact Bool.noConfusion ((hall value hvalue).symm.trans hvalue')
  · have hall : ∀ value ∈ values, value.isNaN = true := by
      simpa using hexists
    obtain ⟨value, hmem⟩ := List.exists_mem_of_ne_nil values h
    have hnan : (0.0 / 0.0 : Float).isNaN = true := by decide
    rw [largest_of_forall_isNaN hall]
    refine ⟨?_, fun value hmem hnum => ?_, iff_of_true hnan hall⟩
    · rwa [Double.eq_of_isNaN hnan (hall value hmem)]
    · exact Bool.noConfusion ((hall value hmem).symm.trans hnum)

/-- What the value of a group is. The mean is the sum of the measures of its runs, in their order, divided by
    their number. The mean of the best adds up one best measure for each entity, in ascending order of the
    entities. -/
def Reduction.IsValue (measure : Measure) (runs : List Run) (value : Float) : Reduction → Prop
  | .mean => value = (runs.map measure.of).foldl (fun sum value => sum + value) 0.0 / Float.ofNat runs.length
  | .meanOfBest entity => ∃ bests : List (Float × Float),
      Reduced Double.Before Double.sameKey (fun run : Run => run.get entity)
        (fun members best => IsBest (members.map measure.of) best) runs bests ∧
      value = (bests.map Prod.snd).foldl (fun sum value => sum + value) 0.0 / Float.ofNat bests.length

theorem reduced_bestByEntity (entity : Column) (measure : Measure) (runs : List Run) :
    Reduced Double.Before Double.sameKey (fun run : Run => run.get entity)
      (fun members best => IsBest (members.map measure.of) best) runs
      (bestByEntity entity measure runs) := by
  have hgrouped := groupBy_grouped compares_rank (fun run : Run => run.get entity) runs
  have hreduce : bestByEntity entity measure runs =
      reduceGroups (fun members => best? (members.map measure.of))
        (groupBy compareDoubles (fun run => run.get entity) runs) := rfl
  rw [hreduce]
  apply hgrouped.reduced (fun _ _ => Double.before_iff) fun _ _ => Double.sameKey_iff_rank
  intro members hne
  have hmeasures : members.map measure.of ≠ [] := mt List.map_eq_nil_iff.1 hne
  refine ⟨largest (members.map measure.of), ?_, isBest_largest hmeasures⟩
  simp [best?_eq, hne]

/-- Every group has a value. -/
theorem Reduction.exists_value (reduction : Reduction) (measure : Measure) {runs : List Run}
    (h : runs ≠ []) :
    ∃ value, reduction.apply measure runs = some value ∧ reduction.IsValue measure runs value := by
  cases reduction with
  | mean => exact ⟨_, Reduction.apply_mean h measure, by simp [IsValue, EvalCharts.mean]⟩
  | meanOfBest entity =>
      refine ⟨_, Reduction.apply_meanOfBest h entity measure, bestByEntity entity measure runs,
        reduced_bestByEntity entity measure runs, ?_⟩
      have hbest := bestByEntity_eq entity measure runs
      have hlength := congrArg List.length hbest
      rw [List.length_map] at hlength
      rw [hbest, hlength]
      rfl

/-! ### Groups of runs -/

theorem aggregate_eq (keys : List Column) (measure : Measure) (reduction : Reduction) (runs : List Run) :
    aggregate keys measure reduction runs =
      reduceGroups (reduction.apply measure) (groupBy compareKeys (fun run => keys.map run.get) runs) := rfl

theorem reduced_aggregate (keys : List Column) (measure : Measure) (reduction : Reduction)
    (runs : List Run) :
    Reduced KeysBefore sameKeys (fun run : Run => keys.map run.get)
      (fun members value => reduction.IsValue measure members value) runs
      (aggregate keys measure reduction runs) := by
  have hgrouped := groupBy_grouped compares_ranks (fun run : Run => keys.map run.get) runs
  rw [aggregate_eq]
  apply hgrouped.reduced (fun _ _ => keysBefore_iff) fun _ _ => sameKeys_iff
  intro members hne
  exact reduction.exists_value measure hne

/-- The group of a key is what the runs with this key alone are reduced to. -/
theorem filter_aggregate (keys : List Column) (measure : Measure) (reduction : Reduction)
    (runs : List Run) (key : List Float) :
    (aggregate keys measure reduction runs).filter (fun group => sameKeys group.1 key) =
      aggregate keys measure reduction (runs.filter fun run => sameKeys (keys.map run.get) key) := by
  have hgroups := filter_groupBy compares_ranks (fun run : Run => keys.map run.get) runs
    fun other => (sameKeys_iff : sameKeys other key = true ↔ _)
  rw [aggregate_eq, aggregate_eq, filter_reduceGroups fun other => sameKeys other key, hgroups]

/-- The result of an aggregation, for any runs, keys and measure: one group for each key of the runs, in
    lexicographic order, worth what the runs with this key, and no others, amount to. -/
theorem aggregate_groups (keys : List Column) (measure : Measure) (reduction : Reduction)
    (runs : List Run) :
    Reduced KeysBefore sameKeys (fun run : Run => keys.map run.get)
        (fun members value => reduction.IsValue measure members value) runs
        (aggregate keys measure reduction runs) ∧
      ∀ key, (aggregate keys measure reduction runs).filter (fun group => sameKeys group.1 key) =
        aggregate keys measure reduction (runs.filter fun run => sameKeys (keys.map run.get) key) :=
  ⟨reduced_aggregate keys measure reduction runs, filter_aggregate keys measure reduction runs⟩

end EvalCharts
