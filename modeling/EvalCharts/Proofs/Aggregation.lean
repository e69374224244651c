/-
Module: EvalCharts.Proofs.Aggregation
Purpose: What the values of groups are. The best of some values is the largest number among them; the
  value of a group is a mean over its runs, or over the largest measures of its entities; and no group is
  dropped.
Main exports: length_places_rank, foldl_maximum, highest?, largest, best?_eq, mean, mean_eq_total, meanOfLargest,
  Reduction.apply_mean, Reduction.apply_meanOfBest, aggregate_single, aggregate_whole
-/
import EvalCharts.Proofs.Grouping
import EvalCharts.Proofs.Double.Order

namespace EvalCharts

/-- There are fewer places for doubles than there are bit patterns. -/
theorem length_places_rank {α : Type} (key : α → Float) (members : List α) :
    (places (fun member => Double.rank (key member)) members).length < 2 ^ 64 := by
  have hsub : (places (fun member => Double.rank (key member)) members).toFinset ⊆
      Finset.Icc (-(Double.infiniteMagnitude : Int)) (2 ^ 63) := by
    intro p hp
    obtain ⟨member, -, hrank⟩ := mem_places.1 (List.mem_toFinset.1 hp)
    have hinf : (Double.infiniteMagnitude : Int) < 2 ^ 63 := by decide
    rw [Finset.mem_Icc, ← hrank]
    cases hnan : (key member).isNaN with
    | true =>
        rw [Double.rank_of_isNaN hnan]
        omega
    | false =>
        have := Double.rank_le_infinite hnan
        omega
  have hnodup : (places (fun member => Double.rank (key member)) members).Nodup :=
    (places_ascending _ _).imp ne_of_lt
  have hinf : (Double.infiniteMagnitude : Int) = 2 ^ 63 - 2 ^ 52 := by decide
  have hcard := Finset.card_le_card hsub
  rw [List.toFinset_card_of_nodup hnodup, Int.card_Icc] at hcard
  omega

/-! ### The best of some values -/

/-- The first of some members that take the highest place. -/
def highest? {α ρ : Type} [LinearOrder ρ] (place : α → ρ) (members : List α) : Option α :=
  members.argmax place

/-- The largest number among some values, or NaN if none of them is a number. -/
def largest (values : List Float) : Float :=
  (highest? Double.rank (values.filter fun value => !value.isNaN)).getD (0.0 / 0.0)

theorem filter_of_forall_isNaN {values : List Float} (h : ∀ value ∈ values, value.isNaN = true) :
    (values.filter fun value => !value.isNaN) = [] := by
  rw [List.filter_eq_nil_iff]
  intro value hmem
  rw [h value hmem]
  exact Bool.false_ne_true

theorem largest_of_forall_isNaN {values : List Float} (h : ∀ value ∈ values, value.isNaN = true) :
    largest values = 0.0 / 0.0 := by
  rw [largest, filter_of_forall_isNaN h]
  rfl

theorem highest?_of_exists {values : List Float} (h : ∃ value ∈ values, value.isNaN = false) :
    highest? Double.rank (values.filter fun value => !value.isNaN) = some (largest values) := by
  unfold largest
  cases hmax : highest? Double.rank (values.filter fun value => !value.isNaN) with
  | none =>
      obtain ⟨value, hmem, hnum⟩ := h
      have hnil := List.filter_eq_nil_iff.1 (List.argmax_eq_none.1 hmax) value hmem
      rw [hnum] at hnil
      exact absurd rfl hnil
  | some value => rfl

/-- Where there is a number, the largest one is among the values. -/
theorem largest_mem {values : List Float} (h : ∃ value ∈ values, value.isNaN = false) :
    largest values ∈ values ∧ (largest values).isNaN = false := by
  have hmem := List.mem_filter.1 (List.argmax_mem (highest?_of_exists h))
  exact ⟨hmem.1, by simpa using hmem.2⟩

theorem le_largest {values : List Float} {value : Float} (hmem : value ∈ values)
    (hnum : value.isNaN = false) : value ≤ largest values := by
  have hexists : ∃ value ∈ values, value.isNaN = false := ⟨value, hmem, hnum⟩
  have hmax := List.not_lt_of_mem_argmax
    (List.mem_filter.2 ⟨hmem, by rw [hnum]; rfl⟩) (highest?_of_exists hexists)
  exact Double.le_iff.2 ⟨hnum, (largest_mem hexists).2, not_lt.1 hmax⟩

theorem largest_singleton (value : Float) : largest [value] = value := by
  cases hnum : value.isNaN with
  | true =>
      rw [largest_of_forall_isNaN (by simpa using hnum)]
      exact Double.eq_of_isNaN (by decide) hnum
  | false =>
      have hmem := (largest_mem ⟨value, List.mem_singleton_self value, hnum⟩).1
      exact List.mem_singleton.1 hmem

/-- One more value replaces the largest one only if it is larger. -/
theorem largest_concat (values : List Float) (value : Float) :
    largest (values ++ [value]) = Double.maximum (largest values) value := by
  by_cases hexists : ∃ value ∈ values, value.isNaN = false
  · have hmax := highest?_of_exists hexists
    obtain ⟨-, hnum⟩ := largest_mem hexists
    unfold Double.maximum
    rw [hnum, if_neg Bool.false_ne_true]
    cases hvalue : value.isNaN with
    | true =>
        have hfilter : ((values ++ [value]).filter fun value => !value.isNaN) =
            values.filter fun value => !value.isNaN := by
          rw [List.filter_append, List.filter_cons, hvalue]
          exact List.append_nil _
        rw [if_pos rfl]
        unfold largest
        rw [hfilter]
    | false =>
        have hfilter : ((values ++ [value]).filter fun value => !value.isNaN) =
            (values.filter fun value => !value.isNaN) ++ [value] := by
          rw [List.filter_append, List.filter_cons, hvalue]
          rfl
        have hlt : largest values < value ↔ Double.rank (largest values) < Double.rank value := by
          rw [Double.lt_iff, hnum, hvalue]
          simp
        have hconcat : highest? Double.rank ((values ++ [value]).filter fun value => !value.isNaN) =
            if Double.rank (largest values) < Double.rank value then some value
            else some (largest values) := by
          unfold highest? at hmax ⊢
          rw [hfilter, List.argmax_concat, hmax]
        rw [if_neg Bool.false_ne_true]
        conv_lhs => unfold largest
        rw [hconcat]
        by_cases h : largest values < value
        · rw [if_pos h, if_pos (hlt.1 h)]
          rfl
        · rw [if_neg h, if_neg (mt hlt.2 h)]
          rfl
  · have hnan : ∀ value ∈ values, value.isNaN = true := by
      intro value hmem
      by_contra hne
      exact hexists ⟨value, hmem, by simpa using hne⟩
    have hfilter : ((values ++ [value]).filter fun value => !value.isNaN) =
        [value].filter fun value => !value.isNaN := by
      rw [List.filter_append, filter_of_forall_isNaN hnan, List.nil_append]
    have hsingle : largest (values ++ [value]) = largest [value] := by
      unfold largest
      rw [hfilter]
    rw [hsingle, largest_singleton, largest_of_forall_isNaN hnan]
    rfl

/-- The best of some values is the largest number among them. -/
theorem best?_eq (values : List Float) :
    best? values = if values = [] then none else some (largest values) := by
  cases values with
  | nil => rfl
  | cons value values =>
      rw [best?, if_neg (List.cons_ne_nil _ _)]
      congr 1
      induction values using List.reverseRecOn with
      | nil => exact (largest_singleton value).symm
      | append_singleton values last ih =>
          rw [List.foldl_append, ih, ← List.cons_append, largest_concat]
          rfl

/-- Numbers are folded to the largest one. -/
theorem foldl_maximum {first : Float} {rest : List Float}
    (h : ∀ value ∈ first :: rest, value.isNaN = false) :
    rest.foldl Double.maximum first ∈ first :: rest ∧
      ∀ value ∈ first :: rest, value ≤ rest.foldl Double.maximum first := by
  have hbest := best?_eq (first :: rest)
  rw [best?, if_neg (List.cons_ne_nil _ _), Option.some.injEq] at hbest
  rw [hbest]
  exact ⟨(largest_mem ⟨first, List.mem_cons_self, h _ List.mem_cons_self⟩).1,
    fun value hvalue => le_largest hvalue (h value hvalue)⟩

/-! ### Means -/

/-- The arithmetic mean of some values: they are added in their order, from positive zero on, and their sum
    is divided by their number. -/
def mean (values : List Float) : Float :=
  values.foldl (fun sum value => sum + value) 0.0 / Float.ofNat values.length

theorem mean_eq_total (values : List Float) : mean values = total values / Float.ofNat values.length := rfl

theorem mean?_eq (values : List Float) :
    mean? values = if values = [] then none else some (mean values) := rfl

/-- The runs whose key takes one place. -/
def runsAt (key : Run → Float) (runs : List Run) (p : Int) : List Run :=
  runs.filter fun run => Double.rank (key run) = p

theorem runsAt_ne_nil {key : Run → Float} {runs : List Run} {p : Int}
    (hp : p ∈ places (fun run => Double.rank (key run)) runs) : runsAt key runs p ≠ [] := by
  obtain ⟨run, hmem, hrank⟩ := mem_places.1 hp
  exact List.ne_nil_of_mem (List.mem_filter.2 ⟨hmem, decide_eq_true hrank⟩)

/-- The first run at a place is one of the runs, and its key takes the place. -/
theorem of_head?_runsAt {key : Run → Float} {runs : List Run} {p : Int} {first : Run}
    (h : (runsAt key runs p).head? = some first) : first ∈ runs ∧ Double.rank (key first) = p := by
  obtain ⟨hmem, hrank⟩ := List.mem_filter.1 (List.mem_of_mem_head? h)
  exact ⟨hmem, of_decide_eq_true hrank⟩

/-- The group at a place is that of the runs at the place. -/
theorem classAt?_eq_runsAt (key : Run → Float) (runs : List Run) (p : Int) :
    classAt? Double.rank key runs p =
      (runsAt key runs p).head?.map fun first => (key first, runsAt key runs p) := by
  unfold classAt? runsAt
  split
  · rename_i h
    rw [h]
    rfl
  · rename_i first rest h
    rw [h]
    rfl

/-- Every place of some runs has a group. -/
theorem classAt?_of_mem {key : Run → Float} {runs : List Run} {p : Int}
    (hp : p ∈ places (fun run => Double.rank (key run)) runs) :
    ∃ first, (runsAt key runs p).head? = some first ∧
      classAt? Double.rank key runs p = some (key first, runsAt key runs p) := by
  rw [classAt?_eq_runsAt]
  cases h : runsAt key runs p with
  | nil => exact absurd h (runsAt_ne_nil hp)
  | cons first rest => exact ⟨first, rfl, rfl⟩

/-- The mean, over the entities in ascending order, of the largest measure of each. -/
def meanOfLargest (entity measure : Run → Float) (runs : List Run) : Float :=
  mean ((places (fun run => Double.rank (entity run)) runs).map fun p =>
    largest ((runsAt entity runs p).map measure))

theorem bestByEntity_eq (entity : Column) (measure : Measure) (runs : List Run) :
    (bestByEntity entity measure runs).map Prod.snd =
      (places (fun run => Double.rank (run.get entity)) runs).map fun p =>
        largest ((runsAt (fun run => run.get entity) runs p).map measure.of) := by
  unfold bestByEntity
  rw [groupBy_eq compares_rank, List.filterMap_filterMap, List.map_filterMap]
  refine Eq.trans (List.filterMap_congr (g := some ∘ fun p => largest
    ((runsAt (fun run => run.get entity) runs p).map measure.of)) fun p hp => ?_)
    (congrFun List.filterMap_eq_map _)
  obtain ⟨first, -, hclass⟩ := classAt?_of_mem hp
  have hne : (runsAt (fun run => run.get entity) runs p).map measure.of ≠ [] := by
    rw [ne_eq, List.map_eq_nil_iff]
    exact runsAt_ne_nil hp
  simp only [hclass, Option.bind_some, best?_eq, if_neg hne, Option.map_some, Function.comp_apply]

namespace Reduction

/-- The mean of a group that is not empty. -/
theorem apply_mean {runs : List Run} (h : runs ≠ []) (measure : Measure) :
    Reduction.mean.apply measure runs = some (EvalCharts.mean (runs.map measure.of)) := by
  unfold apply
  rw [mean?_eq, if_neg (mt List.map_eq_nil_iff.1 h)]

/-- The mean of the largest measures in a group that is not empty. -/
theorem apply_meanOfBest {runs : List Run} (h : runs ≠ []) (entity : Column) (measure : Measure) :
    (Reduction.meanOfBest entity).apply measure runs =
      some (meanOfLargest (fun run => run.get entity) measure.of runs) := by
  change mean? ((bestByEntity entity measure runs).map Prod.snd) = _
  rw [bestByEntity_eq, mean?_eq, if_neg]
  · rfl
  · rw [List.map_eq_nil_iff, places_eq_nil]
    exact h

end Reduction

/-! ### Groups of runs -/

theorem compareKeys_singleton (x y : Float) : compareKeys [x] [y] = compareDoubles x y := by
  unfold compareKeys
  cases compareDoubles x y <;> rfl

/-- Without keys all runs form one group. -/
theorem aggregate_whole (measure : Measure) (reduction : Reduction) (runs : List Run) :
    aggregate [] measure reduction runs =
      if runs = [] then []
      else ((reduction.apply measure runs).map fun value => ([], value)).toList := by
  unfold aggregate
  simp only [List.map_nil]
  rw [groupBy_const rfl]
  split
  · rfl
  · cases h : reduction.apply measure runs <;> simp [h]

/-- The mean of the measures of the runs at one place, under the key of the first of them. -/
def meanAt? (key measure : Run → Float) (runs : List Run) (p : Int) : Option (Float × Float) :=
  (runsAt key runs p).head?.map fun first => (key first, mean ((runsAt key runs p).map measure))

/-- The mean of the measures for each key, in ascending order of the keys. -/
def meanCurve (key measure : Run → Float) (runs : List Run) : List (Float × Float) :=
  (places (fun run => Double.rank (key run)) runs).filterMap (meanAt? key measure runs)

/-- A curve has just one point for each key. -/
theorem meanCurve_places (key measure : Run → Float) (runs : List Run) :
    (meanCurve key measure runs).map (fun point => Double.rank point.1) =
      places (fun run => Double.rank (key run)) runs := by
  unfold meanCurve
  rw [List.map_filterMap]
  refine Eq.trans (List.filterMap_congr fun p hp => ?_) List.filterMap_some
  obtain ⟨first, hfirst, -⟩ := classAt?_of_mem hp
  have hmem := List.mem_filter.1 (List.mem_of_mem_head? hfirst)
  simp only [meanAt?, hfirst, Option.map_some, of_decide_eq_true hmem.2]

/-- With a single key column and means, the groups are the points of a curve. -/
theorem aggregate_single (column : Column) (measure : Measure) (runs : List Run) :
    aggregate [column] measure .mean runs =
      (meanCurve (fun run => run.get column) measure.of runs).map fun point => ([point.1], point.2) := by
  unfold aggregate meanCurve
  have hgroups := groupBy_map_key (f := fun x : Float => [x]) compareKeys_singleton
    (fun run : Run => run.get column) runs
  simp only [List.map_cons, List.map_nil]
  rw [hgroups, groupBy_eq compares_rank, List.map_filterMap, List.filterMap_filterMap,
    List.map_filterMap]
  apply List.filterMap_congr
  intro p hp
  obtain ⟨first, hfirst, hclass⟩ := classAt?_of_mem hp
  simp only [hclass, meanAt?, hfirst, Option.map_some, Option.bind_some,
    Reduction.apply_mean (runsAt_ne_nil hp)]

end EvalCharts
