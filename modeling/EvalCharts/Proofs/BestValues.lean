/-
Module: EvalCharts.Proofs.BestValues
Purpose: What a mean of best values depends on. Each entity counts once, with its largest measure, so runs
  that match each other have one mean, and more runs of the same entities have no smaller one, rounding and
  overflow included.
Main exports: rank_largest_congr, mean_congr, mean_le_mean, Outdone, meanOfLargest_congr, meanOfLargest_le
-/
import EvalCharts.Proofs.Aggregation
import EvalCharts.Proofs.Sums

namespace EvalCharts

/-! ### Largest values -/

/-- Values that outdo each other have largest values at one place. -/
theorem rank_largest_congr {values values' : List Float}
    (h : ∀ value ∈ values, value.isNaN = false → ∃ value' ∈ values', value ≤ value')
    (h' : ∀ value ∈ values', value.isNaN = false → ∃ value' ∈ values, value ≤ value') :
    Double.rank (largest values) = Double.rank (largest values') := by
  -- the largest of some values is below that of others which outdo them
  have hle : ∀ {list list' : List Float},
      (∀ value ∈ list, value.isNaN = false → ∃ value' ∈ list', value ≤ value') →
      (∃ value ∈ list, value.isNaN = false) →
      Double.rank (largest list) ≤ Double.rank (largest list') := by
    intro list list' hout hexists
    obtain ⟨hmem, hnum⟩ := largest_mem hexists
    obtain ⟨value', hmem', hle⟩ := hout _ hmem hnum
    obtain ⟨-, hnum', hrank⟩ := Double.le_iff.1 hle
    exact hrank.trans (Double.le_iff.1 (le_largest hmem' hnum')).2.2
  by_cases hexists : ∃ value ∈ values, value.isNaN = false
  · obtain ⟨value, hmem, hnum⟩ := hexists
    obtain ⟨value', hmem', hvalue⟩ := h value hmem hnum
    have hexists' : ∃ value ∈ values', value.isNaN = false :=
      ⟨value', hmem', (Double.le_iff.1 hvalue).2.1⟩
    exact le_antisymm (hle h ⟨value, hmem, hnum⟩) (hle h' hexists')
  · have hnan : ∀ value ∈ values, value.isNaN = true := by simpa using hexists
    have hnan' : ∀ value ∈ values', value.isNaN = true := by
      intro value hmem
      by_contra hnum
      obtain ⟨value', hmem', hvalue⟩ := h' value hmem (by simpa using hnum)
      exact hexists ⟨value', hmem', (Double.le_iff.1 hvalue).2.1⟩
    rw [largest_of_forall_isNaN hnan, largest_of_forall_isNaN hnan']

/-- Among more numbers the largest one is larger. -/
theorem largest_le_largest {values values' : List Float} (hne : values ≠ [])
    (hsub : values ⊆ values') (hfinite : ∀ value ∈ values', value.isFinite = true) :
    largest values ≤ largest values' := by
  obtain ⟨value, hvalue⟩ := List.exists_mem_of_ne_nil _ hne
  have hmem := largest_mem ⟨value, hvalue, Double.isNaN_of_isFinite (hfinite value (hsub hvalue))⟩
  exact le_largest (hsub hmem.1) hmem.2

theorem isFinite_largest {values : List Float} (hne : values ≠ [])
    (hfinite : ∀ value ∈ values, value.isFinite = true) : (largest values).isFinite = true := by
  obtain ⟨value, hvalue⟩ := List.exists_mem_of_ne_nil _ hne
  have hmem := largest_mem ⟨value, hvalue, Double.isNaN_of_isFinite (hfinite value hvalue)⟩
  exact hfinite _ hmem.1

/-! ### Means -/

theorem mean_congr {values values' : List Float}
    (h : List.Forall₂ (fun value value' => Double.rank value = Double.rank value') values values') :
    mean values = mean values' := by
  rw [mean_eq_total, mean_eq_total, total_congr h, h.length_eq]

/-- Summing finite summands that are larger one by one yields a larger sum, if it starts from a larger
    one. -/
theorem sum_le_sum {α : Type} {f g : α → Float} :
    ∀ {list : List α} {sum sum' : Float},
      (∀ a ∈ list, f a ≤ g a ∧ (f a).isFinite = true ∧ (g a).isFinite = true) → sum ≤ sum' →
      (list.map f).foldl (fun total value => total + value) sum ≤
        (list.map g).foldl (fun total value => total + value) sum'
  | [], _, _, _, hsum => hsum
  | a :: list, sum, sum', h, hsum => by
      obtain ⟨hle, hf, hg⟩ := h a List.mem_cons_self
      rw [List.map_cons, List.map_cons, List.foldl_cons, List.foldl_cons]
      exact sum_le_sum (fun a hmem => h a (List.mem_cons_of_mem _ hmem))
        (Double.add_le_add hsum hle hf hg)

/-- Means over equally many values keep the order. -/
theorem mean_le_mean {α : Type} {f g : α → Float} {list : List α} (hne : list ≠ [])
    (hlength : list.length ≤ 2 ^ 65)
    (h : ∀ a ∈ list, f a ≤ g a ∧ (f a).isFinite = true ∧ (g a).isFinite = true) :
    mean (list.map f) ≤ mean (list.map g) := by
  unfold mean
  rw [List.length_map, List.length_map]
  exact Double.div_le_div_right (sum_le_sum h (by decide))
    (Double.positive_ofNat (mt List.length_eq_zero_iff.1 hne) hlength)

/-! ### Means over entities -/

section Entities

variable {entity measure : Run → Float} {runs runs' : List Run}

variable (entity measure runs runs') in
/-- Each of some runs is outdone by a run of the same entity among others: by one whose measure is no smaller,
    or by any if its own measure is NaN. -/
def Outdone : Prop :=
  ∀ run ∈ runs, ∃ run' ∈ runs', Double.rank (entity run) = Double.rank (entity run') ∧
    ((measure run).isNaN = false → measure run ≤ measure run')

theorem Outdone.of_subset (h : runs ⊆ runs') : Outdone entity measure runs runs' :=
  fun run hmem => ⟨run, h hmem, rfl, fun hnum => Double.le_of_rank_le hnum hnum le_rfl⟩

theorem Outdone.exists_rank_eq (h : Outdone entity measure runs runs') :
    ∀ run ∈ runs, ∃ run' ∈ runs', Double.rank (entity run) = Double.rank (entity run') := by
  intro run hmem
  obtain ⟨run', hmem', hentity, -⟩ := h run hmem
  exact ⟨run', hmem', hentity⟩

/-- What outdoes a run is found among the runs of its own entity. -/
theorem Outdone.runsAt (h : Outdone entity measure runs runs') (p : Int) :
    ∀ value ∈ (runsAt entity runs p).map measure, value.isNaN = false →
      ∃ value' ∈ (runsAt entity runs' p).map measure, value ≤ value' := by
  intro value hvalue hnum
  obtain ⟨run, hrun, rfl⟩ := List.mem_map.1 hvalue
  obtain ⟨hmem, hp⟩ := List.mem_filter.1 hrun
  obtain ⟨run', hmem', hentity, hle⟩ := h run hmem
  rw [decide_eq_true_eq, hentity] at hp
  exact ⟨measure run', List.mem_map_of_mem (List.mem_filter.2 ⟨hmem', decide_eq_true hp⟩), hle hnum⟩

/-- Runs that outdo each other have one mean of the largest measures of the entities. -/
theorem meanOfLargest_congr (h : Outdone entity measure runs runs')
    (h' : Outdone entity measure runs' runs) :
    meanOfLargest entity measure runs = meanOfLargest entity measure runs' := by
  unfold meanOfLargest
  rw [places_congr (exists_place_iff h.exists_rank_eq h'.exists_rank_eq)]
  apply mean_congr
  rw [List.forall₂_map_left_iff, List.forall₂_map_right_iff, List.forall₂_same]
  intro p _
  exact rank_largest_congr (h.runsAt p) (h'.runsAt p)

/-- More runs of the same entities have a larger mean of the largest measures. -/
theorem meanOfLargest_le (hne : runs ≠ []) (hsub : runs ⊆ runs')
    (hfinite : ∀ run ∈ runs', (measure run).isFinite = true)
    (hentities : ∀ run ∈ runs', ∃ run' ∈ runs, Double.rank (entity run') = Double.rank (entity run)) :
    meanOfLargest entity measure runs ≤ meanOfLargest entity measure runs' := by
  have hplaces : places (fun run => Double.rank (entity run)) runs =
      places (fun run => Double.rank (entity run)) runs' :=
    places_congr (exists_place_iff (fun run hmem => ⟨run, hsub hmem, rfl⟩) fun run hmem =>
      (hentities run hmem).imp fun run' h => ⟨h.1, h.2.symm⟩)
  unfold meanOfLargest
  rw [← hplaces]
  apply mean_le_mean (mt places_eq_nil.1 hne) ((length_places_rank _ _).le.trans (by decide))
  intro p hp
  -- an entity has some of its runs among the fewer ones, and all of these among the others
  have hsubAt : (runsAt entity runs p).map measure ⊆ (runsAt entity runs' p).map measure :=
    List.map_subset _ fun run hmem =>
      List.mem_filter.2 ⟨hsub (List.mem_filter.1 hmem).1, (List.mem_filter.1 hmem).2⟩
  have hneAt : (runsAt entity runs p).map measure ≠ [] :=
    mt List.map_eq_nil_iff.1 (runsAt_ne_nil hp)
  have hfiniteAt : ∀ value ∈ (runsAt entity runs' p).map measure, value.isFinite = true := by
    intro value hmem
    obtain ⟨run, hrun, rfl⟩ := List.mem_map.1 hmem
    exact hfinite run (List.mem_filter.1 hrun).1
  have hneAt' := List.ne_nil_of_mem (hsubAt (List.getElem_mem (List.length_pos_of_ne_nil hneAt)))
  exact ⟨largest_le_largest hneAt hsubAt hfiniteAt,
    isFinite_largest hneAt fun value hmem => hfiniteAt value (hsubAt hmem),
    isFinite_largest hneAt' hfiniteAt⟩

end Entities

end EvalCharts
