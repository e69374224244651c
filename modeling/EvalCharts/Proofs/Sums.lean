/-
Module: EvalCharts.Proofs.Sums
Purpose: Running sums of doubles. A sum depends on the places of its summands alone; summands that need no
  rounding are added exactly; and the error of any other sum is bounded by the number of its summands and
  by their absolute values. Hence some values have the same sum in every order, and all finite ones have
  close sums.
Main exports: total_congr, exactTotal, absoluteTotal, AddExactly, addExactly_ofNat, total_error, OrderFree,
  total_perm, total_perm_close
-/
import EvalCharts.Proofs.Double.Accuracy
import EvalCharts.Aggregate

namespace EvalCharts

theorem total_concat (values : List Float) (value : Float) :
    total (values ++ [value]) = total values + value := by
  simp [total]

theorem total_ne_negative_zero (values : List Float) : total values ≠ -0.0 := by
  induction values using List.reverseRecOn with
  | nil => decide
  | append_singleton values value ih =>
      rw [total_concat]
      exact Double.add_ne_negative_zero ih value

/-- Running sums agree as long as they begin at the same key and add the same keys. -/
theorem foldl_add_congr {values values' : List Float}
    (h : List.Forall₂ (fun value value' => Double.rank value = Double.rank value') values values') :
    ∀ {sum sum' : Float}, Double.rank sum = Double.rank sum' →
      Double.rank (values.foldl (fun total value => total + value) sum) =
        Double.rank (values'.foldl (fun total value => total + value) sum') := by
  induction h with
  | nil => exact id
  | cons hvalue _ ih => exact fun hsum => ih (Double.rank_add_congr hsum hvalue)

/-- Summands that are the same keys one by one have one sum. -/
theorem total_congr {values values' : List Float}
    (h : List.Forall₂ (fun value value' => Double.rank value = Double.rank value') values values') :
    total values = total values' :=
  Double.eq_of_rank_eq (foldl_add_congr h rfl) (total_ne_negative_zero _) (total_ne_negative_zero _)

/-! ### Two summands -/

theorem total_pair (x y : Float) : total [x, y] = total [y, x] := by
  refine Double.eq_of_rank_eq ?_ (total_ne_negative_zero _) (total_ne_negative_zero _)
  have h := Double.rank_add_congr (Double.rank_positive_zero_add x) (rfl : Double.rank y = Double.rank y)
  have h' := Double.rank_add_congr (Double.rank_positive_zero_add y) (rfl : Double.rank x = Double.rank x)
  calc Double.rank (total [x, y]) = Double.rank (x + y) := h
    _ = Double.rank (y + x) := by rw [Double.add_swap]
    _ = Double.rank (total [y, x]) := h'.symm

/-! ### Exact sums -/

/-- The exact sum of finite doubles, in units. -/
def exactTotal (values : List Float) : Int :=
  (values.map Double.signedUnits).sum

/-- The sum of the absolute values of finite doubles, in units. -/
def absoluteTotal (values : List Float) : Nat :=
  (values.map Double.units).sum

/-- Values that are added without any rounding: they are finite, and whole multiples of one power of two,
    and together they come to no more than `2 ^ 53` of it. -/
structure AddExactly (values : List Float) : Prop where
  finite : ∀ value ∈ values, value.isFinite = true
  fit : ∃ e ≤ 2044, (∀ value ∈ values, 2 ^ e ∣ Double.units value) ∧
    absoluteTotal values ≤ 2 ^ 53 * 2 ^ e

theorem exactTotal_concat (values : List Float) (value : Float) :
    exactTotal (values ++ [value]) = exactTotal values + Double.signedUnits value := by
  simp [exactTotal]

theorem absoluteTotal_concat (values : List Float) (value : Float) :
    absoluteTotal (values ++ [value]) = absoluteTotal values + Double.units value := by
  simp [absoluteTotal]

theorem natAbs_exactTotal_le (values : List Float) :
    (exactTotal values).natAbs ≤ absoluteTotal values := by
  induction values with
  | nil => rfl
  | cons value values ih =>
      have h := Double.natAbs_signedUnits value
      simp only [exactTotal, absoluteTotal, List.map_cons, List.sum_cons] at ih ⊢
      omega

theorem dvd_exactTotal {e : Nat} {values : List Float}
    (h : ∀ value ∈ values, 2 ^ e ∣ Double.units value) : 2 ^ e ∣ (exactTotal values).natAbs := by
  rw [← Int.natCast_dvd]
  refine List.dvd_sum ?_
  intro s hs
  obtain ⟨value, hmem, rfl⟩ := List.mem_map.1 hs
  rw [Int.natCast_dvd, Double.natAbs_signedUnits]
  exact h value hmem

/-- Exact additions never round, neither up to the sum nor on the way. -/
theorem AddExactly.total_eq {values : List Float} (h : AddExactly values) :
    (total values).isFinite = true ∧ Double.signedUnits (total values) = exactTotal values := by
  obtain ⟨hfinite, e, he, hdvd, hsize⟩ := h
  induction values using List.reverseRecOn with
  | nil => exact ⟨by decide, Double.signedUnits_eq_zero (by decide)⟩
  | append_singleton values value ih =>
      rw [absoluteTotal_concat] at hsize
      obtain ⟨hfin, heq⟩ := ih (fun v hv => hfinite v (List.mem_append_left _ hv))
        (fun v hv => hdvd v (List.mem_append_left _ hv)) (by omega)
      have hlast := hfinite value (by simp)
      have hle := natAbs_exactTotal_le (values ++ [value])
      obtain ⟨c, hc⟩ := dvd_exactTotal hdvd
      obtain ⟨m, hm, hunits⟩ := Double.exists_unitsOf (g := c) (e := e) (by
        rw [hc, absoluteTotal_concat, Nat.mul_comm] at hle
        exact Nat.le_of_mul_le_mul_right (hle.trans hsize) (Nat.two_pow_pos e)) he
      rw [total_concat]
      obtain ⟨hfin', heq'⟩ := Double.signedUnits_add hfin hlast hm (by
        rw [heq, ← exactTotal_concat, hc, hunits, Nat.mul_comm])
      exact ⟨hfin', by rw [heq', heq, exactTotal_concat]⟩

theorem units_of_count {counts : List Nat} (h : counts.sum ≤ 2 ^ 53) {count : Nat} (hmem : count ∈ counts) :
    (Float.ofNat count).isFinite = true ∧ Double.units (Float.ofNat count) = count * Double.unitsInOne := by
  obtain ⟨hfin, hunits⟩ := Double.units_ofNat ((List.le_sum_of_mem hmem).trans h)
  refine ⟨hfin, ?_⟩
  rw [← Double.natAbs_signedUnits, hunits, ← Int.natCast_mul, Int.natAbs_natCast]

theorem absoluteTotal_ofNat {counts : List Nat} (h : counts.sum ≤ 2 ^ 53) :
    absoluteTotal (counts.map Float.ofNat) = counts.sum * Double.unitsInOne := by
  have hunits : counts.map (Double.units ∘ Float.ofNat) = counts.map fun count => count * Double.unitsInOne :=
    List.map_congr_left fun count hmem => (units_of_count h hmem).2
  rw [absoluteTotal, List.map_map, hunits, List.sum_map_mul_right, List.map_id']

/-- Whole numbers are added exactly as long as their sum has at most 53 bits. -/
theorem addExactly_ofNat {counts : List Nat} (h : counts.sum ≤ 2 ^ 53) :
    AddExactly (counts.map Float.ofNat) := by
  obtain ⟨k, hk⟩ : ∃ k, k = 1074 := ⟨1074, rfl⟩
  have hone := Double.unitsInOne_eq_two_pow hk
  refine ⟨?_, k, by omega, ?_, ?_⟩
  · intro value hvalue
    obtain ⟨count, hmem, rfl⟩ := List.mem_map.1 hvalue
    exact (units_of_count h hmem).1
  · intro value hvalue
    obtain ⟨count, hmem, rfl⟩ := List.mem_map.1 hvalue
    rw [(units_of_count h hmem).2, hone]
    exact Nat.dvd_mul_left _ _
  · rw [absoluteTotal_ofNat h, hone]
    exact Nat.mul_le_mul_right _ h

/-! ### Rounded sums -/

/-- One more addition does not make the error larger than the number of additions allows. Either the
    summand is so small that it bounds the error, or the earlier errors are small next to it. -/
theorem error_step {N A E V D E' : Nat} (herror : 2 ^ 53 * E ≤ N * A) (hsmall : D ≤ V)
    (hround : 2 ^ 53 * D ≤ A + E + V) (hadd : E' ≤ E + D) :
    2 ^ 53 * E' ≤ (N + 1) * (A + V) := by
  have hexpand : (N + 1) * (A + V) = N * A + N * V + A + V := by ring
  rw [hexpand]
  by_cases hcase : 2 ^ 53 * V ≤ A + V
  · omega
  · have hmul : N * A ≤ N * (2 ^ 53 * V) := Nat.mul_le_mul_left N (by omega)
    rw [Nat.mul_left_comm] at hmul
    omega

/-- The error of a sum of `n` doubles is at most `n - 1` parts in `2 ^ 53` of their absolute values. -/
theorem total_error {values : List Float} (hfinite : ∀ value ∈ values, value.isFinite = true)
    (hsum : (total values).isFinite = true) :
    2 ^ 53 * (Double.signedUnits (total values) - exactTotal values).natAbs ≤
      (values.length - 1) * absoluteTotal values := by
  induction values using List.reverseRecOn with
  | nil => simp [total, exactTotal, Double.signedUnits_eq_zero (x := 0.0) (by decide)]
  | append_singleton values value ih =>
      rw [total_concat] at hsum
      have hfinite' := fun v hv => hfinite v (List.mem_append_left _ hv)
      have hlast := hfinite value (by simp)
      have hprefix := Double.isFinite_of_isFinite_add hsum
      have ih := ih hfinite' hprefix
      obtain ⟨hsmall, hround⟩ := Double.add_error hprefix hlast hsum
      rw [total_concat, exactTotal_concat, absoluteTotal_concat, List.length_append,
        List.length_singleton, Nat.add_sub_cancel]
      by_cases hnil : values = []
      · subst hnil
        have hfirst := Double.signedUnits_eq_of_rank_eq (Double.rank_positive_zero_add value)
        simp [total, exactTotal, hfirst]
      · have hlength := List.length_pos_of_ne_nil hnil
        have hexact := natAbs_exactTotal_le values
        have hunits := Double.natAbs_signedUnits value
        obtain ⟨N, hN⟩ : ∃ N, values.length = N + 1 := ⟨values.length - 1, by omega⟩
        rw [hN, Nat.add_sub_cancel] at ih
        rw [hN]
        exact error_step ih hsmall (by omega) (by omega)

/-! ### Changing the order -/

theorem exactTotal_perm {values values' : List Float} (h : values.Perm values') :
    exactTotal values = exactTotal values' :=
  (h.map _).sum_eq

theorem absoluteTotal_perm {values values' : List Float} (h : values.Perm values') :
    absoluteTotal values = absoluteTotal values' :=
  (h.map _).sum_eq

theorem AddExactly.perm {values values' : List Float} (h : AddExactly values)
    (hperm : values.Perm values') : AddExactly values' where
  finite value hmem := h.finite value (hperm.mem_iff.2 hmem)
  fit := by
    obtain ⟨e, he, hdvd, hsize⟩ := h.fit
    exact ⟨e, he, fun value hmem => hdvd value (hperm.mem_iff.2 hmem),
      absoluteTotal_perm hperm ▸ hsize⟩

/-- A single NaN spoils a sum. -/
theorem isNaN_total {values : List Float} (h : ∃ value ∈ values, value.isNaN = true) :
    (total values).isNaN = true := by
  induction values using List.reverseRecOn with
  | nil => simp at h
  | append_singleton values value ih =>
      obtain ⟨other, hmem, hnan⟩ := h
      rw [total_concat]
      rcases List.mem_append.1 hmem with hmem | hmem
      · exact Double.isNaN_add_of_isNaN (ih ⟨other, hmem, hnan⟩) value
      · rw [List.mem_singleton.1 hmem] at hnan
        rw [Double.add_swap]
        exact Double.isNaN_add_of_isNaN hnan _

/-- Values whose sum does not depend on their order: there are at most two, they are added without any
    rounding, or one of them is NaN. -/
def OrderFree (values : List Float) : Prop :=
  values.length ≤ 2 ∨ AddExactly values ∨ ∃ value ∈ values, value.isNaN = true

theorem orderFree_ofNat {counts : List Nat} (h : counts.sum ≤ 2 ^ 53) :
    OrderFree (counts.map Float.ofNat) :=
  Or.inr (Or.inl (addExactly_ofNat h))

/-- In which order such values are added makes no difference. -/
theorem total_perm {values values' : List Float} (hperm : values.Perm values')
    (h : OrderFree values) : total values = total values' := by
  rcases h with hfew | hexact | ⟨value, hmem, hnan⟩
  · match values, hfew with
    | [], _ => rw [List.nil_perm.1 hperm]
    | [x], _ => rw [List.singleton_perm.1 hperm]
    | [x, y], _ =>
        rcases List.perm_pair.1 hperm.symm with rfl | rfl
        · rfl
        · exact total_pair x y
  · obtain ⟨hfin, heq⟩ := hexact.total_eq
    obtain ⟨hfin', heq'⟩ := (hexact.perm hperm).total_eq
    refine Double.eq_of_rank_eq ?_ (total_ne_negative_zero _) (total_ne_negative_zero _)
    rw [Double.rank_eq_nearestRank hfin, Double.rank_eq_nearestRank hfin', heq, heq', exactTotal_perm hperm]
  · exact Double.eq_of_isNaN (isNaN_total ⟨value, hmem, hnan⟩)
      (isNaN_total ⟨value, hperm.mem_iff.1 hmem, hnan⟩)

/-- In two orders finite values have sums that differ by at most the errors of both. -/
theorem total_perm_close {values values' : List Float} (hperm : values.Perm values')
    (hfinite : ∀ value ∈ values, value.isFinite = true) (hsum : (total values).isFinite = true)
    (hsum' : (total values').isFinite = true) :
    2 ^ 53 * (Double.signedUnits (total values) - Double.signedUnits (total values')).natAbs ≤
      2 * ((values.length - 1) * absoluteTotal values) := by
  have herror := total_error hfinite hsum
  have herror' := total_error (fun value hmem => hfinite value (hperm.mem_iff.2 hmem)) hsum'
  rw [← hperm.length_eq, ← absoluteTotal_perm hperm, ← exactTotal_perm hperm] at herror'
  omega

end EvalCharts
