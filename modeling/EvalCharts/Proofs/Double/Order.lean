/-
Module: EvalCharts.Proofs.Double.Order
Purpose: The comparisons of doubles in terms of their ranks. Two doubles that are numbers compare as
  their ranks do, and no comparison holds of a NaN. As keys, doubles are the same if they are equal, and
  all NaNs are the same key.
Main exports: rank_eq, compare_eq, lt_iff, le_iff, beq_iff, le_congr, lt_congr, isNaN_minimum,
  sameKey_iff
-/
import EvalCharts.Proofs.Double.Fields

namespace EvalCharts.Double

open Float.Model Float.Model.UnpackedFloat

/-- A magnitude with a sign. -/
def signed (negative : Bool) (magnitude : Nat) : Int :=
  if negative then -(magnitude : Int) else magnitude

theorem rank_eq {x : Float} (h : x.isNaN = false) :
    rank x = signed (isNegative x) (magnitude x) := by
  unfold rank
  rw [h, if_neg Bool.false_ne_true]
  rfl

theorem rank_of_isNaN {x : Float} (h : x.isNaN = true) : rank x = 2 ^ 63 := by
  unfold rank
  rw [h, if_pos rfl]

/-- Every number stands before NaN. -/
theorem rank_le_infinite {x : Float} (h : x.isNaN = false) :
    -(infiniteMagnitude : Int) ≤ rank x ∧ rank x ≤ infiniteMagnitude := by
  have hm := magnitude_le h
  rw [rank_eq h]
  unfold signed
  split <;> omega

/-- Magnitudes compare as their scales do, and as their significands do at the same scale. -/
theorem compare_fields (m m' : Nat) :
    (compare ((scale m : Int) - 1074) ((scale m' : Int) - 1074)).then
      (compare (significand m) (significand m')) = compare m m' := by
  have h := scale_mul_add_significand m
  have h' := scale_mul_add_significand m'
  have hlt := significand_lt m
  have hlt' := significand_lt m'
  have hfit := scale_eq_zero_or_le m
  have hfit' := scale_eq_zero_or_le m'
  rcases Nat.lt_trichotomy (scale m) (scale m') with hs | hs | hs
  · have hm : m < m' := by omega
    rw [Int.compare_eq_lt.2 (by omega), Nat.compare_eq_lt.2 hm]
    rfl
  · rw [hs, Int.compare_eq_eq.2 rfl]
    rcases Nat.lt_trichotomy (significand m) (significand m') with hg | hg | hg
    · have hm : m < m' := by omega
      rw [Nat.compare_eq_lt.2 hg, Nat.compare_eq_lt.2 hm]
      rfl
    · have hm : m = m' := by omega
      rw [Nat.compare_eq_eq.2 hg, Nat.compare_eq_eq.2 hm]
      rfl
    · have hm : m' < m := by omega
      rw [Nat.compare_eq_gt.2 hg, Nat.compare_eq_gt.2 hm]
      rfl
  · have hm : m' < m := by omega
    rw [Int.compare_eq_gt.2 (by omega), Nat.compare_eq_gt.2 hm]
    rfl

/-- Every unpacked number is an infinity, a zero or finite, and its magnitude says which. -/
theorem unpacked_cases (negative : Bool) {m : Nat} (hm : m ≤ infiniteMagnitude) :
    (m = infiniteMagnitude ∧ unpacked negative m = .infinity (signOf negative)) ∨
      (m = 0 ∧ unpacked negative m = .zero (signOf negative)) ∨
      ∃ h : 0 < significand m, 0 < m ∧ m < infiniteMagnitude ∧
        unpacked negative m =
          .finite (signOf negative) (significand m) (scale m - 1074) h := by
  unfold unpacked
  rw [if_neg (by omega)]
  by_cases hinf : m = infiniteMagnitude
  · exact Or.inl ⟨hinf, if_pos hinf⟩
  · rw [if_neg hinf]
    by_cases h0 : significand m = 0
    · exact Or.inr (Or.inl ⟨significand_eq_zero.1 h0, dif_pos h0⟩)
    · have hne := mt significand_eq_zero.2 h0
      exact Or.inr (Or.inr ⟨Nat.pos_of_ne_zero h0, by omega, by omega, dif_neg h0⟩)

theorem compare_int (a b : Int) :
    compare a b = if a < b then .lt else if a = b then .eq else .gt := rfl

theorem compare_nat (a b : Nat) :
    compare a b = if a < b then .lt else if a = b then .eq else .gt := rfl

theorem compare_sign :
    compare Sign.positive Sign.positive = .eq ∧ compare Sign.positive Sign.negative = .gt ∧
      compare Sign.negative Sign.positive = .lt ∧ compare Sign.negative Sign.negative = .eq :=
  ⟨rfl, rfl, rfl, rfl⟩

/-- Numbers compare as their signed magnitudes do. -/
theorem compare_unpacked (negative negative' : Bool) {m m' : Nat} (hm : m ≤ infiniteMagnitude)
    (hm' : m' ≤ infiniteMagnitude) :
    (unpacked negative m).compare (unpacked negative' m') =
      some (compare (signed negative m) (signed negative' m')) := by
  have hinf : 0 < infiniteMagnitude := by decide
  rcases unpacked_cases negative hm with ⟨hi, he⟩ | ⟨hi, he⟩ | ⟨hg, hpos, hlt, he⟩ <;>
    rcases unpacked_cases negative' hm' with ⟨hi', he'⟩ | ⟨hi', he'⟩ | ⟨hg', hpos', hlt', he'⟩ <;>
    rw [he, he'] <;> cases negative <;> cases negative' <;>
    simp only [signOf, signed, UnpackedFloat.compare, if_true, if_false, Bool.false_eq_true,
      Option.some.injEq, compare_fields, compare_sign]
  all_goals
    simp only [compare_int, compare_nat]
    grind [Ordering.swap]

/-- Comparing two doubles compares their ranks, unless one of them is NaN. -/
theorem compare_eq (x y : Float) :
    x.toModel.unpack.compare y.toModel.unpack =
      if x.isNaN || y.isNaN then none else some (compare (rank x) (rank y)) := by
  rw [unpack_eq, unpack_eq]
  cases hx : x.isNaN with
  | true =>
      rw [isNaN_eq, decide_eq_true_eq] at hx
      simp [unpacked, hx, UnpackedFloat.compare]
  | false =>
      cases hy : y.isNaN with
      | true =>
          rw [isNaN_eq, decide_eq_true_eq] at hy
          rcases unpacked_cases (isNegative x) (magnitude_le hx) with ⟨_, he⟩ | ⟨_, he⟩ | ⟨_, _, _, he⟩ <;>
            rw [he] <;> simp [unpacked, hy, UnpackedFloat.compare]
      | false =>
          rw [compare_unpacked _ _ (magnitude_le hx) (magnitude_le hy), rank_eq hx, rank_eq hy]
          rfl

/-- Numbers are ordered by their ranks. -/
theorem lt_iff {x y : Float} : x < y ↔ x.isNaN = false ∧ y.isNaN = false ∧ rank x < rank y := by
  change decide ((x.toModel.unpack.compare y.toModel.unpack == some .lt) = true) = true ↔ _
  rw [compare_eq, decide_eq_true_eq, beq_iff_eq]
  cases x.isNaN <;> cases y.isNaN <;> simp [Int.compare_eq_lt]

theorem le_iff {x y : Float} : x ≤ y ↔ x.isNaN = false ∧ y.isNaN = false ∧ rank x ≤ rank y := by
  change decide ((x.toModel.unpack.compare y.toModel.unpack).any (·.isLE) = true) = true ↔ _
  rw [compare_eq, decide_eq_true_eq]
  cases x.isNaN <;> cases y.isNaN <;> simp [Int.isLE_compare]

theorem beq_iff {x y : Float} :
    (x == y) = true ↔ x.isNaN = false ∧ y.isNaN = false ∧ rank x = rank y := by
  change (x.toModel.unpack.compare y.toModel.unpack == some .eq) = true ↔ _
  rw [compare_eq, beq_iff_eq]
  cases x.isNaN <;> cases y.isNaN <;> simp

/-- A rank is that of NaN only for NaN. -/
theorem isNaN_eq_of_rank_eq {x y : Float} (h : rank x = rank y) : x.isNaN = y.isNaN := by
  have hinf : (infiniteMagnitude : Int) < 2 ^ 63 := by decide
  cases hx : x.isNaN with
  | true =>
      cases hy : y.isNaN with
      | true => rfl
      | false =>
          have := (rank_le_infinite hy).2
          rw [← h, rank_of_isNaN hx] at this
          omega
  | false =>
      cases hy : y.isNaN with
      | false => rfl
      | true =>
          have := (rank_le_infinite hx).2
          rw [h, rank_of_isNaN hy] at this
          omega

/-- Comparisons depend on places alone. -/
theorem le_congr {x x' y y' : Float} (hx : rank x = rank x')
    (hy : rank y = rank y') (h : x ≤ y) : x' ≤ y' := by
  obtain ⟨hnum, hnum', hle⟩ := le_iff.1 h
  exact le_iff.2 ⟨(isNaN_eq_of_rank_eq hx).symm.trans hnum,
    (isNaN_eq_of_rank_eq hy).symm.trans hnum', hx ▸ hy ▸ hle⟩

theorem lt_congr {x x' y y' : Float} (hx : rank x = rank x') (hy : rank y = rank y') (h : x < y) :
    x' < y' := by
  obtain ⟨hnum, hnum', hlt⟩ := lt_iff.1 h
  exact lt_iff.2 ⟨(isNaN_eq_of_rank_eq hx).symm.trans hnum,
    (isNaN_eq_of_rank_eq hy).symm.trans hnum', hx ▸ hy ▸ hlt⟩

theorem le_of_rank_le {x y : Float} (hx : x.isNaN = false) (hy : y.isNaN = false)
    (h : rank x ≤ rank y) : x ≤ y :=
  le_iff.2 ⟨hx, hy, h⟩

theorem lt_of_lt_of_rank_le {x y z : Float} (h : x < y) (hz : z.isNaN = false)
    (hle : rank y ≤ rank z) : x < z := by
  obtain ⟨hx, -, hlt⟩ := lt_iff.1 h
  exact lt_iff.2 ⟨hx, hz, by omega⟩

theorem lt_of_rank_le_of_lt {x y z : Float} (hx : x.isNaN = false)
    (hle : rank x ≤ rank y) (h : y < z) : x < z := by
  obtain ⟨-, hz, hlt⟩ := lt_iff.1 h
  exact lt_iff.2 ⟨hx, hz, by omega⟩

theorem le_of_lt {x y : Float} (h : x < y) : x ≤ y := by
  obtain ⟨hx, hy, hlt⟩ := lt_iff.1 h
  exact le_iff.2 ⟨hx, hy, hlt.le⟩

theorem le_of_le_of_le {x y z : Float} (h : x ≤ y) (h' : y ≤ z) : x ≤ z := by
  obtain ⟨hx, -, hle⟩ := le_iff.1 h
  obtain ⟨-, hz, hle'⟩ := le_iff.1 h'
  exact le_iff.2 ⟨hx, hz, hle.trans hle'⟩

/-- Of two numbers one is at most the other. -/
theorem le_of_not_lt {x y : Float} (hx : x.isNaN = false) (hy : y.isNaN = false) (h : ¬x < y) : y ≤ x :=
  le_iff.2 ⟨hy, hx, not_lt.1 fun hlt => h (lt_iff.2 ⟨hx, hy, hlt⟩)⟩

/-- The smaller of two doubles is a number if the first one is. -/
theorem isNaN_minimum {x : Float} (h : x.isNaN = false) (y : Float) :
    (minimum x y).isNaN = false := by
  unfold minimum
  rw [h, if_neg Bool.false_ne_true]
  cases hy : y.isNaN with
  | true => exact h
  | false =>
      rw [if_neg Bool.false_ne_true]
      split
      · exact hy
      · exact h

/-- Two keys are the same if they take one place. -/
theorem sameKey_iff_rank {x y : Float} : sameKey x y = true ↔ rank x = rank y :=
  beq_iff_eq

/-- Two keys are the same if they are equal as numbers, or if both are NaN. -/
theorem sameKey_iff {x y : Float} :
    sameKey x y = true ↔ (x == y) = true ∨ x.isNaN = true ∧ y.isNaN = true := by
  unfold sameKey
  rw [beq_iff_eq, beq_iff]
  constructor
  · intro h
    have hnan := isNaN_eq_of_rank_eq h
    cases hx : x.isNaN with
    | true => exact Or.inr ⟨rfl, hnan.symm.trans hx⟩
    | false => exact Or.inl ⟨rfl, hnan.symm.trans hx, h⟩
  · rintro (⟨-, -, h⟩ | ⟨hx, hy⟩)
    · exact h
    · rw [rank_of_isNaN hx, rank_of_isNaN hy]

end EvalCharts.Double
