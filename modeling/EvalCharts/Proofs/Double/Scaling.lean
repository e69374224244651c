/-
Module: EvalCharts.Proofs.Double.Scaling
Purpose: Numbers that are not negative, and how positive doubles scale them. Products keep the order, a
  factor of at least one makes nothing smaller, and sums and quotients do not become negative, be it that
  an operand is infinite.
Main exports: isFinite_of_le_of_le, le_greatest_of_isFinite, rank_mul, mul_swap, mul_le_mul_right,
  le_mul_of_one_le, nonneg_add, isFinite_of_isFinite_div, nonneg_div
-/
import EvalCharts.Proofs.Double.Value

namespace EvalCharts.Double

open Float.Model Float.Model.UnpackedFloat

/-- What lies between finite doubles is finite. -/
theorem isFinite_of_le_of_le {x y z : Float} (h : x ≤ y) (h' : y ≤ z) (hx : x.isFinite = true)
    (hz : z.isFinite = true) : y.isFinite = true := by
  obtain ⟨-, hn, hlow⟩ := le_iff.1 h
  have hhigh := (le_iff.1 h').2.2
  exact isFinite_of_rank hn ((rank_of_isFinite hx).1.trans_le hlow) (hhigh.trans_lt (rank_of_isFinite hz).2)

theorem isFinite_congr {x y : Float} (h : rank x = rank y) (hy : y.isFinite = true) : x.isFinite = true := by
  obtain ⟨hlow, hhigh⟩ := rank_of_isFinite hy
  exact isFinite_of_rank ((isNaN_eq_of_rank_eq h).trans (isNaN_of_isFinite hy)) (h ▸ hlow) (h ▸ hhigh)

theorem isInf_of_isFinite {x : Float} (h : x.isFinite = true) : x.isInf = false := by
  have hinf : x.isInf = match x.toModel.unpack with
    | .infinity _ => true
    | _ => false := rfl
  rw [hinf]
  rcases finite_cases h with ⟨-, hux⟩ | ⟨_, _, _, -, -, hux⟩ <;> rw [hux]

/-- The largest finite double, with either sign, bounds all others. -/
theorem le_greatest_of_isFinite {x : Float} (h : x.isFinite = true) :
    ofMagnitude true (infiniteMagnitude - 1) ≤ x ∧ x ≤ ofMagnitude false (infiniteMagnitude - 1) := by
  have hnum := isNaN_of_isFinite h
  have hle := Nat.sub_le infiniteMagnitude 1
  obtain ⟨hlow, hhigh⟩ := rank_of_isFinite h
  refine ⟨le_iff.2 ⟨isNaN_ofMagnitude _ hle, hnum, ?_⟩, le_iff.2 ⟨hnum, isNaN_ofMagnitude _ hle, ?_⟩⟩
  · rw [rank_ofMagnitude _ hle, signed, if_pos rfl]
    omega
  · rw [rank_ofMagnitude _ hle, signed, if_neg Bool.false_ne_true]
    omega

/-! ### Products -/

theorem rank_mul {x c : Float} (hx : x.isFinite = true) (hc : Positive c) :
    rank (x * c) = nearestRank (signedUnits x * units c) unitsInOne := by
  rw [mul_eq hx hc.finite, hc.sign, Bool.bne_false, rank_ofMagnitude_scaled x _ unitsInOne_pos]

theorem isNaN_mul {x c : Float} (hx : x.isFinite = true) (hc : c.isFinite = true) :
    (x * c).isNaN = false := by
  rw [mul_eq hx hc]
  exact isNaN_ofMagnitude _ (nearestMagnitude_le _ _)

/-- Finite doubles can be multiplied in either order. -/
theorem mul_swap {x y : Float} (hx : x.isFinite = true) (hy : y.isFinite = true) : x * y = y * x := by
  have hsign : (isNegative x != isNegative y) = (isNegative y != isNegative x) := by
    cases isNegative x <;> cases isNegative y <;> rfl
  rw [mul_eq hx hy, mul_eq hy hx, Nat.mul_comm, hsign]

/-- Multiplying by one positive double keeps the order. -/
theorem mul_le_mul_right {x x' c : Float} (h : x ≤ x') (hx : x.isFinite = true) (hx' : x'.isFinite = true)
    (hc : Positive c) : x * c ≤ x' * c := by
  refine le_iff.2 ⟨isNaN_mul hx hc.finite, isNaN_mul hx' hc.finite, ?_⟩
  rw [rank_mul hx hc, rank_mul hx' hc]
  exact nearestRank_mono _ (mul_le_mul_of_nonneg_right (signedUnits_mono hx hx' (le_iff.1 h).2.2)
    (Int.natCast_nonneg _))

/-- A factor of at least one makes nothing smaller that is not negative, even where the product is rounded
    among the least doubles. -/
theorem le_mul_of_one_le {x c : Float} (hnonneg : 0.0 ≤ x) (hx : x.isFinite = true) (hc : Positive c)
    (hone : unitsInOne ≤ units c) : x ≤ x * c := by
  have hunits : signedUnits 0.0 ≤ signedUnits x := signedUnits_mono (by decide) hx (le_iff.1 hnonneg).2.2
  rw [signedUnits_eq_zero (by decide)] at hunits
  refine le_iff.2 ⟨isNaN_of_isFinite hx, isNaN_mul hx hc.finite, ?_⟩
  rw [rank_mul hx hc, rank_eq_nearestRank hx, ← nearestRank_mul_right _ _ unitsInOne_pos, Nat.one_mul]
  exact nearestRank_mono _ (mul_le_mul_of_nonneg_left (Int.ofNat_le.2 hone) hunits)

/-! ### Numbers that are not negative -/

/-- There is one infinity that is not negative. -/
theorem isNegative_of_nonneg {x : Float} (h : 0.0 ≤ x) (hf : x.isFinite = false) :
    isNegative x = false := by
  obtain ⟨-, hn, hrank⟩ := le_iff.1 h
  have hzero : rank 0.0 = 0 := by decide
  have hpos : 0 < infiniteMagnitude := by decide
  rw [hzero, rank_eq hn, magnitude_of_infinite hn hf] at hrank
  cases hs : isNegative x with
  | false => rfl
  | true =>
      rw [hs, signed, if_pos rfl] at hrank
      omega

theorem nonneg_add {x y : Float} (hx : 0.0 ≤ x) (hy : 0.0 ≤ y) : 0.0 ≤ x + y := by
  have hzero : rank (0.0 + 0.0) = rank 0.0 := rank_positive_zero_add 0.0
  cases hfy : y.isFinite with
  | true => exact le_congr hzero rfl (add_le_add hx hy (by decide) hfy)
  | false =>
      cases hfx : x.isFinite with
      | true =>
          rw [add_swap]
          exact le_congr hzero rfl (add_le_add hy hx (by decide) hfx)
      | false =>
          rw [add_eq_pack, unpack_of_infinite (le_iff.1 hx).2.1 hfx, unpack_of_infinite (le_iff.1 hy).2.1 hfy,
            isNegative_of_nonneg hx hfx, isNegative_of_nonneg hy hfy]
          decide

/-- Nothing is left of a finite double when it is divided by an infinity. -/
theorem rank_div_infinite {x d : Float} (hx : x.isFinite = true) (hn : d.isNaN = false)
    (hf : d.isFinite = false) : rank (x / d) = 0 := by
  have hzero : x / d = Float.ofModel (Float.Model.pack
      (.zero (signOf (isNegative x) / signOf (isNegative d)))) := by
    rw [div_eq_pack, unpack_of_infinite hn hf]
    rcases finite_cases hx with ⟨-, hux⟩ | ⟨_, _, _, -, -, hux⟩ <;> rw [hux] <;> rfl
  rw [hzero, div_signOf, ofModel_pack_zero, rank_ofMagnitude _ (Nat.zero_le _)]
  cases isNegative x <;> cases isNegative d <;> rfl

theorem isNaN_infinite_div {x d : Float} (hx : x.isNaN = false) (hfx : x.isFinite = false)
    (hd : d.isNaN = false) (hfd : d.isFinite = false) : (x / d).isNaN = true := by
  rw [div_eq_pack, unpack_of_infinite hx hfx, unpack_of_infinite hd hfd]
  exact (by decide : (Float.ofModel (Float.Model.pack .notANumber)).isNaN = true)

theorem isNaN_of_isNaN_div {x d : Float} (h : (x / d).isNaN = false) : x.isNaN = false := by
  cases hx : x.isNaN with
  | false => rfl
  | true =>
      rw [div_eq_pack, unpack_of_isNaN hx] at h
      exact absurd h (by decide : (Float.ofModel (Float.Model.pack .notANumber)).isNaN ≠ false)

/-- A quotient by a positive double is finite only if the dividend is. -/
theorem isFinite_of_isFinite_div {x d : Float} (h : (x / d).isFinite = true) (hd : Positive d) :
    x.isFinite = true := by
  cases hf : x.isFinite with
  | true => rfl
  | false =>
      rw [infinite_div (isNaN_of_isNaN_div (isNaN_of_isFinite h)) hf hd, hf] at h
      cases h

theorem nonneg_div {x d : Float} (hx : 0.0 ≤ x) (hd : 0.0 < d) (hn : (x / d).isNaN = false) :
    0.0 ≤ x / d := by
  obtain ⟨-, hnd, -⟩ := lt_iff.1 hd
  cases hfd : d.isFinite with
  | true =>
      have hpos := positive_of_pos hd hfd
      exact le_congr (rank_zero_div hpos) rfl (div_le_div_right hx hpos)
  | false =>
      cases hfx : x.isFinite with
      | true => exact le_iff.2 ⟨by decide, hn, (rank_div_infinite hfx hnd hfd).ge⟩
      | false =>
          rw [isNaN_infinite_div (le_iff.1 hx).2.1 hfx hnd hfd] at hn
          cases hn

end EvalCharts.Double
