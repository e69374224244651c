/-
Module: EvalCharts.Proofs.Double.Accuracy
Purpose: How far rounding moves a number. A double is rounded to a multiple of its own step, no double is
  closer to a number than the one it is rounded to, and the error of a sum is at most one part in
  `2 ^ 53`. Whole multiples of a power of two with at most 53 bits are doubles, and are added exactly.
Main exports: unitsOf_nearestMagnitude, nearestMagnitude_nearest, add_error, exists_unitsOf,
  signedUnits_ofUnits_exact, signedUnits_add, units_ofNat, rank_ofNat_add_one, rank_div_self
-/
import EvalCharts.Proofs.Double.Addition

namespace EvalCharts.Double

/-! ### Rounding to a multiple of a step -/

theorem roundHalfEven_mul_le (n step : Nat) : 2 * (roundHalfEven n step * step) ≤ 2 * n + step := by
  have h := Nat.mod_add_div n step
  unfold roundHalfEven
  split
  · rw [Nat.mul_comm (n / step)]
    omega
  · rw [Nat.add_mul, Nat.mul_comm (n / step)]
    omega

theorem le_roundHalfEven_mul (n : Nat) {step : Nat} (hstep : 0 < step) :
    2 * n ≤ 2 * (roundHalfEven n step * step) + step := by
  have h := Nat.mod_add_div n step
  have hlt := Nat.mod_lt n hstep
  unfold roundHalfEven
  split
  · rw [Nat.mul_comm (n / step)]
    omega
  · rw [Nat.add_mul, Nat.mul_comm (n / step)]
    omega

/-- No multiple of the step is closer. -/
theorem roundHalfEven_nearest (n c : Nat) {step : Nat} (hstep : 0 < step) :
    ((roundHalfEven n step * step : Nat) - (n : Int)).natAbs ≤ ((c * step : Nat) - (n : Int)).natAbs := by
  have hle := roundHalfEven_mul_le n step
  have hge := le_roundHalfEven_mul n hstep
  rcases Nat.lt_trichotomy c (roundHalfEven n step) with h | h | h
  · have hmul : (c + 1) * step ≤ roundHalfEven n step * step := Nat.mul_le_mul_right _ h
    rw [Nat.add_mul] at hmul
    omega
  · rw [h]
  · have hmul : (roundHalfEven n step + 1) * step ≤ c * step := Nat.mul_le_mul_right _ h
    rw [Nat.add_mul] at hmul
    omega

/-! ### Rounding to a double -/

/-- A rounded significand and its scale are worth their product, also where rounding carries. -/
theorem unitsOf_carry {k r : Nat} (hr : r ≤ 2 ^ 53) (hfit : k = 0 ∨ 2 ^ 52 ≤ r) :
    unitsOf (k * 2 ^ 52 + r) = r * 2 ^ k := by
  rcases Nat.lt_or_eq_of_le hr with hlt | rfl
  · obtain ⟨hscale, hsig⟩ := fields_unique hlt hfit
    rw [unitsOf_eq, hscale, hsig]
  · have hsum : k * 2 ^ 52 + 2 ^ 53 = (k + 1) * 2 ^ 52 + 2 ^ 52 := by omega
    obtain ⟨hscale, hsig⟩ := fields_unique (k := k + 1) (g := 2 ^ 52) (by decide) (Or.inr (le_refl _))
    rw [hsum, unitsOf_eq, hscale, hsig, Nat.pow_succ]
    omega

/-- What a quotient of units is rounded to, as a multiple of its own step. -/
theorem unitsOf_nearestQuotient {n d : Nat} (h : nearestMagnitude n d < infiniteMagnitude) :
    unitsOf (nearestMagnitude n d) =
      roundHalfEven n (d * 2 ^ quotientScale n d) * 2 ^ quotientScale n d := by
  have hlt := div_lt_of_quotientScale n d
  have hle := le_div_of_quotientScale (n := n) (d := d)
  have hlow := div_le_roundHalfEven n (d * 2 ^ quotientScale n d)
  have hhigh := roundHalfEven_le n (d * 2 ^ quotientScale n d)
  rw [nearestMagnitude_eq] at h ⊢
  rw [Nat.min_eq_left (by omega)]
  exact unitsOf_carry (by omega) (by omega)

/-- What a number of units is rounded to, as a multiple of its own step. -/
theorem unitsOf_nearestMagnitude {n : Nat} (h : nearestMagnitude n 1 < infiniteMagnitude) :
    unitsOf (nearestMagnitude n 1) =
      roundHalfEven n (2 ^ quotientScale n 1) * 2 ^ quotientScale n 1 := by
  rw [unitsOf_nearestQuotient h, Nat.one_mul]

/-- Above the least scale a quotient is at least `2 ^ 52` steps. -/
theorem two_pow_mul_le {n d : Nat} (hd : 0 < d) (h : quotientScale n d ≠ 0) :
    2 ^ 52 * (d * 2 ^ quotientScale n d) ≤ n := by
  have hle := le_div_of_quotientScale h
  rwa [Nat.le_div_iff_mul_le (Nat.mul_pos hd (Nat.two_pow_pos _))] at hle

/-- Rounding moves a number of units by at most one part in `2 ^ 53`. -/
theorem nearestMagnitude_error {n : Nat} (h : nearestMagnitude n 1 < infiniteMagnitude) :
    2 ^ 53 * ((unitsOf (nearestMagnitude n 1) : Int) - n).natAbs ≤ n := by
  rw [unitsOf_nearestMagnitude h]
  have hle := roundHalfEven_mul_le n (2 ^ quotientScale n 1)
  have hge := le_roundHalfEven_mul n (Nat.two_pow_pos (quotientScale n 1))
  by_cases hscale : quotientScale n 1 = 0
  · have hself := roundHalfEven_mul_self n Nat.one_pos
    rw [Nat.mul_one] at hself
    simp [hscale, hself]
  · have hsteps := two_pow_mul_le Nat.one_pos hscale
    omega

/-- A double is a multiple of a step, or it lies below all numbers that are rounded with that step. -/
theorem unitsOf_on_grid (m k : Nat) : (∃ c, unitsOf m = c * 2 ^ k) ∨ unitsOf m < 2 ^ 52 * 2 ^ k := by
  rw [unitsOf_eq]
  by_cases h : k ≤ scale m
  · refine Or.inl ⟨significand m * 2 ^ (scale m - k), ?_⟩
    rw [Nat.mul_assoc, ← Nat.pow_add, Nat.sub_add_cancel h]
  · have hpow : 2 ^ (scale m + 1) ≤ 2 ^ k := Nat.pow_le_pow_right (by decide) (by omega)
    have hsig := Nat.mul_lt_mul_of_pos_right (significand_lt m) (Nat.two_pow_pos (scale m))
    rw [Nat.pow_succ] at hpow
    omega

/-- No double is closer to a number of units than the one that it is rounded to. -/
theorem nearestMagnitude_nearest {n : Nat} (h : nearestMagnitude n 1 < infiniteMagnitude) (m : Nat) :
    ((unitsOf (nearestMagnitude n 1) : Int) - n).natAbs ≤ ((unitsOf m : Int) - n).natAbs := by
  rw [unitsOf_nearestMagnitude h]
  have hstep := Nat.two_pow_pos (quotientScale n 1)
  rcases unitsOf_on_grid m (quotientScale n 1) with ⟨c, hc⟩ | hlt
  · rw [hc]
    exact roundHalfEven_nearest n c hstep
  · by_cases hscale : quotientScale n 1 = 0
    · have hself := roundHalfEven_mul_self n Nat.one_pos
      rw [Nat.mul_one] at hself
      simp [hscale, hself]
    · -- the least number with that step lies between the double and the units
      have hleast := roundHalfEven_nearest n (2 ^ 52) hstep
      have hsteps := two_pow_mul_le Nat.one_pos hscale
      omega

/-! ### The error of a sum -/

theorem natAbs_signedUnits (x : Float) : (signedUnits x).natAbs = units x := by
  unfold signedUnits signed
  cases isNegative x <;> simp

theorem signedUnits_ofUnits (zeroNegative : Bool) (s : Int) :
    signedUnits (ofUnits zeroNegative s) =
      signed (s < 0) (unitsOf (nearestMagnitude s.natAbs 1)) := by
  unfold signedUnits
  rw [units, magnitude_ofUnits]
  by_cases hs : s = 0
  · rw [hs, Int.natAbs_zero, nearestMagnitude_zero (by decide)]
    cases isNegative (ofUnits zeroNegative 0) <;> rfl
  · unfold ofUnits
    rw [if_neg hs, isNegative_ofMagnitude _ (nearestMagnitude_le _ _)]

/-- A signed number of units is moved as far as its absolute value. -/
theorem natAbs_signedUnits_ofUnits_sub (zeroNegative : Bool) (s : Int) :
    (signedUnits (ofUnits zeroNegative s) - s).natAbs =
      ((unitsOf (nearestMagnitude s.natAbs 1) : Int) - s.natAbs).natAbs := by
  rw [signedUnits_ofUnits]
  by_cases hs : s < 0
  · rw [decide_eq_true hs, signed, if_pos rfl]
    omega
  · rw [decide_eq_false hs, signed, if_neg Bool.false_ne_true]
    omega

/-- The error of a sum is at most what is added, and at most one part in `2 ^ 53` of the exact sum. -/
theorem add_error {x y : Float} (hx : x.isFinite = true) (hy : y.isFinite = true)
    (h : (x + y).isFinite = true) :
    (signedUnits (x + y) - (signedUnits x + signedUnits y)).natAbs ≤ units y ∧
      2 ^ 53 * (signedUnits (x + y) - (signedUnits x + signedUnits y)).natAbs ≤
        (signedUnits x + signedUnits y).natAbs := by
  have hmag := magnitude_lt h
  rw [add_eq hx hy] at hmag ⊢
  rw [magnitude_ofUnits] at hmag
  rw [natAbs_signedUnits_ofUnits_sub]
  refine ⟨?_, nearestMagnitude_error hmag⟩
  -- the first summand is itself a double, as far from the sum as the second one is large
  have hnearest := nearestMagnitude_nearest hmag (magnitude x)
  have hux := natAbs_signedUnits x
  have huy := natAbs_signedUnits y
  rw [units] at hux
  omega

/-! ### Exact sums -/

/-- Every multiple of a power of two by at most 53 bits is worth some magnitude. -/
theorem exists_unitsOf {g : Nat} (hg : g ≤ 2 ^ 53) {e : Nat} (he : e ≤ 2044) :
    ∃ m < infiniteMagnitude, unitsOf m = g * 2 ^ e := by
  induction e generalizing g with
  | zero =>
      refine ⟨0 * 2 ^ 52 + g, ?_, unitsOf_carry hg (Or.inl rfl)⟩
      unfold infiniteMagnitude
      omega
  | succ e ih =>
      by_cases hsmall : g < 2 ^ 52
      · obtain ⟨m, hm, hunits⟩ := ih (g := g * 2) (by omega) (by omega)
        exact ⟨m, hm, by rw [hunits, Nat.pow_succ, Nat.mul_assoc, Nat.mul_comm 2]⟩
      · refine ⟨(e + 1) * 2 ^ 52 + g, ?_, unitsOf_carry hg (Or.inr (by omega))⟩
        unfold infiniteMagnitude
        omega

/-- A number of units that is worth some magnitude is not rounded. -/
theorem signedUnits_ofUnits_exact (zeroNegative : Bool) {s : Int} {m : Nat}
    (hm : m < infiniteMagnitude) (h : s.natAbs = unitsOf m) :
    (ofUnits zeroNegative s).isFinite = true ∧ signedUnits (ofUnits zeroNegative s) = s := by
  have hnear := nearestMagnitude_unitsOf hm.le Nat.one_pos
  rw [Nat.mul_one, ← h] at hnear
  have herror := natAbs_signedUnits_ofUnits_sub zeroNegative s
  rw [hnear, h] at herror
  refine ⟨?_, by omega⟩
  rw [isFinite_eq, magnitude_ofUnits, hnear, decide_eq_true hm]

/-- A sum that is worth some magnitude is exact. -/
theorem signedUnits_add {x y : Float} (hx : x.isFinite = true) (hy : y.isFinite = true) {m : Nat}
    (hm : m < infiniteMagnitude) (h : (signedUnits x + signedUnits y).natAbs = unitsOf m) :
    (x + y).isFinite = true ∧ signedUnits (x + y) = signedUnits x + signedUnits y := by
  rw [add_eq hx hy]
  exact signedUnits_ofUnits_exact _ hm h

/-- Small natural numbers are doubles. -/
theorem units_ofNat {n : Nat} (h : n ≤ 2 ^ 53) :
    (Float.ofNat n).isFinite = true ∧ signedUnits (Float.ofNat n) = n * unitsInOne := by
  obtain ⟨m, hm, hunits⟩ := exists_unitsOf h (e := 1074) (by decide)
  have hnear := nearestMagnitude_unitsOf hm.le Nat.one_pos
  rw [Nat.mul_one, hunits, ← unitsInOne_eq_two_pow rfl] at hnear
  rw [ofNat_eq, hnear]
  refine ⟨isFinite_ofMagnitude false hm, ?_⟩
  rw [signedUnits, isNegative_ofMagnitude _ hm.le, units, magnitude_ofMagnitude _ hm.le, hunits,
    ← unitsInOne_eq_two_pow rfl]
  exact Nat.cast_mul _ _

/-- Counting on by one is exact. -/
theorem rank_ofNat_add_one {n : Nat} (h : n < 2 ^ 53) :
    rank (Float.ofNat n + 1.0) = rank (Float.ofNat (n + 1)) := by
  obtain ⟨hfin, hunits⟩ := units_ofNat (n := n) h.le
  obtain ⟨hfin', hunits'⟩ := units_ofNat (n := n + 1) h
  obtain ⟨hone, hunitsOne⟩ := units_ofNat (n := 1) (by decide)
  have hlit : (1.0 : Float) = Float.ofNat 1 := by decide
  rw [hlit, rank_add hfin hone, rank_eq_nearestRank hfin', hunits, hunits', hunitsOne,
    ← Int.add_mul, ← Int.natCast_add]

/-! ### Quotients -/

theorem rank_zero_div {d : Float} (hd : Positive d) :
    rank (0.0 / d) = rank 0.0 := by
  have hpos := units_pos hd.magnitude
  rw [rank_div (by decide) hd, signedUnits_eq_zero (by decide), Int.zero_mul,
    nearestRank, Int.natAbs_zero, nearestMagnitude_zero hpos]
  decide

theorem rank_div_self {d : Float} (hd : Positive d) :
    rank (d / d) = rank 1.0 := by
  have hpos := units_pos hd.magnitude
  have hnear := nearestMagnitude_unitsOf (m := 1022 * 2 ^ 52 + 2 ^ 52) (by decide) hpos
  have hunits : signedUnits d = units d := by
    rw [signedUnits, hd.sign, signed, if_neg Bool.false_ne_true]
  rw [unitsOf_one, Nat.mul_comm] at hnear
  rw [rank_div hd.finite hd, hunits, ← Int.natCast_mul, nearestRank, Int.natAbs_natCast,
    hnear, decide_eq_false (by omega)]
  decide

end EvalCharts.Double
