/-
Module: EvalCharts.Proofs.Double.Parity
Purpose: The remainder of a division of doubles, and the even numbers among them. A remainder is exact, and
  the doubles that leave a zero when they are divided by two are those worth an even number of ones.
Main exports: positive_of_pos, remainder, signedUnits_remainder, isEven_eq_remainder, IsEvenCount,
  isEven_and_pos_iff
-/
import EvalCharts.Proofs.Double.Accuracy
import EvalCharts.Double.Whole

namespace EvalCharts.Double

/-! ### Zeros and positive numbers -/

/-- A finite double equals zero just if it is worth nothing. -/
theorem beq_zero_iff {x : Float} (h : x.isFinite = true) : (x == 0.0) = true ↔ signedUnits x = 0 := by
  have hzero : signedUnits 0.0 = 0 := signedUnits_eq_zero (by decide)
  rw [beq_iff]
  constructor
  · rintro ⟨-, -, hrank⟩
    rw [signedUnits_eq_of_rank_eq hrank, hzero]
  · intro hunits
    refine ⟨isNaN_of_isFinite h, by decide, ?_⟩
    rw [rank_eq_nearestRank h, rank_eq_nearestRank (by decide), hunits, hzero]

/-- A finite double is above zero just if it is worth more than nothing. -/
theorem pos_iff {x : Float} (h : x.isFinite = true) : 0.0 < x ↔ 0 < signedUnits x := by
  have hzero : signedUnits 0.0 = 0 := signedUnits_eq_zero (by decide)
  rw [lt_iff]
  constructor
  · rintro ⟨-, -, hrank⟩
    by_contra hle
    have hmono := nearestRank_mono 1 (not_lt.1 hle)
    rw [← rank_eq_nearestRank h, ← hzero, ← rank_eq_nearestRank (by decide)] at hmono
    omega
  · intro hunits
    refine ⟨by decide, isNaN_of_isFinite h, ?_⟩
    by_contra hle
    have hmono := signedUnits_mono h (by decide) (not_lt.1 hle)
    omega

theorem positive_of_pos {d : Float} (hd : 0.0 < d) (hf : d.isFinite = true) : Positive d := by
  have hunits := (pos_iff hf).1 hd
  unfold signedUnits signed at hunits
  refine ⟨hf, ?_, ?_⟩
  · cases hs : isNegative d with
    | false => rfl
    | true =>
        rw [hs, if_pos rfl] at hunits
        omega
  · intro hzero
    rw [units_eq_zero hzero] at hunits
    split at hunits <;> omega

/-! ### Remainders -/

/-- What is left of a double when another one is taken away from it as many whole times as it goes in,
    toward zero. The sign is that of the dividend, also for a zero. Nothing is left of an infinity, nor of
    a division by zero; an infinite divisor does not go in at all. -/
def remainder (x y : Float) : Float :=
  if x.isFinite = false ∨ y.isNaN = true ∨ (y == 0.0) = true then Float.nan
  else if y.isFinite then ofUnits (isNegative x) ((signedUnits x).tmod (signedUnits y))
  else x

/-- What one number of units leaves of another has no more bits than their significands. -/
theorem mod_unitsOf (m : Nat) {m' : Nat} (h : m' ≠ 0) :
    ∃ c < 2 ^ 53, ∃ k, unitsOf m % unitsOf m' = c * 2 ^ k := by
  have hlt := significand_lt m
  have hlt' := significand_lt m'
  have hpos := Nat.pos_of_ne_zero (mt significand_eq_zero.1 h)
  rw [unitsOf_eq, unitsOf_eq]
  -- the scale that both numbers share is the lower one
  rcases Nat.le_total (scale m) (scale m') with hle | hle
  · have hmod : significand m * 2 ^ scale m % (significand m' * 2 ^ scale m') =
        significand m % (significand m' * 2 ^ (scale m' - scale m)) * 2 ^ scale m := by
      rw [← Nat.mul_mod_mul_right, Nat.mul_assoc, ← Nat.pow_add, Nat.sub_add_cancel hle]
    exact ⟨_, lt_of_le_of_lt (Nat.mod_le _ _) hlt, _, hmod⟩
  · have hmod : significand m * 2 ^ scale m % (significand m' * 2 ^ scale m') =
        significand m * 2 ^ (scale m - scale m') % significand m' * 2 ^ scale m' := by
      rw [← Nat.mul_mod_mul_right, Nat.mul_assoc, ← Nat.pow_add, Nat.sub_add_cancel hle]
    exact ⟨_, (Nat.mod_lt _ hpos).trans hlt', _, hmod⟩

/-- Up to the largest finite magnitude, every multiple of a power of two by less than `2 ^ 53` is worth some
    magnitude. -/
theorem exists_unitsOf_of_le {m n c k : Nat} (hm : m < infiniteMagnitude) (hle : n ≤ unitsOf m)
    (hc : c < 2 ^ 53) (hn : n = c * 2 ^ k) : ∃ m' < infiniteMagnitude, unitsOf m' = n := by
  have hself := nearestMagnitude_unitsOf hm.le Nat.one_pos
  have hmono := nearestMagnitude_mono_left 1 hle
  rw [Nat.mul_one] at hself
  have hlt : nearestMagnitude n 1 < infiniteMagnitude := by omega
  have hstep : quotientScale n 1 ≤ k := by
    rw [quotientScale, Nat.div_one]
    by_cases hzero : c = 0
    · rw [hn, hzero, Nat.zero_mul, Nat.log2_zero]
      omega
    · have hlog : c.log2 < 53 := (Nat.log2_lt hzero).2 hc
      rw [hn, log2_mul_two_pow hzero]
      omega
  -- a multiple of the step that it would be rounded to
  have hmultiple : n = c * 2 ^ (k - quotientScale n 1) * 2 ^ quotientScale n 1 := by
    rw [Nat.mul_assoc, ← Nat.pow_add, Nat.sub_add_cancel hstep]
    exact hn
  refine ⟨nearestMagnitude n 1, hlt, ?_⟩
  rw [unitsOf_nearestMagnitude hlt]
  generalize quotientScale n 1 = q at hmultiple ⊢
  rw [hmultiple, roundHalfEven_mul_self _ (Nat.two_pow_pos _)]

theorem remainder_of_isFinite {x y : Float} (hx : x.isFinite = true) (hy : y.isFinite = true)
    (h : magnitude y ≠ 0) :
    remainder x y = ofUnits (isNegative x) ((signedUnits x).tmod (signedUnits y)) := by
  have hnonzero : ¬(y == 0.0) = true := by
    have habs := natAbs_signedUnits y
    have hpos := units_pos h
    rw [beq_zero_iff hy]
    omega
  have hvalid : ¬(x.isFinite = false ∨ y.isNaN = true ∨ (y == 0.0) = true) := by
    rw [hx, isNaN_of_isFinite hy]
    rintro (h | h | h)
    · exact Bool.noConfusion h
    · exact Bool.noConfusion h
    · exact hnonzero h
  rw [remainder, if_neg hvalid, if_pos hy]

/-- The remainder of finite doubles is not rounded. -/
theorem signedUnits_remainder {x y : Float} (hx : x.isFinite = true) (hy : y.isFinite = true)
    (h : magnitude y ≠ 0) :
    (remainder x y).isFinite = true ∧
      signedUnits (remainder x y) = (signedUnits x).tmod (signedUnits y) := by
  have habs : ((signedUnits x).tmod (signedUnits y)).natAbs = units x % units y := by
    rw [Int.natAbs_tmod, natAbs_signedUnits, natAbs_signedUnits]
  obtain ⟨c, hc, k, hmod⟩ := mod_unitsOf (magnitude x) h
  obtain ⟨m, hm, hunits⟩ := exists_unitsOf_of_le (magnitude_lt hx) (Nat.mod_le _ _) hc hmod
  rw [remainder_of_isFinite hx hy h]
  exact signedUnits_ofUnits_exact _ hm (habs.trans hunits.symm)

example : remainder (-5.0) 2.0 = -1.0 ∧ remainder (-4.0) 2.0 = -0.0 := by decide +kernel

/-! ### Even numbers -/

theorem signedUnits_two : signedUnits 2.0 = (2 * unitsInOne : Nat) := by
  have hlit : (2.0 : Float) = Float.ofNat 2 := by decide
  rw [hlit, (units_ofNat (by decide)).2, Nat.cast_mul]

/-- A double is even just if nothing is left of it when it is divided by two. -/
theorem isEven_eq_remainder (x : Float) : isEven x = (remainder x 2.0 == 0.0) := by
  cases hx : x.isFinite with
  | false =>
      have hne : (Float.nan == 0.0) = false := by decide
      rw [remainder, if_pos (Or.inl hx), hne, isEven, hx, Bool.false_and]
  | true =>
      obtain ⟨hfin, hunits⟩ := signedUnits_remainder hx (y := 2.0) (by decide) (by decide)
      rw [Bool.eq_iff_iff, beq_zero_iff hfin, hunits, ← Int.natAbs_eq_zero, Int.natAbs_tmod,
        natAbs_signedUnits, signedUnits_two, Int.natAbs_natCast, isEven, hx, Bool.true_and, beq_iff_eq]

/-- A finite double that is worth a positive and even whole number. -/
def IsEvenCount (x : Float) : Prop :=
  x.isFinite = true ∧ ∃ n : Nat, 0 < n ∧ Even n ∧ signedUnits x = n * unitsInOne

/-- The even counts are the doubles above zero that are even. -/
theorem isEven_and_pos_iff {x : Float} : isEven x = true ∧ 0.0 < x ↔ IsEvenCount x := by
  have habs := natAbs_signedUnits x
  have hone := unitsInOne_pos
  unfold isEven IsEvenCount
  rw [Bool.and_eq_true, beq_iff_eq, and_assoc]
  constructor
  · rintro ⟨hfin, hmod, hlt⟩
    have hpos := (pos_iff hfin).1 hlt
    obtain ⟨q, hq⟩ := Nat.dvd_of_mod_eq_zero hmod
    have hunits : signedUnits x = (q + q : Nat) * unitsInOne := by
      rw [← Nat.cast_mul, ← two_mul, Nat.mul_right_comm, ← hq]
      omega
    refine ⟨hfin, q + q, ?_, ⟨q, rfl⟩, hunits⟩
    by_contra hzero
    rw [Nat.eq_zero_of_not_pos hzero, Nat.cast_zero, Int.zero_mul] at hunits
    omega
  · rintro ⟨hfin, n, hn, ⟨q, rfl⟩, hunits⟩
    have hprod := Nat.mul_pos hn hone
    rw [← Nat.cast_mul] at hunits
    refine ⟨hfin, ?_, (pos_iff hfin).2 (by omega)⟩
    have hq : units x = 2 * unitsInOne * q := by
      rw [← habs, hunits, Int.natAbs_natCast, ← two_mul, Nat.mul_right_comm]
    rw [hq, Nat.mul_mod_right]

end EvalCharts.Double
