/-
Module: EvalCharts.Proofs.Double.Parts
Purpose: Whole numbers that are divided by two, five or ten and multiplied again. Below `2 ^ 52` the two
  roundings cancel out, although a fifth or a tenth of a whole number is hardly ever a double.
Main exports: nearestMagnitude_of_round, nearestMagnitude_five, nearestMagnitude_parts, IsHalves.div_mul
-/
import EvalCharts.Proofs.Double.Halves

namespace EvalCharts.Double

/-- A number of units is rounded to what its leading bits are rounded to. -/
theorem nearestMagnitude_of_round {n k r : Nat} (hk : quotientScale n 1 = k)
    (hround : roundHalfEven n (2 ^ k) = r) (hlow : 2 ^ 52 ≤ r) (hhigh : r ≤ 2 ^ 53) (hscale : k ≤ 1074) :
    nearestMagnitude n 1 = nearestMagnitude (r * 2 ^ k) 1 := by
  have hm : k * 2 ^ 52 + r ≤ infiniteMagnitude := by
    unfold infiniteMagnitude
    omega
  have hself := nearestMagnitude_unitsOf hm Nat.one_pos
  rw [unitsOf_carry hhigh (Or.inr hlow), Nat.mul_one] at hself
  rw [hself, nearestMagnitude_eq, hk, Nat.one_mul, hround, Nat.min_eq_left hm]

/-- Five times the rounded fifth of a multiple of eight is at most two off. That is no more than half a step,
    and where it is half a step the multiple is the even neighbour. -/
theorem nearestMagnitude_five {M t : Nat} (hlow : 5 * 2 ^ 52 ≤ 8 * M) (hhigh : 8 * M < 5 * 2 ^ 53)
    (ht : t ≤ 1071) :
    nearestMagnitude (5 * roundHalfEven (8 * M) 5 * 2 ^ t) 1 = nearestMagnitude (8 * M * 2 ^ t) 1 := by
  have hnear : 8 * M ≤ 5 * roundHalfEven (8 * M) 5 + 2 ∧ 5 * roundHalfEven (8 * M) 5 ≤ 8 * M + 2 := by
    unfold roundHalfEven
    split <;> omega
  generalize 5 * roundHalfEven (8 * M) 5 = n at hnear ⊢
  have hscale : ∀ l, 2 ^ (52 + l) ≤ n → n < 2 ^ (52 + l + 1) → quotientScale (n * 2 ^ t) 1 = t + l := by
    intro l hle hlt
    have hne : n ≠ 0 := by omega
    rw [quotientScale, Nat.div_one, log2_mul_two_pow hne, (Nat.log2_eq_iff hne).2 ⟨hle, hlt⟩]
    omega
  rcases Nat.lt_or_ge n (2 ^ 55) with hsmall | hlarge
  · have hround : roundHalfEven (n * 2 ^ t) (2 ^ (t + 2)) = 2 * M := by
      rw [Nat.add_comm, Nat.pow_add, roundHalfEven_mul_right _ _ (Nat.two_pow_pos t)]
      unfold roundHalfEven
      split <;> omega
    have hvalue : 2 * M * 2 ^ (t + 2) = 8 * M * 2 ^ t := by
      rw [Nat.pow_add]
      ring
    rw [nearestMagnitude_of_round (hscale 2 (by omega) (by omega)) hround (by omega) (by omega) (by omega),
      hvalue]
  · have hround : roundHalfEven (n * 2 ^ t) (2 ^ (t + 3)) = M := by
      rw [Nat.add_comm, Nat.pow_add, roundHalfEven_mul_right _ _ (Nat.two_pow_pos t)]
      unfold roundHalfEven
      split <;> omega
    have hvalue : M * 2 ^ (t + 3) = 8 * M * 2 ^ t := by
      rw [Nat.pow_add]
      ring
    rw [nearestMagnitude_of_round (hscale 3 (by omega) (by omega)) hround (by omega) (by omega) (by omega),
      hvalue]

/-- The multiples of a power of two among whole numbers of moderate size. -/
theorem exists_multiple {K c t : Nat} (hK : K < 2 ^ 52) (h : 2 ^ 52 ≤ K * unitsInOne / (2 ^ c * 2 ^ t)) :
    ∃ M, K * unitsInOne = M * (2 ^ (c + 1) * 2 ^ t) ∧ c + t < 1074 := by
  obtain ⟨w, hw⟩ : ∃ w, w = 1074 := ⟨1074, rfl⟩
  rw [unitsInOne_eq_two_pow hw] at h ⊢
  have hle : 2 ^ 52 * 2 ^ (c + t) ≤ K * 2 ^ w := by
    rw [Nat.pow_add]
    exact (Nat.le_div_iff_mul_le (Nat.mul_pos (Nat.two_pow_pos c) (Nat.two_pow_pos t))).1 h
  have hlt : 2 ^ (c + t) < 2 ^ w := by
    have hbelow := Nat.mul_lt_mul_of_pos_right hK (Nat.two_pow_pos w)
    exact Nat.lt_of_mul_lt_mul_left (hle.trans_lt hbelow)
  have hexponent := (Nat.pow_lt_pow_iff_right (by decide)).1 hlt
  refine ⟨K * 2 ^ (w - (c + 1 + t)), ?_, by omega⟩
  rw [← Nat.pow_add, Nat.mul_assoc, ← Nat.pow_add, Nat.sub_add_cancel (by omega)]

/-- The two roundings cancel out where a fifth is involved. -/
theorem nearestMagnitude_fifth {K t : Nat} (hK : K < 2 ^ 52) (hlow : 2 ^ 52 ≤ K * unitsInOne / (5 * 2 ^ t))
    (hhigh : K * unitsInOne / (5 * 2 ^ t) < 2 ^ 53) :
    nearestMagnitude (5 * roundHalfEven (K * unitsInOne) (5 * 2 ^ t) * 2 ^ t) 1 =
      nearestMagnitude (K * unitsInOne) 1 := by
  have hpos := Nat.two_pow_pos t
  have hfour : 2 ^ 2 * 2 ^ t ≤ 5 * 2 ^ t := Nat.mul_le_mul_right _ (by decide)
  obtain ⟨M, hM, ht⟩ := exists_multiple (c := 2) hK
    (hlow.trans (Nat.div_le_div_left hfour (Nat.mul_pos (by decide) hpos)))
  have hvalue : K * unitsInOne = 8 * M * 2 ^ t := by
    rw [hM]
    ring
  rw [hvalue] at hlow hhigh ⊢
  rw [Nat.mul_div_mul_right _ _ hpos] at hlow hhigh
  rw [roundHalfEven_mul_right _ _ hpos]
  exact nearestMagnitude_five (by omega) (by omega) (by omega)

/-- Two, five or ten rounded parts of a whole number are rounded to the number. -/
theorem nearestMagnitude_parts {K part : Nat} (hK : K < 2 ^ 52) (hpart : part = 2 ∨ part = 5 ∨ part = 10) :
    nearestMagnitude (unitsOf (nearestMagnitude (K * unitsInOne) part) * part) 1 =
      nearestMagnitude (K * unitsInOne) 1 := by
  have hpos : 0 < part := by omega
  rcases Nat.eq_zero_or_pos K with rfl | hKpos
  · rw [Nat.zero_mul, nearestMagnitude_zero hpos, nearestMagnitude_zero Nat.one_pos]
    exact (congrArg (nearestMagnitude · 1) (Nat.zero_mul part)).trans (nearestMagnitude_zero Nat.one_pos)
  have hfinite : nearestMagnitude (K * unitsInOne) part < infiniteMagnitude := by
    refine (nearestMagnitude_mono hpos Nat.one_pos ?_).trans_lt (nearestMagnitude_natCast_lt (n := K) (by omega))
    exact Nat.mul_le_mul_left _ hpos
  have hscale : quotientScale (K * unitsInOne) part ≠ 0 := by
    intro hzero
    have hlt := div_lt_of_quotientScale (K * unitsInOne) part
    rw [hzero, Nat.pow_zero, Nat.mul_one, Nat.div_lt_iff_lt_mul hpos] at hlt
    have hlarge : 2 ^ 57 ≤ unitsInOne := two_pow_le_unitsInOne (by decide)
    have hle := Nat.le_mul_of_pos_left unitsInOne hKpos
    omega
  have hlow := le_div_of_quotientScale hscale
  have hhigh := div_lt_of_quotientScale (K * unitsInOne) part
  rw [unitsOf_nearestQuotient hfinite]
  generalize quotientScale (K * unitsInOne) part = k at hlow hhigh ⊢
  rcases hpart with rfl | rfl | rfl
  · -- a half of a whole number is exact
    obtain ⟨M, hM, -⟩ := exists_multiple (c := 1) (t := k) hK hlow
    have hvalue : K * unitsInOne = 2 * M * (2 * 2 ^ k) := by
      rw [hM]
      ring
    have hproduct : 2 * M * 2 ^ k * 2 = 2 * M * (2 * 2 ^ k) := by ring
    rw [hvalue, roundHalfEven_mul_self _ (Nat.mul_pos (by decide) (Nat.two_pow_pos k)), hproduct]
  · rw [← nearestMagnitude_fifth hK hlow hhigh]
    congr 1
    ring
  · have hten : 10 * 2 ^ k = 5 * 2 ^ (k + 1) := by
      rw [Nat.pow_succ]
      ring
    rw [hten] at hlow hhigh ⊢
    rw [← nearestMagnitude_fifth hK hlow hhigh, Nat.pow_succ]
    congr 1
    ring

/-- Dividing a whole number into two, five or ten parts and multiplying them again leads back to it. -/
theorem IsHalves.div_mul {x y z : Float} {K part c : Nat} (hx : IsHalves x ((K * c : Nat) : Int))
    (hy : IsHalves y ((part * c : Nat) : Int)) (hz : IsHalves z (2 * part)) (hc : 0 < c) (hK : K < 2 ^ 52)
    (hpart : part = 2 ∨ part = 5 ∨ part = 10) : IsHalves (x / y * z) (2 * K) := by
  have hpos : 0 < part := by omega
  have hquotient : rank (x / y) = rank (ofRatio K part) :=
    rank_div (by rwa [Nat.cast_mul] at hx) hy hpos hc
  have hnearest := nearestMagnitude_le (K * unitsInOne) part
  have hunits : signedUnits (x / y) = unitsOf (nearestMagnitude (K * unitsInOne) part) := by
    rw [signedUnits_eq_of_rank_eq hquotient, ofRatio_eq, Int.natAbs_natCast, decide_eq_false (by omega),
      signedUnits, isNegative_ofMagnitude _ hnearest, Double.units, magnitude_ofMagnitude _ hnearest, signed,
      if_neg Bool.false_ne_true]
  have hfinite : (x / y).isFinite = true := isFinite_congr hquotient
    (floor_toReal_ofRatio hpos (by omega) (by omega)).1
  have hpositive : Positive z := hz.positive (by omega)
  have hz' : Double.units z = part * unitsInOne := by
    rw [← natAbs_signedUnits, (isHalves_two_mul_iff.1 hz).2, natAbs_mul_natCast, Int.natAbs_natCast]
  refine (isHalves_ofNat (n := K) (by omega)).congr ?_
  rw [rank_mul hfinite hpositive, hunits, hz', ofNat_eq, rank_ofMagnitude _ (nearestMagnitude_le _ _), signed,
    if_neg Bool.false_ne_true, ← nearestMagnitude_parts hK hpart, ← nearestRank_natCast]
  rw [← Nat.cast_mul, ← Nat.mul_assoc, Nat.cast_mul]
  have hscaled := nearestRank_mul_right
    ((unitsOf (nearestMagnitude (K * unitsInOne) part) * part : Nat) : Int) 1 unitsInOne_pos
  rwa [Nat.one_mul] at hscaled

end EvalCharts.Double
