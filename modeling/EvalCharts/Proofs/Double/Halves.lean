/-
Module: EvalCharts.Proofs.Double.Halves
Purpose: Doubles that are worth a whole number of halves. Up to 53 bits they are added, subtracted and
  multiplied without rounding, and quotients that come out even are exact. Rounding a quotient down is then
  the division of whole numbers, although the quotient itself is rounded.
Main exports: IsHalves, isHalves_iff_toReal, isHalves_ofNat, IsHalves.add, IsHalves.sub, IsHalves.mul,
  IsHalves.div_exact, IsHalves.floor_div, IsHalves.round_eq, toInt_floor, le_toInt_round, sub_round
-/
import EvalCharts.Proofs.Double.Scaling

namespace EvalCharts.Double

/-- A finite double that is worth a number of halves. -/
structure IsHalves (x : Float) (n : Int) : Prop where
  finite : x.isFinite = true
  units : signedUnits x = n * units 0.5

theorem units_half_pos : 0 < units 0.5 :=
  units_pos (by decide)

/-- What is worth an even number of halves is worth a whole number. -/
theorem isHalves_two_mul_iff {x : Float} {n : Int} :
    IsHalves x (2 * n) ↔ x.isFinite = true ∧ signedUnits x = n * unitsInOne := by
  have hunits : (2 * n) * (units 0.5 : Int) = n * unitsInOne := by
    rw [← two_mul_units_half, Nat.cast_mul]
    push_cast
    ring
  constructor
  · rintro ⟨hfinite, h⟩
    exact ⟨hfinite, h.trans hunits⟩
  · rintro ⟨hfinite, h⟩
    exact ⟨hfinite, h.trans hunits.symm⟩

theorem isHalves_iff_toReal {x : Float} {n : Int} :
    IsHalves x n ↔ x.isFinite = true ∧ toReal x = n / 2 := by
  have hone := unitsInOne_cast_pos
  have hpos := units_half_pos
  have hunits := two_mul_units_half
  have hiff : IsHalves x n ↔ x.isFinite = true ∧ signedUnits x = n * units 0.5 :=
    ⟨fun h => ⟨h.finite, h.units⟩, fun h => ⟨h.1, h.2⟩⟩
  rw [hiff, toReal]
  generalize units 0.5 = half at hpos hunits ⊢
  have hhalf : (0 : ℝ) < half := Nat.cast_pos.2 hpos
  rw [← hunits, Nat.cast_mul, Nat.cast_two, div_eq_div_iff (by positivity) two_ne_zero, mul_comm 2 (half : ℝ),
    ← mul_assoc, mul_left_inj' two_ne_zero]
  exact and_congr_right fun _ => ⟨fun h => by exact_mod_cast h, fun h => by exact_mod_cast h⟩

theorem isHalves_ofNat {n : Nat} (h : n ≤ 2 ^ 53) : IsHalves (Float.ofNat n) (2 * n) :=
  isHalves_two_mul_iff.2 (units_ofNat h)

theorem isHalves_literal {x : Float} {n : Nat} (hx : x = Float.ofNat n) (hn : n ≤ 2 ^ 53) : IsHalves x (2 * n) :=
  hx ▸ isHalves_ofNat hn

theorem isHalves_one : IsHalves 1.0 (2 * (1 : Nat)) :=
  isHalves_literal (by decide) (by decide)

theorem isHalves_two : IsHalves 2.0 (2 * (2 : Nat)) :=
  isHalves_literal (by decide) (by decide)

theorem isHalves_ten : IsHalves 10.0 (2 * (10 : Nat)) :=
  isHalves_literal (by decide) (by decide)

theorem isHalves_zero : IsHalves 0.0 0 :=
  ⟨by decide, by rw [signedUnits_eq_zero (by decide), zero_mul]⟩

namespace IsHalves

variable {x y : Float} {a b : Int}

theorem isNaN (h : IsHalves x a) : x.isNaN = false :=
  isNaN_of_isFinite h.finite

theorem cast (h : IsHalves x a) (hab : a = b) : IsHalves x b :=
  hab ▸ h

theorem congr (hy : IsHalves y a) (h : rank x = rank y) : IsHalves x a :=
  ⟨isFinite_congr h hy.finite, (signedUnits_eq_of_rank_eq h).trans hy.units⟩

theorem rank_eq (hx : IsHalves x a) (hy : IsHalves y a) : rank x = rank y := by
  rw [rank_eq_nearestRank hx.finite, rank_eq_nearestRank hy.finite, hx.units, hy.units]

/-- Apart from zero there is one double that is worth a number of halves. -/
theorem eq (hx : IsHalves x a) (hy : IsHalves y a) (ha : a ≠ 0) : x = y := by
  have hne : ∀ z, IsHalves z a → z ≠ -0.0 := by
    rintro _ hz rfl
    have hunits := hz.units
    rw [signedUnits_eq_zero (by decide)] at hunits
    exact mul_ne_zero ha (Int.natCast_pos.2 units_half_pos).ne' hunits.symm
  exact eq_of_rank_eq (hx.rank_eq hy) (hne x hx) (hne y hy)

theorem lt_iff (hx : IsHalves x a) (hy : IsHalves y b) : x < y ↔ a < b := by
  rw [lt_iff_signedUnits hx.finite hy.finite, hx.units, hy.units]
  exact mul_lt_mul_iff_left₀ (Int.natCast_pos.2 units_half_pos)

theorem le_iff (hx : IsHalves x a) (hy : IsHalves y b) : x ≤ y ↔ a ≤ b := by
  rw [← toReal_le_iff hx.finite hy.finite, (isHalves_iff_toReal.1 hx).2, (isHalves_iff_toReal.1 hy).2,
    div_le_div_iff_of_pos_right two_pos, Int.cast_le]

end IsHalves

/-! ### Exact arithmetic -/

theorem isHalves_half : IsHalves 0.5 1 :=
  ⟨by decide, by rw [signedUnits_half.1, one_mul]⟩

theorem isHalves_neg_half : IsHalves (-0.5) (-1) :=
  ⟨by decide, by rw [signedUnits_half.2, neg_one_mul]⟩

/-- A number of halves that has at most 53 bits is a double. -/
theorem exists_unitsOf_halves {n : Nat} (hn : n ≤ 2 ^ 53) :
    ∃ m < infiniteMagnitude, unitsOf m = n * units 0.5 := by
  obtain ⟨k, hk⟩ : ∃ k, k = 1073 := ⟨1073, rfl⟩
  have hhalf : units 0.5 = 2 ^ k := by
    have htwo := two_mul_units_half
    rw [unitsInOne_eq_two_pow (k := k + 1) (by omega), Nat.pow_succ] at htwo
    omega
  rw [hhalf]
  exact exists_unitsOf hn (by omega)

/-- The double with the other sign. -/
theorem exists_neg {y : Float} (hy : y.isFinite = true) :
    ∃ y', y'.isFinite = true ∧ signedUnits y' = -signedUnits y ∧ isNegative y' = !isNegative y ∧
      ∀ x, x - y = x + y' := by
  have hm := magnitude_lt hy
  obtain ⟨y', hy'⟩ : ∃ y', y' = ofMagnitude (!isNegative y) (magnitude y) := ⟨_, rfl⟩
  have hsign : isNegative y' = !isNegative y := by rw [hy', isNegative_ofMagnitude _ hm.le]
  have hmagnitude : magnitude y' = magnitude y := by rw [hy', magnitude_ofMagnitude _ hm.le]
  refine ⟨y', by rw [hy']; exact isFinite_ofMagnitude _ hm, ?_, hsign, fun x => sub_eq_add hsign hmagnitude x⟩
  rw [signedUnits, signedUnits, hsign, units, units, hmagnitude]
  cases isNegative y <;> simp [signed]

theorem add_zero_eq {x : Float} (hx : x ≠ -0.0) : x + 0.0 = x :=
  eq_of_rank_eq ((congrArg rank (add_swap x 0.0)).trans (rank_positive_zero_add x)) (add_ne_negative_zero hx _) hx

theorem ofNat_ne_negative_zero (n : Nat) : Float.ofNat n ≠ -0.0 := by
  intro h
  have hsign := (eq_negative_zero_iff.1 h).1
  rw [ofNat_eq, isNegative_ofMagnitude _ (nearestMagnitude_le _ _)] at hsign
  cases hsign

/-- Taking a finite double away from itself leaves zero. -/
theorem sub_self_eq {x : Float} (h : x.isFinite = true) : x - x = 0.0 := by
  obtain ⟨y, hfinite, hunits, hsign, hsub⟩ := exists_neg h
  rw [hsub, add_eq h hfinite, hunits, add_neg_cancel, hsign, ofUnits_zero]
  cases isNegative x <;> decide

theorem abs_unpacked (negative : Bool) (m : Nat) : (unpacked negative m).abs = unpacked false m := by
  unfold unpacked
  split
  · rfl
  · split
    · rfl
    · split <;> rfl

/-- Dropping the sign of a number. -/
theorem abs_eq {x : Float} (h : x.isNaN = false) : x.abs = ofMagnitude false (magnitude x) := by
  have habs : x.abs = Float.ofModel (Float.Model.pack x.toModel.unpack.abs) := rfl
  rw [habs, unpack_eq, abs_unpacked, ofModel_pack_unpacked false (magnitude_le h)]

/-- A product that is worth some magnitude is exact. -/
theorem signedUnits_mul {x y : Float} (hx : x.isFinite = true) (hy : y.isFinite = true) {m : Nat}
    (hm : m < infiniteMagnitude) (h : units x * units y = unitsOf m * unitsInOne) :
    (x * y).isFinite = true ∧ signedUnits (x * y) * unitsInOne = signedUnits x * signedUnits y := by
  rw [mul_eq hx hy, h, nearestMagnitude_unitsOf hm.le unitsInOne_pos]
  refine ⟨isFinite_ofMagnitude _ hm, ?_⟩
  have hcast : (units x : Int) * units y = unitsOf m * unitsInOne := by exact_mod_cast h
  have hunits : units (ofMagnitude (isNegative x != isNegative y) m) = unitsOf m := by
    rw [units, magnitude_ofMagnitude _ hm.le]
  rw [signedUnits, signedUnits, signedUnits, hunits, isNegative_ofMagnitude _ hm.le]
  generalize (unitsInOne : Int) = one at hcast
  cases isNegative x <;> cases isNegative y <;> simp [signed, hcast]

namespace IsHalves

variable {x y : Float} {a b : Int}

theorem natAbs_units (h : IsHalves x a) : Double.units x = a.natAbs * Double.units 0.5 := by
  rw [← natAbs_signedUnits, h.units, natAbs_mul_natCast]

theorem add (hx : IsHalves x a) (hy : IsHalves y b) (h : (a + b).natAbs ≤ 2 ^ 53) :
    IsHalves (x + y) (a + b) := by
  have hsum : signedUnits x + signedUnits y = (a + b) * Double.units 0.5 := by
    rw [hx.units, hy.units, add_mul]
  obtain ⟨m, hm, hunits⟩ := exists_unitsOf_halves h
  obtain ⟨hfinite, hexact⟩ := signedUnits_add hx.finite hy.finite hm (by
    rw [hsum, natAbs_mul_natCast, hunits])
  exact ⟨hfinite, hexact.trans hsum⟩

theorem sub (hx : IsHalves x a) (hy : IsHalves y b) (h : (a - b).natAbs ≤ 2 ^ 53) :
    IsHalves (x - y) (a - b) := by
  obtain ⟨y', hfinite, hunits, -, hsub⟩ := exists_neg hy.finite
  have hy' : IsHalves y' (-b) := ⟨hfinite, by rw [hunits, hy.units, neg_mul]⟩
  rw [hsub, sub_eq_add_neg]
  exact hx.add hy' h

/-- A whole number times some halves. -/
theorem mul (hx : IsHalves x (2 * a)) (hy : IsHalves y b) (h : (a * b).natAbs ≤ 2 ^ 53) :
    IsHalves (x * y) (a * b) := by
  obtain ⟨m, hm, hunits⟩ := exists_unitsOf_halves h
  have hproduct : Double.units x * Double.units y = unitsOf m * unitsInOne := by
    rw [hx.natAbs_units, hy.natAbs_units, hunits, ← two_mul_units_half, Int.natAbs_mul, Int.natAbs_mul]
    change 2 * _ * _ * _ = _
    ring
  obtain ⟨hfinite, hexact⟩ := signedUnits_mul hx.finite hy.finite hm hproduct
  refine ⟨hfinite, Int.eq_of_mul_eq_mul_right (Int.natCast_pos.2 unitsInOne_pos).ne' ?_⟩
  rw [hexact, (isHalves_two_mul_iff.1 hx).2, hy.units]
  ring

theorem abs (h : IsHalves x a) : IsHalves x.abs a.natAbs := by
  have hm := magnitude_lt h.finite
  rw [abs_eq h.isNaN]
  refine ⟨isFinite_ofMagnitude false hm, ?_⟩
  rw [signedUnits, isNegative_ofMagnitude _ hm.le, Double.units, magnitude_ofMagnitude _ hm.le, signed,
    if_neg Bool.false_ne_true, ← Double.units, h.natAbs_units, Nat.cast_mul]

theorem positive (h : IsHalves x a) (ha : 0 < a) : Positive x :=
  positive_of_pos ((isHalves_zero.lt_iff h).2 ha) h.finite

end IsHalves

/-! ### Quotients -/

namespace IsHalves

variable {x y : Float} {a : Int} {b c : Nat}

/-- A quotient depends on the ratio of the halves alone. -/
theorem rank_div (hx : IsHalves x (a * c)) (hy : IsHalves y ((b * c : Nat) : Int)) (hb : 0 < b) (hc : 0 < c) :
    rank (x / y) = rank (ofRatio a b) := by
  have hunits : Double.units y = b * (c * Double.units 0.5) := by
    rw [hy.natAbs_units, Int.natAbs_natCast, Nat.mul_assoc]
  have hscaled : a * c * Double.units 0.5 * unitsInOne =
      a * unitsInOne * ((c * Double.units 0.5 : Nat) : Int) := by
    rw [Nat.cast_mul]
    ring
  rw [Double.rank_div hx.finite (hy.positive (Int.natCast_pos.2 (Nat.mul_pos hb hc))), rank_ofRatio, hx.units,
    hunits, hscaled, nearestRank_mul_right _ _ (Nat.mul_pos hc units_half_pos)]

/-- A division that comes out even is exact. -/
theorem div_exact (hx : IsHalves x (a * c)) (hy : IsHalves y (c : Int)) (hc : 0 < c) (ha : a.natAbs ≤ 2 ^ 53) :
    IsHalves (x / y) (2 * a) := by
  obtain ⟨hfinite, hunits⟩ := signedUnits_whole ha
  have hrank : rank (x / y) = rank (ofUnits false (a * unitsInOne)) := by
    rw [rank_div (b := 1) hx (by rwa [Nat.one_mul]) Nat.one_pos hc, rank_ofRatio,
      ← nearestRank_mul_whole a Nat.one_pos, Nat.cast_one, mul_one]
  exact (isHalves_two_mul_iff.2 ⟨hfinite, hunits⟩).congr hrank

/-! ### Rounding to a whole number -/

/-- A rounded quotient of whole numbers has the whole part of the exact one. It does not reach the next whole
    number, from which the exact one is farther away than one part in `2 ^ 53`. -/
theorem floor_toReal_ofRatio {p : Int} {q : Nat} (hq : 0 < q) (hp : p.natAbs < 2 ^ 53) (hq' : q ≤ 2 ^ 53) :
    (ofRatio p q).isFinite = true ∧ ⌊toReal (ofRatio p q)⌋ = p / q := by
  have hqpos : (0 : ℝ) < q := Nat.cast_pos.2 hq
  have hlow : p ≠ 0 → 2 ^ 52 * q ≤ p.natAbs * unitsInOne := fun hne =>
    calc 2 ^ 52 * q ≤ 2 ^ 52 * 2 ^ 53 := Nat.mul_le_mul_left _ hq'
      _ ≤ unitsInOne := two_pow_le_unitsInOne (j := 52 + 53) (by decide)
      _ ≤ p.natAbs * unitsInOne := Nat.le_mul_of_pos_left _ (Int.natAbs_pos.2 hne)
  obtain ⟨hfinite, herror⟩ := toReal_ofRatio_error hq hlow (by omega)
  have hdiv := Int.emod_add_mul_ediv p q
  have hnonneg := Int.emod_nonneg p (Int.natCast_pos.2 hq).ne'
  have hlt := Int.emod_lt_of_pos p (Int.natCast_pos.2 hq)
  refine ⟨hfinite, Int.floor_eq_iff.2 ⟨?_, ?_⟩⟩
  · refine le_toReal_ofRatio hq ?_ hfinite (by linarith)
    have habs := Int.natAbs_ediv_le_natAbs p q
    omega
  · have hsize : |(p : ℝ)| < 2 ^ 53 := by
      rw [← Int.cast_abs, ← Nat.cast_natAbs]
      exact_mod_cast hp
    have hbelow : (p : ℝ) + 1 ≤ ((p / q : Int) + 1) * q := by
      have hcast : p + 1 ≤ (p / q + 1) * q := by linarith
      exact_mod_cast hcast
    have herror' : toReal (ofRatio p q) * q < p + 1 := by
      have hle := (abs_le.1 herror).2
      rw [abs_div, abs_of_pos hqpos, div_div, sub_le_iff_le_add] at hle
      have hmul := mul_le_mul_of_nonneg_right hle hqpos.le
      have hpart : |(p : ℝ)| / (q * 2 ^ 53) * q = |(p : ℝ)| / 2 ^ 53 := by field_simp
      rw [add_mul, hpart, div_mul_cancel₀ _ hqpos.ne'] at hmul
      linarith
    exact lt_of_mul_lt_mul_right (herror'.trans_le hbelow) hqpos.le

/-- Rounding a quotient down is the division of whole numbers. -/
theorem floor_div (hx : IsHalves x (a * c)) (hy : IsHalves y ((b * c : Nat) : Int)) (hb : 0 < b) (hc : 0 < c)
    (hb' : b ≤ 2 ^ 53) (ha : a.natAbs < 2 ^ 53) : IsHalves (floor (x / y)) (2 * (a / b)) := by
  obtain ⟨hfinite, hfloor⟩ := floor_toReal_ofRatio hb ha hb'
  have hrank := hx.rank_div hy hb hc
  have hfinite' : (x / y).isFinite = true := isFinite_congr hrank hfinite
  obtain ⟨hfinite'', hunits⟩ := signedUnits_floor hfinite'
  refine isHalves_two_mul_iff.2 ⟨hfinite'', ?_⟩
  rw [hunits, toReal, signedUnits_eq_of_rank_eq hrank, ← toReal, hfloor]

/-- A whole number is not rounded. -/
theorem round_eq (h : IsHalves x (2 * a)) : round x = x := by
  have hone := unitsInOne_pos
  have hunits : Double.units x = a.natAbs * unitsInOne := by
    rw [← natAbs_signedUnits, (isHalves_two_mul_iff.1 h).2, natAbs_mul_natCast]
  have hsame : nearestWhole (Double.units x) = Double.units x := by
    rw [nearestWhole, dropFraction, hunits, Nat.add_comm, Nat.add_mul_div_right _ _ hone,
      Nat.div_eq_of_lt (Nat.div_lt_self hone (by decide)), Nat.zero_add]
  rw [round, mapUnits, if_pos h.finite, hsame, Double.units, magnitudeOf_unitsOf, ofMagnitude_eq h.isNaN]

end IsHalves

/-- Rounding down and turning into an integer. -/
theorem toInt_floor {x : Float} (hx : x.isFinite = true) {least greatest : Int} (hlow : least ≤ ⌊toReal x⌋)
    (hhigh : ⌊toReal x⌋ ≤ greatest) : toInt least greatest (floor x) = ⌊toReal x⌋ := by
  obtain ⟨hfinite, hunits⟩ := signedUnits_floor hx
  exact toInt_of_signedUnits hfinite hunits hlow hhigh

/-- Rounding to the closest whole number. -/
theorem signedUnits_round {x : Float} (hx : x.isFinite = true) :
    (round x).isFinite = true ∧
      signedUnits (round x) = signed (isNegative x) ((units x + unitsInOne / 2) / unitsInOne * unitsInOne) := by
  have hone := unitsInOne_pos
  refine signedUnits_mapUnits hx rfl ?_
  rcases dvd_units_or_lt x with ⟨w, hw⟩ | hlt
  · left
    rw [hw, Nat.mul_add_div hone, Nat.div_eq_of_lt (Nat.div_lt_self hone (by decide)), Nat.add_zero, Nat.mul_comm]
  · right
    rw [← Nat.lt_succ_iff, Nat.div_lt_iff_lt_mul hone, Nat.succ_mul]
    omega

theorem nonneg_round {x : Float} (hx : x.isFinite = true) (h : 0.0 ≤ x) :
    (round x).isFinite = true ∧ 0.0 ≤ round x := by
  obtain ⟨hfinite, hunits⟩ := signedUnits_round hx
  have hnonneg := signedUnits_mono (by decide) hx (le_iff.1 h).2.2
  rw [signedUnits_eq_zero (by decide), signedUnits] at hnonneg
  refine ⟨hfinite, (toReal_le_iff (by decide) hfinite).1 ?_⟩
  rw [toReal, signedUnits_eq_zero (by decide), Int.cast_zero, zero_div, toReal, hunits]
  refine div_nonneg (Int.cast_nonneg ?_) unitsInOne_cast_pos.le
  cases hsign : isNegative x with
  | false =>
      rw [signed, if_neg Bool.false_ne_true]
      exact Int.natCast_nonneg _
  | true =>
      -- a zero with a sign stays zero
      rw [hsign, signed, if_pos rfl] at hnonneg
      have hzero : units x = 0 := by omega
      rw [hzero, Nat.zero_add, Nat.div_eq_of_lt (Nat.div_lt_self unitsInOne_pos (by decide)), Nat.zero_mul]
      rfl

/-- Rounding and turning into an integer keeps a whole lower bound. -/
theorem le_toInt_round {x : Float} {n : Nat} {greatest : Int} (hn : n ≤ 2 ^ 53) (hgreatest : n ≤ greatest)
    (h : Float.ofNat n ≤ x) : n ≤ toInt 0 greatest (round x) := by
  have hzero : (0.0 : Float) = Float.ofNat 0 := by decide
  have hnonneg : 0.0 ≤ x := le_of_le_of_le (hzero ▸ ofNat_le_ofNat (Nat.zero_le n)) h
  have hnum := (le_iff.1 h).2.1
  cases hfinite : x.isFinite with
  | true =>
      obtain ⟨hfinite', hunits⟩ := signedUnits_round hfinite
      have hmono := signedUnits_mono (isHalves_ofNat hn).finite hfinite (le_iff.1 h).2.2
      have hone := unitsInOne_pos
      rw [signed_mul] at hunits
      rw [toInt_eq_clamp hfinite' hunits]
      rw [(units_ofNat hn).2, signedUnits] at hmono
      cases hsign : isNegative x with
      | false =>
          rw [hsign, signed, if_neg Bool.false_ne_true, ← Nat.cast_mul, Nat.cast_le] at hmono
          have hle : n ≤ (units x + unitsInOne / 2) / unitsInOne :=
            (Nat.le_div_iff_mul_le hone).2 (hmono.trans (Nat.le_add_right _ _))
          rw [signed, if_neg Bool.false_ne_true]
          omega
      | true =>
          -- only zero is not above a number with a sign
          rw [hsign, signed, if_pos rfl] at hmono
          have hle : n * unitsInOne ≤ 0 := by
            rw [← Nat.cast_mul] at hmono
            omega
          have hn0 : n = 0 := by
            by_contra hne
            exact absurd (Nat.mul_pos (Nat.pos_of_ne_zero hne) hone) (by omega)
          rw [hn0]
          exact le_max_left _ _
  | false =>
      have hsign := isNegative_of_nonneg hnonneg hfinite
      rw [round, mapUnits, hfinite, if_neg Bool.false_ne_true, toInt, hnum, if_neg Bool.false_ne_true, hfinite,
        if_neg Bool.false_ne_true, hsign, if_neg Bool.false_ne_true]
      exact hgreatest

/-! ### What rounding leaves -/

theorem natAbs_signed_sub (negative : Bool) (a b : Nat) :
    (signed negative a - signed negative b).natAbs = ((a : Int) - b).natAbs := by
  unfold signed
  split <;> omega

/-- The closest whole number is at most a half away. -/
theorem isHalves_round {x : Float} (hx : x.isFinite = true) :
    ∃ n : Int, IsHalves (round x) (2 * n) ∧ 2 * (signedUnits x - n * unitsInOne).natAbs ≤ unitsInOne := by
  obtain ⟨hfinite, hunits⟩ := signedUnits_round hx
  obtain ⟨w, hw⟩ : ∃ w, w = (units x + unitsInOne / 2) / unitsInOne := ⟨_, rfl⟩
  rw [← hw] at hunits
  refine ⟨signed (isNegative x) w, isHalves_two_mul_iff.2 ⟨hfinite, hunits.trans (signed_mul _ _ _)⟩, ?_⟩
  have hlow := Nat.div_mul_le_self (units x + unitsInOne / 2) unitsInOne
  have hhigh := Nat.lt_div_mul_add (a := units x + unitsInOne / 2) unitsInOne_pos
  rw [← hw] at hlow hhigh
  rw [← signed_mul, signedUnits, natAbs_signed_sub]
  omega

/-- What is left of a double without the closest whole number is no larger than the double itself. -/
theorem natAbs_rest_le {s n : Int} {one : Nat} (h : 2 * (s - n * one).natAbs ≤ one) :
    (s - n * one).natAbs ≤ s.natAbs := by
  rcases eq_or_ne n 0 with rfl | hne
  · simp
  · have hle : one ≤ (n * one).natAbs := by
      rw [natAbs_mul_natCast]
      exact Nat.le_mul_of_pos_left one (Int.natAbs_pos.2 hne)
    generalize n * (one : Int) = whole at h hle ⊢
    omega

/-- What is left of a double without the closest whole number takes no more bits than the double itself. -/
theorem exists_unitsOf_rest (x : Float) {n : Int} (h : 2 * (signedUnits x - n * unitsInOne).natAbs ≤ unitsInOne) :
    ∃ m < infiniteMagnitude, unitsOf m = (signedUnits x - n * unitsInOne).natAbs := by
  obtain ⟨k, hk⟩ : ∃ k, k = 1074 := ⟨1074, rfl⟩
  have hone := unitsInOne_pos
  have hgrid : signedUnits x =
      signed (isNegative x) (significand (magnitude x)) * (2 ^ scale (magnitude x) : Nat) := by
    rw [signedUnits, units, unitsOf_eq, signed_mul]
  have hsize : (signed (isNegative x) (significand (magnitude x))).natAbs < 2 ^ 53 := by
    have hlt := significand_lt (magnitude x)
    unfold signed
    split <;> omega
  generalize signed (isNegative x) (significand (magnitude x)) = g at hgrid hsize
  generalize scale (magnitude x) = e at hgrid
  rcases Nat.lt_or_ge e k with hlt | hge
  · -- the whole number is a multiple of the last bit of the double
    have hwhole : unitsInOne = 2 ^ (k - e) * 2 ^ e := by
      rw [← Nat.pow_add, Nat.sub_add_cancel hlt.le, unitsInOne_eq_two_pow hk]
    have hrest : (signedUnits x - n * unitsInOne).natAbs = (g - n * (2 ^ (k - e) : Nat)).natAbs * 2 ^ e := by
      rw [← natAbs_mul_natCast, hgrid, hwhole, sub_mul, Nat.cast_mul, mul_assoc]
    have hle := natAbs_rest_le h
    rw [hrest, hgrid, natAbs_mul_natCast] at hle
    rw [hrest]
    have hle' := Nat.le_of_mul_le_mul_right hle (Nat.two_pow_pos e)
    exact exists_unitsOf (hle'.trans hsize.le) (by omega)
  · -- both are whole, and nothing is left
    have hwhole : (2 : Nat) ^ e = 2 ^ (e - k) * unitsInOne := by
      rw [unitsInOne_eq_two_pow hk, ← Nat.pow_add, Nat.sub_add_cancel hge]
    have hrest : (signedUnits x - n * unitsInOne).natAbs = (g * (2 ^ (e - k) : Nat) - n).natAbs * unitsInOne := by
      rw [← natAbs_mul_natCast, hgrid, hwhole, sub_mul, Nat.cast_mul, mul_assoc]
    rw [hrest] at h ⊢
    have hzero : (g * (2 ^ (e - k) : Nat) - n).natAbs = 0 := by
      by_contra hne
      have hle := Nat.le_mul_of_pos_left unitsInOne (Nat.pos_of_ne_zero hne)
      omega
    rw [hzero, Nat.zero_mul]
    exact exists_unitsOf (g := 0) (e := 0) (by decide) (by decide)

/-- Taking the closest whole number from a double is exact. -/
theorem sub_round {x : Float} (hx : x.isFinite = true) :
    (x - round x).isFinite = true ∧ ∃ n : Int, IsHalves (round x) (2 * n) ∧
      toReal (x - round x) = toReal x - n ∧ |toReal x - n| ≤ 1 / 2 := by
  obtain ⟨n, hround, hclose⟩ := isHalves_round hx
  obtain ⟨y, hy, hunits, -, hsub⟩ := exists_neg hround.finite
  have hrest : signedUnits x + signedUnits y = signedUnits x - n * unitsInOne := by
    rw [hunits, (isHalves_two_mul_iff.1 hround).2, sub_eq_add_neg]
  obtain ⟨m, hm, hm'⟩ := exists_unitsOf_rest x hclose
  obtain ⟨hfinite, hexact⟩ := signedUnits_add hx hy hm (by rw [hrest, hm'])
  have hvalue : toReal (x + y) = toReal x - n := by
    rw [toReal, hexact, hrest, Int.cast_sub, sub_div, ← toReal, Int.cast_mul, Int.cast_natCast,
      mul_div_cancel_right₀ _ unitsInOne_cast_pos.ne']
  have hclose' : ((signedUnits x - n * unitsInOne).natAbs : ℝ) * 2 ≤ 1 * unitsInOne := by
    rw [one_mul, mul_comm]
    generalize (signedUnits x - n * unitsInOne).natAbs = rest at hclose
    exact_mod_cast hclose
  refine ⟨hsub x ▸ hfinite, n, hround, hsub x ▸ hvalue, ?_⟩
  rw [← hvalue, toReal, hexact, hrest, abs_div, abs_of_pos unitsInOne_cast_pos,
    div_le_div_iff₀ unitsInOne_cast_pos two_pos, ← Int.cast_abs, ← Nat.cast_natAbs]
  exact hclose'

end EvalCharts.Double
