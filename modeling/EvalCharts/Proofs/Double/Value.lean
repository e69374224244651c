/-
Module: EvalCharts.Proofs.Double.Value
Purpose: The real numbers that doubles stand for. Doubles are ordered as their values are, rounding moves a
  value by a small part of itself, and rounding to a whole number does to values what its name says.
Main exports: worth, toReal, toReal_lt_iff, toReal_le_iff, worth_nearestMagnitude, toReal_add_error,
  toReal_ofRatio_error, toReal_ofRatio_le, le_toReal_ofRatio, signedUnits_floor, signedUnits_ceil,
  toInt_eq_clamp, toInt_of_signedUnits
-/
import EvalCharts.Proofs.Double.Margin
import EvalCharts.Proofs.Double.Parity
import EvalCharts.Proofs.Double.RoundTrip

namespace EvalCharts.Double

/-! ### Values -/

/-- The real number that a magnitude is worth. The one of the infinities counts as `2 ^ 1024`. -/
noncomputable def worth (m : Nat) : ℝ :=
  unitsOf m / unitsInOne

/-- The real number that a finite double stands for. -/
noncomputable def toReal (x : Float) : ℝ :=
  signedUnits x / unitsInOne

theorem unitsInOne_cast_pos : (0 : ℝ) < unitsInOne :=
  Nat.cast_pos.2 unitsInOne_pos

theorem two_pow_le_unitsInOne {j : Nat} (hj : j ≤ 1074) : 2 ^ j ≤ unitsInOne := by
  obtain ⟨k, hk⟩ : ∃ k, k = 1074 := ⟨1074, rfl⟩
  rw [unitsInOne_eq_two_pow hk]
  exact Nat.pow_le_pow_right (by decide) (by omega)

theorem worth_nonneg (m : Nat) : 0 ≤ worth m :=
  div_nonneg (Nat.cast_nonneg _) unitsInOne_cast_pos.le

theorem signedUnits_of_isNegative {x : Float} (h : isNegative x = false) : signedUnits x = units x := by
  rw [signedUnits, h, signed, if_neg Bool.false_ne_true]

theorem toReal_eq_worth {x : Float} (h : isNegative x = false) : toReal x = worth (magnitude x) := by
  rw [toReal, signedUnits_of_isNegative h, Int.cast_natCast]
  rfl

theorem toReal_eq_of_signedUnits {x : Float} {n : Int} (h : signedUnits x = n * unitsInOne) :
    toReal x = n := by
  rw [toReal, h, Int.cast_mul, Int.cast_natCast, mul_div_assoc, div_self unitsInOne_cast_pos.ne', mul_one]

theorem signedUnits_one : signedUnits 1.0 = (1 : Int) * unitsInOne := by
  have hlit : (1.0 : Float) = Float.ofNat 1 := by decide
  rw [hlit]
  exact (units_ofNat (by decide)).2

theorem toReal_ofNat {n : Nat} (h : n ≤ 2 ^ 53) : toReal (Float.ofNat n) = n := by
  rw [toReal_eq_of_signedUnits (n := n) (by exact_mod_cast (units_ofNat h).2), Int.cast_natCast]

theorem lt_iff_signedUnits {x y : Float} (hx : x.isFinite = true) (hy : y.isFinite = true) :
    x < y ↔ signedUnits x < signedUnits y := by
  refine ⟨fun h => ?_, lt_of_signedUnits_lt hx hy⟩
  by_contra hle
  have hmono := nearestRank_mono 1 (not_lt.1 hle)
  rw [← rank_eq_nearestRank hx, ← rank_eq_nearestRank hy] at hmono
  exact absurd (lt_iff.1 h).2.2 hmono.not_gt

/-- Finite doubles are ordered as their values are. -/
theorem toReal_lt_iff {x y : Float} (hx : x.isFinite = true) (hy : y.isFinite = true) :
    toReal x < toReal y ↔ x < y := by
  rw [lt_iff_signedUnits hx hy, toReal, toReal, div_lt_div_iff_of_pos_right unitsInOne_cast_pos, Int.cast_lt]

theorem toReal_le_iff {x y : Float} (hx : x.isFinite = true) (hy : y.isFinite = true) :
    toReal x ≤ toReal y ↔ x ≤ y := by
  rw [← not_lt, toReal_lt_iff hy hx]
  exact ⟨fun h => le_of_not_lt (isNaN_of_isFinite hy) (isNaN_of_isFinite hx) h,
    fun h hlt => absurd (lt_iff.1 hlt).2.2 (le_iff.1 h).2.2.not_gt⟩

theorem toReal_pos {x : Float} (hx : x.isFinite = true) (h : 0.0 < x) : 0 < toReal x :=
  div_pos (Int.cast_pos.2 ((pos_iff hx).1 h)) unitsInOne_cast_pos

/-! ### Rounding a quotient -/

/-- What overflows would have been rounded to at least what an infinity is worth. -/
theorem unitsOf_infinite_le {n d : Nat} (h : nearestMagnitude n d = infiniteMagnitude) :
    unitsOf infiniteMagnitude ≤ roundHalfEven n (d * 2 ^ quotientScale n d) * 2 ^ quotientScale n d := by
  have hlt := div_lt_of_quotientScale n d
  have hle := le_div_of_quotientScale (n := n) (d := d)
  have hlow := div_le_roundHalfEven n (d * 2 ^ quotientScale n d)
  have hhigh := roundHalfEven_le n (d * 2 ^ quotientScale n d)
  rw [nearestMagnitude_eq] at h
  generalize roundHalfEven n (d * 2 ^ quotientScale n d) = r at *
  generalize quotientScale n d = scale at *
  obtain ⟨k, hk⟩ : ∃ k, k = 2045 := ⟨2045, rfl⟩
  have hinfinite : infiniteMagnitude = (k + 1) * 2 ^ 52 + 2 ^ 52 := by
    subst hk
    rfl
  have hunits : unitsOf infiniteMagnitude = 2 ^ 52 * 2 ^ (k + 1) := by
    rw [hinfinite]
    exact unitsOf_carry (by decide) (Or.inr (le_refl _))
  rw [hinfinite] at h
  rw [hunits]
  rcases Nat.lt_or_ge k scale with hlarge | hsmall
  · exact Nat.mul_le_mul (by omega) (Nat.pow_le_pow_right (by decide) hlarge)
  · -- one scale lower only a carry reaches the infinity
    obtain ⟨hscale, hr⟩ : scale = k ∧ r = 2 ^ 53 := by omega
    rw [hscale, hr, Nat.pow_succ]
    omega

/-- Rounding a quotient of at least `2 ^ j` units moves it by at most one part in `2 ^ (j + 1)`, and less
    than that only where it overflows. -/
theorem unitsOf_nearestMagnitude_bounds {n d j : Nat} (hd : 0 < d) (hj : j ≤ 52) (h : 2 ^ j * d ≤ n) :
    2 ^ (j + 1) * (unitsOf (nearestMagnitude n d) * d) ≤ (2 ^ (j + 1) + 1) * n ∧
      (nearestMagnitude n d = infiniteMagnitude ∨
        2 ^ (j + 1) * n ≤ 2 ^ (j + 1) * (unitsOf (nearestMagnitude n d) * d) + n) := by
  have hstep : 0 < d * 2 ^ quotientScale n d := Nat.mul_pos hd (Nat.two_pow_pos _)
  have hsteps : 2 ^ j * (d * 2 ^ quotientScale n d) ≤ n := by
    by_cases hscale : quotientScale n d = 0
    · rwa [hscale, Nat.pow_zero, Nat.mul_one]
    · exact (Nat.mul_le_mul_right _ (Nat.pow_le_pow_right (by decide) hj)).trans (two_pow_mul_le hd hscale)
  have hle := Nat.mul_le_mul_left (2 ^ j) (roundHalfEven_mul_le n (d * 2 ^ quotientScale n d))
  have hge := Nat.mul_le_mul_left (2 ^ j) (le_roundHalfEven_mul n hstep)
  have hproduct : roundHalfEven n (d * 2 ^ quotientScale n d) * 2 ^ quotientScale n d * d =
      roundHalfEven n (d * 2 ^ quotientScale n d) * (d * 2 ^ quotientScale n d) := by ring
  rcases Nat.lt_or_eq_of_le (nearestMagnitude_le n d) with hfinite | hinfinite
  · rw [unitsOf_nearestQuotient hfinite, hproduct]
    generalize roundHalfEven n (d * 2 ^ quotientScale n d) * (d * 2 ^ quotientScale n d) = r at *
    rw [Nat.pow_succ]
    exact ⟨by linarith, Or.inr (by linarith)⟩
  · have hover := Nat.mul_le_mul_right d (unitsOf_infinite_le hinfinite)
    rw [hproduct] at hover
    refine ⟨?_, Or.inl hinfinite⟩
    rw [hinfinite, Nat.pow_succ]
    generalize roundHalfEven n (d * 2 ^ quotientScale n d) * (d * 2 ^ quotientScale n d) = r at *
    have hmul := Nat.mul_le_mul_left (2 ^ j) hover
    linarith

/-- Rounding moves the value of a quotient by at most one part in `2 ^ (j + 1)`. -/
theorem worth_nearestMagnitude {n d j : Nat} (hd : 0 < d) (hj : j ≤ 52) (h : 2 ^ j * d ≤ n) :
    worth (nearestMagnitude n d) ≤ n / (d * unitsInOne) * (1 + 1 / 2 ^ (j + 1)) ∧
      (nearestMagnitude n d = infiniteMagnitude ∨
        n / (d * unitsInOne) * (1 - 1 / 2 ^ (j + 1)) ≤ worth (nearestMagnitude n d)) := by
  obtain ⟨hle, hge⟩ := unitsOf_nearestMagnitude_bounds hd hj h
  have hdpos : (0 : ℝ) < d := Nat.cast_pos.2 hd
  have hone := unitsInOne_cast_pos
  have hpow : (0 : ℝ) < 2 ^ (j + 1) := by positivity
  unfold worth
  generalize unitsOf (nearestMagnitude n d) = r at hle hge ⊢
  generalize unitsInOne = one at hone ⊢
  have hle' : (2 : ℝ) ^ (j + 1) * (r * d) ≤ (2 ^ (j + 1) + 1) * n := by exact_mod_cast hle
  refine ⟨?_, hge.imp_right fun hge => ?_⟩
  · rw [div_mul_eq_mul_div, div_le_div_iff₀ hone (by positivity)]
    field_simp
    linarith
  · have hge' : (2 : ℝ) ^ (j + 1) * n ≤ 2 ^ (j + 1) * (r * d) + n := by exact_mod_cast hge
    rw [div_mul_eq_mul_div, div_le_div_iff₀ (by positivity) hone]
    field_simp
    linarith

theorem worth_infinite {k : Nat} (hk : k = 1024) : worth infiniteMagnitude = 2 ^ k := by
  have hone := unitsInOne_cast_pos
  rw [worth, unitsOf_infinite hk, Nat.cast_mul, Nat.cast_pow, Nat.cast_ofNat, mul_div_assoc,
    div_self hone.ne', mul_one]

theorem worth_mono {m m' : Nat} (hm' : m' ≤ infiniteMagnitude) (h : m ≤ m') : worth m ≤ worth m' :=
  div_le_div_of_nonneg_right (Nat.cast_le.2 (unitsOf_mono hm' h)) unitsInOne_cast_pos.le

/-- Above a double that is not negative, the next magnitude is the least one. -/
theorem worth_succ_le {x y : Float} (hsign : isNegative x = false) (hy : y.isFinite = true) (h : x < y) :
    worth (magnitude x + 1) ≤ toReal y := by
  obtain ⟨hnum, hnum', hrank⟩ := lt_iff.1 h
  rw [rank_eq hnum, rank_eq hnum', hsign, signed, if_neg Bool.false_ne_true] at hrank
  cases hsign' : isNegative y with
  | true =>
      rw [hsign', signed, if_pos rfl] at hrank
      omega
  | false =>
      rw [hsign', signed, if_neg Bool.false_ne_true] at hrank
      rw [toReal_eq_worth hsign']
      exact worth_mono (magnitude_lt hy).le (by omega)

/-! ### Sums -/

theorem toReal_add_error {x y : Float} (hx : x.isFinite = true) (hy : y.isFinite = true)
    (h : (x + y).isFinite = true) :
    |toReal (x + y) - (toReal x + toReal y)| ≤ |toReal x + toReal y| / 2 ^ 53 := by
  obtain ⟨-, herror⟩ := add_error hx hy h
  have hone := unitsInOne_cast_pos
  have herror' : (2 : ℝ) ^ 53 * |(signedUnits (x + y) : ℝ) - (signedUnits x + signedUnits y)| ≤
      |(signedUnits x : ℝ) + signedUnits y| := by
    have hcast : ((2 ^ 53 * (signedUnits (x + y) - (signedUnits x + signedUnits y)).natAbs : Nat) : ℝ) ≤
        ((signedUnits x + signedUnits y).natAbs : Nat) := Nat.cast_le.2 herror
    rw [Nat.cast_mul, Nat.cast_natAbs, Nat.cast_natAbs] at hcast
    push_cast at hcast
    linarith
  unfold toReal
  generalize (unitsInOne : ℝ) = one at hone ⊢
  rw [← add_div, ← sub_div, abs_div, abs_div, abs_of_pos hone, div_div, mul_comm one, ← div_div,
    div_le_div_iff_of_pos_right hone, le_div_iff₀ (by positivity), mul_comm]
  exact herror'

/-- A moderate sum is finite. -/
theorem isFinite_add_of_le {x y : Float} (hx : x.isFinite = true) (hy : y.isFinite = true)
    (h : |toReal x + toReal y| ≤ 2 ^ 52) : (x + y).isFinite = true := by
  apply isFinite_add_of_units hx hy
  have hone := unitsInOne_cast_pos
  unfold toReal at h
  rw [← add_div, abs_div, abs_of_pos hone, div_le_iff₀ hone] at h
  have hcast : (((signedUnits x + signedUnits y).natAbs : Nat) : ℝ) ≤ ((2 ^ 52 * unitsInOne : Nat) : ℝ) := by
    rw [Nat.cast_natAbs, Nat.cast_mul]
    push_cast
    linarith
  exact Nat.cast_le.1 hcast

/-! ### Quotients of whole numbers -/

theorem ofRatio_eq (numerator : Int) (denominator : Nat) :
    ofRatio numerator denominator =
      ofMagnitude (numerator < 0) (nearestMagnitude (numerator.natAbs * unitsInOne) denominator) := rfl

theorem natAbs_mul_natCast (s : Int) (c : Nat) : (s * c).natAbs = s.natAbs * c := by
  rw [Int.natAbs_mul, Int.natAbs_natCast]

theorem mul_natCast_neg_iff (s : Int) {c : Nat} (hc : 0 < c) : s * c < 0 ↔ s < 0 := by
  have hpos : (0 : Int) < c := Int.natCast_pos.2 hc
  refine ⟨fun h => ?_, fun h => mul_neg_of_neg_of_pos h hpos⟩
  by_contra hle
  exact absurd h (mul_nonneg (not_lt.1 hle) hpos.le).not_gt

/-- Rounding depends on the value of a quotient alone. -/
theorem nearestRank_mul_right (s : Int) (d : Nat) {c : Nat} (hc : 0 < c) :
    nearestRank (s * c) (d * c) = nearestRank s d := by
  simp only [nearestRank, natAbs_mul_natCast, nearestMagnitude_mul_right _ _ hc, mul_natCast_neg_iff s hc]

theorem rank_ofRatio (numerator : Int) (denominator : Nat) :
    rank (ofRatio numerator denominator) = nearestRank (numerator * unitsInOne) denominator := by
  rw [ofRatio_eq, rank_ofMagnitude _ (nearestMagnitude_le _ _)]
  simp only [nearestRank, natAbs_mul_natCast, mul_natCast_neg_iff _ unitsInOne_pos]

/-- A whole number of at most 53 bits is a double. -/
theorem signedUnits_whole {n : Int} (hn : n.natAbs ≤ 2 ^ 53) :
    (ofUnits false (n * unitsInOne)).isFinite = true ∧
      signedUnits (ofUnits false (n * unitsInOne)) = n * unitsInOne := by
  obtain ⟨m, hm, hunits⟩ := exists_unitsOf hn (e := 1074) (by decide)
  rw [← unitsInOne_eq_two_pow rfl] at hunits
  exact signedUnits_ofUnits_exact false hm (by rw [natAbs_mul_natCast, hunits])

/-- A division of whole numbers that comes out even is not rounded. -/
theorem nearestRank_mul_whole (n : Int) {q : Nat} (hq : 0 < q) :
    nearestRank (n * q * unitsInOne) q = rank (ofUnits false (n * unitsInOne)) := by
  have hwhole := nearestRank_mul_right (n * unitsInOne) 1 hq
  rwa [Nat.one_mul, mul_right_comm, ← rank_ofUnits false] at hwhole

/-- A quotient below a whole number is rounded to at most that number. -/
theorem toReal_ofRatio_le {p n : Int} {q : Nat} (hq : 0 < q) (hn : n.natAbs ≤ 2 ^ 53)
    (hfinite : (ofRatio p q).isFinite = true) (h : p ≤ n * q) : toReal (ofRatio p q) ≤ n := by
  obtain ⟨hfinite', hunits⟩ := signedUnits_whole hn
  have hmono := nearestRank_mono q (mul_le_mul_of_nonneg_right h (Int.natCast_nonneg unitsInOne))
  rw [nearestRank_mul_whole n hq, ← rank_ofRatio] at hmono
  rw [← toReal_eq_of_signedUnits hunits, toReal_le_iff hfinite hfinite']
  exact le_iff.2 ⟨isNaN_of_isFinite hfinite, isNaN_of_isFinite hfinite', hmono⟩

/-- A quotient above a whole number is rounded to at least that number. -/
theorem le_toReal_ofRatio {p n : Int} {q : Nat} (hq : 0 < q) (hn : n.natAbs ≤ 2 ^ 53)
    (hfinite : (ofRatio p q).isFinite = true) (h : n * q ≤ p) : n ≤ toReal (ofRatio p q) := by
  obtain ⟨hfinite', hunits⟩ := signedUnits_whole hn
  have hmono := nearestRank_mono q (mul_le_mul_of_nonneg_right h (Int.natCast_nonneg unitsInOne))
  rw [nearestRank_mul_whole n hq, ← rank_ofRatio] at hmono
  rw [← toReal_eq_of_signedUnits hunits, toReal_le_iff hfinite' hfinite]
  exact le_iff.2 ⟨isNaN_of_isFinite hfinite', isNaN_of_isFinite hfinite, hmono⟩

theorem toReal_ofMagnitude (negative : Bool) {m : Nat} (hm : m ≤ infiniteMagnitude) :
    toReal (ofMagnitude negative m) = if negative then -worth m else worth m := by
  unfold toReal signedUnits units
  rw [isNegative_ofMagnitude _ hm, magnitude_ofMagnitude _ hm, worth]
  cases negative with
  | false => rfl
  | true =>
      rw [signed, if_pos rfl, if_pos rfl, Int.cast_neg, Int.cast_natCast, neg_div]

theorem toReal_ofRatio_zero {q : Nat} (hq : 0 < q) :
    (ofRatio 0 q).isFinite = true ∧ toReal (ofRatio 0 q) = 0 := by
  have hzero : ofRatio 0 q = ofMagnitude false 0 := by
    rw [ofRatio_eq, Int.natAbs_zero, Nat.zero_mul, nearestMagnitude_zero hq]
    rfl
  rw [hzero]
  refine ⟨by decide, ?_⟩
  rw [toReal, signedUnits_eq_zero (by decide), Int.cast_zero, zero_div]

/-- A moderate quotient is moved by at most one part in `2 ^ 53`. -/
theorem toReal_ofRatio_error {p : Int} {q : Nat} (hq : 0 < q)
    (hlow : p ≠ 0 → 2 ^ 52 * q ≤ p.natAbs * unitsInOne) (hhigh : p.natAbs ≤ 2 ^ 53 * q) :
    (ofRatio p q).isFinite = true ∧ |toReal (ofRatio p q) - p / q| ≤ |(p : ℝ) / q| / 2 ^ 53 := by
  rcases eq_or_ne p 0 with rfl | hne
  · obtain ⟨hfinite, hzero⟩ := toReal_ofRatio_zero hq
    refine ⟨hfinite, ?_⟩
    rw [hzero, Int.cast_zero, zero_div, sub_zero, abs_zero, zero_div]
  have hfinite : nearestMagnitude (p.natAbs * unitsInOne) q < infiniteMagnitude := by
    refine lt_of_le_of_lt ?_ (nearestMagnitude_natCast_lt (n := 2 ^ 53) (by decide))
    apply nearestMagnitude_mono hq Nat.one_pos
    rw [Nat.mul_one, Nat.mul_right_comm]
    exact Nat.mul_le_mul_right _ hhigh
  have hqpos : (0 : ℝ) < q := Nat.cast_pos.2 hq
  have hone := unitsInOne_cast_pos
  obtain ⟨hle, hge⟩ := worth_nearestMagnitude hq (le_refl 52) (hlow hne)
  have hge := hge.resolve_left hfinite.ne
  rw [ofRatio_eq, toReal_ofMagnitude _ hfinite.le]
  generalize worth (nearestMagnitude (p.natAbs * unitsInOne) q) = w at hle hge ⊢
  refine ⟨isFinite_ofMagnitude _ hfinite, ?_⟩
  have hquotient : ((p.natAbs * unitsInOne : Nat) : ℝ) / (q * unitsInOne) = |(p : ℝ) / q| := by
    rw [Nat.cast_mul, mul_div_mul_right _ _ hone.ne', Nat.cast_natAbs, Int.cast_abs, abs_div,
      abs_of_pos hqpos]
  rw [hquotient] at hle hge
  have hnear : abs (w - |(p : ℝ) / q|) ≤ |(p : ℝ) / q| / 2 ^ 53 := by
    rw [abs_le]
    constructor <;> linarith
  by_cases hp : p < 0
  · have habs : |(p : ℝ) / q| = -(p / q) := abs_of_neg (div_neg_of_neg_of_pos (Int.cast_lt_zero.2 hp) hqpos)
    rw [habs] at hnear ⊢
    rw [decide_eq_true hp, if_pos rfl, ← abs_neg]
    convert hnear using 2
    ring
  · have habs : |(p : ℝ) / q| = p / q :=
      abs_of_nonneg (div_nonneg (Int.cast_nonneg (not_lt.1 hp)) hqpos.le)
    rw [habs] at hnear ⊢
    rwa [decide_eq_false hp, if_neg Bool.false_ne_true]

/-! ### Rounding to a whole number -/

/-- What a magnitude is worth leads back to it. -/
theorem magnitudeOf_unitsOf (m : Nat) : magnitudeOf (unitsOf m) = m := by
  have hlt := significand_lt m
  have hscale : (unitsOf m).log2 - 52 = scale m := by
    rw [unitsOf_eq]
    by_cases hzero : significand m = 0
    · rw [hzero, Nat.zero_mul, Nat.log2_zero]
      have hfit := scale_eq_zero_or_le m
      omega
    · have hlog := (Nat.log2_lt hzero).2 hlt
      rw [log2_mul_two_pow hzero]
      rcases scale_eq_zero_or_le m with hleast | hle
      · omega
      · have hlog' := (Nat.le_log2 hzero).2 hle
        omega
  rw [magnitudeOf, hscale, unitsOf_eq, Nat.mul_div_cancel _ (Nat.two_pow_pos _), scale_mul_add_significand]

/-- A finite double is whole, or it is less than `2 ^ 53` away from zero. -/
theorem dvd_units_or_lt (x : Float) : unitsInOne ∣ units x ∨ units x < 2 ^ 53 * unitsInOne := by
  obtain ⟨k, hk⟩ : ∃ k, k = 1074 := ⟨1074, rfl⟩
  rw [unitsInOne_eq_two_pow hk, units, unitsOf_eq]
  rcases Nat.lt_or_ge (scale (magnitude x)) k with hlt | hge
  · exact Or.inr (Nat.mul_lt_mul_of_lt_of_le (significand_lt _)
      (Nat.pow_le_pow_right (by decide) hlt.le) (Nat.two_pow_pos _))
  · exact Or.inl (Dvd.dvd.mul_left (Nat.pow_dvd_pow _ hge) _)

/-- Replacing the distance from zero by a whole one is exact. -/
theorem signedUnits_mapUnits {f : Nat → Nat} {x : Float} (hx : x.isFinite = true) {w : Nat}
    (hw : f (units x) = w * unitsInOne) (h : w * unitsInOne = units x ∨ w ≤ 2 ^ 53) :
    (mapUnits f x).isFinite = true ∧
      signedUnits (mapUnits f x) = signed (isNegative x) (w * unitsInOne) := by
  obtain ⟨m, hm, hunits⟩ : ∃ m < infiniteMagnitude, unitsOf m = w * unitsInOne := by
    rcases h with hsame | hsmall
    · exact ⟨magnitude x, magnitude_lt hx, hsame.symm⟩
    · obtain ⟨m, hm, hunits⟩ := exists_unitsOf hsmall (e := 1074) (by decide)
      exact ⟨m, hm, by rw [hunits, ← unitsInOne_eq_two_pow rfl]⟩
  rw [mapUnits, if_pos hx, hw, ← hunits, magnitudeOf_unitsOf]
  refine ⟨isFinite_ofMagnitude _ hm, ?_⟩
  rw [signedUnits, units, isNegative_ofMagnitude _ hm.le, magnitude_ofMagnitude _ hm.le]

theorem signedUnits_mapUnits_dropFraction {x : Float} (hx : x.isFinite = true) :
    (mapUnits dropFraction x).isFinite = true ∧
      signedUnits (mapUnits dropFraction x) = signed (isNegative x) (units x / unitsInOne * unitsInOne) := by
  have hone := unitsInOne_pos
  refine signedUnits_mapUnits hx rfl ?_
  rcases dvd_units_or_lt x with hdvd | hlt
  · exact Or.inl (Nat.div_mul_cancel hdvd)
  · exact Or.inr ((Nat.div_lt_iff_lt_mul hone).2 hlt).le

theorem signedUnits_mapUnits_fillFraction {x : Float} (hx : x.isFinite = true) :
    (mapUnits fillFraction x).isFinite = true ∧
      signedUnits (mapUnits fillFraction x) =
        signed (isNegative x) ((units x + (unitsInOne - 1)) / unitsInOne * unitsInOne) := by
  have hone := unitsInOne_pos
  refine signedUnits_mapUnits hx rfl ?_
  rcases dvd_units_or_lt x with ⟨w, hw⟩ | hlt
  · left
    rw [hw, Nat.mul_add_div hone, Nat.div_eq_of_lt (by omega), Nat.add_zero, Nat.mul_comm]
  · right
    rw [← Nat.lt_succ_iff, Nat.div_lt_iff_lt_mul hone, Nat.succ_mul]
    omega

/-- Dropping the fraction of a number of units rounds it down, and filling it up rounds it up. -/
theorem floor_ceil_units (u : Nat) :
    ⌊(u / unitsInOne : ℝ)⌋ = (u / unitsInOne : Nat) ∧
      ⌈(u / unitsInOne : ℝ)⌉ = ((u + (unitsInOne - 1)) / unitsInOne : Nat) := by
  have hone := unitsInOne_pos
  have hcast := unitsInOne_cast_pos
  have hlow := Nat.div_mul_le_self u unitsInOne
  have hhigh := Nat.lt_div_mul_add (a := u) hone
  have hlow' := Nat.div_mul_le_self (u + (unitsInOne - 1)) unitsInOne
  have hhigh' := Nat.lt_div_mul_add (a := u + (unitsInOne - 1)) hone
  have hfill : (u + (unitsInOne - 1)) / unitsInOne * unitsInOne < u + unitsInOne := by omega
  have hfill' : u ≤ (u + (unitsInOne - 1)) / unitsInOne * unitsInOne := by omega
  rw [Int.floor_eq_iff, Int.ceil_eq_iff, Int.cast_natCast, Int.cast_natCast, le_div_iff₀ hcast,
    div_lt_iff₀ hcast, lt_div_iff₀ hcast, div_le_iff₀ hcast, add_mul, sub_mul, one_mul, sub_lt_iff_lt_add]
  exact ⟨⟨by exact_mod_cast hlow, by exact_mod_cast hhigh⟩, by exact_mod_cast hfill,
    by exact_mod_cast hfill'⟩

theorem toReal_of_isNegative {x : Float} (h : isNegative x = true) :
    toReal x = -(units x / unitsInOne) := by
  rw [toReal, signedUnits, h, signed, if_pos rfl, Int.cast_neg, Int.cast_natCast, neg_div]

/-- Rounding a double down rounds its value down. -/
theorem signedUnits_floor {x : Float} (hx : x.isFinite = true) :
    (floor x).isFinite = true ∧ signedUnits (floor x) = ⌊toReal x⌋ * unitsInOne := by
  obtain ⟨hfloor, hceil⟩ := floor_ceil_units (units x)
  unfold floor
  cases hsign : isNegative x with
  | false =>
      obtain ⟨hfinite, hunits⟩ := signedUnits_mapUnits_dropFraction hx
      rw [hsign, signed_mul, signed, if_neg Bool.false_ne_true, ← hfloor] at hunits
      have hvalue : toReal x = units x / unitsInOne := toReal_eq_worth hsign
      rw [if_neg Bool.false_ne_true, hvalue]
      exact ⟨hfinite, hunits⟩
  | true =>
      obtain ⟨hfinite, hunits⟩ := signedUnits_mapUnits_fillFraction hx
      rw [hsign, signed_mul, signed, if_pos rfl, ← hceil] at hunits
      rw [if_pos rfl, toReal_of_isNegative hsign, Int.floor_neg]
      exact ⟨hfinite, hunits⟩

/-- Rounding a double up rounds its value up. -/
theorem signedUnits_ceil {x : Float} (hx : x.isFinite = true) :
    (ceil x).isFinite = true ∧ signedUnits (ceil x) = ⌈toReal x⌉ * unitsInOne := by
  obtain ⟨hfloor, hceil⟩ := floor_ceil_units (units x)
  unfold ceil
  cases hsign : isNegative x with
  | false =>
      obtain ⟨hfinite, hunits⟩ := signedUnits_mapUnits_fillFraction hx
      rw [hsign, signed_mul, signed, if_neg Bool.false_ne_true, ← hceil] at hunits
      have hvalue : toReal x = units x / unitsInOne := toReal_eq_worth hsign
      rw [if_neg Bool.false_ne_true, hvalue]
      exact ⟨hfinite, hunits⟩
  | true =>
      obtain ⟨hfinite, hunits⟩ := signedUnits_mapUnits_dropFraction hx
      rw [hsign, signed_mul, signed, if_pos rfl, ← hfloor] at hunits
      rw [if_pos rfl, toReal_of_isNegative hsign, Int.ceil_neg]
      exact ⟨hfinite, hunits⟩

/-- A whole double is turned into the integer that it is worth, as far as the bounds allow. -/
theorem toInt_eq_clamp {x : Float} (hx : x.isFinite = true) {n : Int} (h : signedUnits x = n * unitsInOne)
    (least greatest : Int) : toInt least greatest x = max least (min greatest n) := by
  have hone := unitsInOne_pos
  have hwhole : units x / unitsInOne = n.natAbs := by
    rw [← natAbs_signedUnits, h, natAbs_mul_natCast, Nat.mul_div_cancel _ hone]
  have hsigned : signedUnits x = signed (isNegative x) n.natAbs * unitsInOne := by
    rw [← signed_mul, ← natAbs_mul_natCast, ← h, natAbs_signedUnits]
    rfl
  have hn : signed (isNegative x) n.natAbs = n :=
    Int.eq_of_mul_eq_mul_right (Int.natCast_pos.2 hone).ne' (hsigned.symm.trans h)
  rw [toInt, isNaN_of_isFinite hx, if_neg Bool.false_ne_true, if_pos hx, hwhole]
  unfold signed at hn
  simp only [hn]

/-- A whole double between the bounds is turned into the integer that it is worth. -/
theorem toInt_of_signedUnits {x : Float} (hx : x.isFinite = true) {n least greatest : Int}
    (h : signedUnits x = n * unitsInOne) (hlow : least ≤ n) (hhigh : n ≤ greatest) :
    toInt least greatest x = n := by
  rw [toInt_eq_clamp hx h]
  omega

end EvalCharts.Double
