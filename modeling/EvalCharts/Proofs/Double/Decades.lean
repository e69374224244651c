/-
Module: EvalCharts.Proofs.Double.Decades
Purpose: Powers of ten beside the logarithms of doubles. A logarithm that is rounded down after a small step
  down leads to a power below the number. One that is rounded up leads to a power that can be short of the
  number by a tiny part.
Main exports: mul_le_of_logb, le_mul_of_logb, powerOfTen_lt, log10_sub_nudge, le_powerOfTen_or_near
-/
import EvalCharts.Proofs.Double.Logarithm
import EvalCharts.Proofs.Double.Power

namespace EvalCharts.Double

/-! ### From logarithms to numbers -/

theorem mul_le_of_logb {t δ : ℝ} {e : Int} (ht : 0 < t) (hδ : 0 ≤ δ) (h : e + δ ≤ Real.logb 10 t) :
    10 ^ e * (1 + δ) ≤ t := by
  have hgrowth : 1 + δ ≤ (10 : ℝ) ^ δ := by
    rw [Real.rpow_def_of_pos (by norm_num)]
    have hlog := mul_le_mul_of_nonneg_right two_lt_log_ten.le hδ
    linarith [Real.add_one_le_exp (Real.log 10 * δ)]
  rw [Real.le_logb_iff_rpow_le (by norm_num) ht, Real.rpow_add (by norm_num), Real.rpow_intCast] at h
  exact (mul_le_mul_of_nonneg_left hgrowth (by positivity)).trans h

theorem le_mul_of_logb {t δ : ℝ} {e : Int} (ht : 0 < t) (hδ : 0 ≤ δ) (hone : δ ≤ 1)
    (h : Real.logb 10 t ≤ e + δ) : t ≤ 10 ^ e * (1 + 9 * δ) := by
  have hgrowth : (10 : ℝ) ^ δ ≤ 1 + 9 * δ := by
    have hbernoulli := rpow_one_add_le_one_add_mul_self (s := 9) (by norm_num) hδ hone
    norm_num at hbernoulli
    linarith
  rw [Real.logb_le_iff_le_rpow (by norm_num) ht, Real.rpow_add (by norm_num), Real.rpow_intCast] at h
  exact h.trans (mul_le_mul_of_nonneg_left hgrowth (by positivity))

/-- The largest double has less than 310 digits in front of the point. -/
theorem toReal_lt_ten_pow {x : Float} {n : Nat} (hx : x.isFinite = true) (h : 0.0 < x) (hn : n = 308) :
    toReal x < 10 ^ (n + 1) := by
  obtain ⟨k, hk⟩ : ∃ k, k = 1024 := ⟨1024, rfl⟩
  have hbound : (2 : ℝ) ^ k * 2 ^ 44 + 10 ^ (n + 1) < 10 ^ (n + 1) * 2 ^ 44 := by
    exact_mod_cast (ten_pow_bounds hk hn).2
  have hle : toReal x ≤ 2 ^ k := by
    rw [(log10_of_pos hx h).2.1, ← worth_infinite hk]
    exact worth_mono (le_refl _) (magnitude_lt hx).le
  have hpos : (0 : ℝ) < 10 ^ (n + 1) := by positivity
  linarith

theorem exponent_le {x : Float} {e : Int} (hx : x.isFinite = true) (h : 0.0 < x)
    (he : (10 : ℝ) ^ e ≤ toReal x) : e ≤ 308 := by
  obtain ⟨n, hn⟩ : ∃ n, n = 308 := ⟨308, rfl⟩
  have hlt := he.trans_lt (toReal_lt_ten_pow hx h hn)
  rw [← zpow_natCast] at hlt
  have := (zpow_lt_zpow_iff_right₀ (by norm_num)).1 hlt
  omega

/-! ### Powers below a number -/

/-- A power of ten with an exponent clearly below the logarithm of a double is below the double. -/
theorem powerOfTen_lt {x : Float} {e : Int} (hx : x.isFinite = true) (h : 0.0 < x)
    (he : e + 1 / 2 ^ 31 ≤ Real.logb 10 (toReal x)) : powerOfTen e < x := by
  have hpow : (0 : ℝ) < 10 ^ e := by positivity
  have hmargin := mul_le_of_logb (toReal_pos hx h) (by norm_num) he
  rcases lt_or_ge e (-308) with hsmall | hlarge
  · rw [powerOfTen_of_lt hsmall]
    exact h
  · have hhigh : e ≤ 308 := exponent_le hx h (by linarith)
    obtain ⟨hfinite, herror⟩ := powerOfTen_error hlarge hhigh
    rw [← toReal_lt_iff hfinite hx]
    rw [abs_le] at herror
    linarith

/-- A billionth lies between two powers of two. -/
theorem toReal_nudge : -(1 / 2 ^ 29) ≤ toReal (-1e-9) ∧ toReal (-1e-9) ≤ -(1 / 2 ^ 30) := by
  have hbounds : unitsInOne ≤ units (-1e-9) * 2 ^ 30 ∧ units (-1e-9) * 2 ^ 29 ≤ unitsInOne := by
    decide +kernel
  have hone := unitsInOne_cast_pos
  have hvalue : toReal (-1e-9) = -(units (-1e-9) / unitsInOne) := toReal_of_isNegative (by decide)
  rw [hvalue, neg_le_neg_iff, neg_le_neg_iff]
  generalize units (-1e-9) = u at hbounds
  generalize unitsInOne = one at hbounds hone
  rw [div_le_div_iff₀ hone (by norm_num), div_le_div_iff₀ (by norm_num) hone, one_mul]
  exact ⟨by exact_mod_cast hbounds.2, by exact_mod_cast hbounds.1⟩

/-- A billionth is taken off a logarithm almost exactly. -/
theorem log10_sub_nudge {x : Float} (hx : x.isFinite = true) (h : 0.0 < x) :
    (log10 x - 1e-9).isFinite = true ∧ toReal (log10 x) - 1 / 2 ^ 28 ≤ toReal (log10 x - 1e-9) ∧
      toReal (log10 x - 1e-9) ≤ toReal (log10 x) - 1 / 2 ^ 30 + 1 / 2 ^ 42 := by
  obtain ⟨hfinite, herror⟩ := log10_error hx h
  have hbound := abs_logb_le hx h
  have hsub : log10 x - 1e-9 = log10 x + -1e-9 := sub_eq_add (by decide) (by decide) _
  have hnudge := toReal_nudge
  have hsize : |toReal (log10 x) + toReal (-1e-9)| ≤ 1076 := by
    rw [abs_le] at herror hbound ⊢
    constructor <;> linarith
  have hsum := isFinite_add_of_le hfinite (y := -1e-9) (by decide) (hsize.trans (by norm_num))
  have hround := (toReal_add_error hfinite (by decide) hsum).trans
    (div_le_div_of_nonneg_right hsize (by norm_num))
  rw [hsub]
  rw [abs_le] at hround
  exact ⟨hsum, by linarith, by linarith⟩

/-! ### Powers above a number -/

/-- A power of ten whose exponent is almost the logarithm of a double reaches the double, or falls short of
    it by a tiny part. -/
theorem le_powerOfTen_or_near {x : Float} {n : Int} (hx : x.isFinite = true) (h : 0.0 < x)
    (hlow : -308 ≤ n) (hn : Real.logb 10 (toReal x) ≤ n + 1 / 2 ^ 42) :
    x ≤ powerOfTen n ∨ |toReal x - 10 ^ n| ≤ 10 ^ n / 10 ^ 11 := by
  have hpow : (0 : ℝ) < 10 ^ n := by positivity
  have hle := le_mul_of_logb (toReal_pos hx h) (by norm_num) (by norm_num) hn
  rcases le_or_gt n 308 with hhigh | hhigh
  · obtain ⟨hfinite, herror⟩ := powerOfTen_error hlow hhigh
    rw [← toReal_le_iff hx hfinite, or_iff_not_imp_left]
    intro hbeyond
    rw [abs_le] at herror ⊢
    constructor <;> linarith
  · left
    rw [powerOfTen_of_gt hhigh]
    have hrank := rank_of_isFinite hx
    refine le_of_rank_le (isNaN_of_isFinite hx) (by decide) ?_
    rw [rank_ofMagnitude _ (le_refl _), signed, if_neg Bool.false_ne_true]
    exact hrank.2.le

/-- The double that follows a small whole number is farther away from it than a rounded logarithm is from
    the true one. -/
theorem worth_succ_ofNat {n : Nat} (hpos : 0 < n) (hn : n ≤ 22) :
    (n : ℝ) + (2 * n + 2) / 2 ^ 54 ≤ worth (magnitude (Float.ofNat n) + 1) := by
  have hnext : ∀ n < 23, 0 < n →
      (2 ^ 54 * n + (2 * n + 2)) * unitsInOne ≤ 2 ^ 54 * unitsOf (magnitude (Float.ofNat n) + 1) := by
    decide +kernel
  have hone := unitsInOne_cast_pos
  have hunits := hnext n (by omega) hpos
  unfold worth
  generalize unitsOf (magnitude (Float.ofNat n) + 1) = next at hunits
  generalize unitsInOne = one at hone hunits
  have hcast : ((2 : ℝ) ^ 54 * n + (2 * n + 2)) * one ≤ 2 ^ 54 * next := by exact_mod_cast hunits
  rw [le_div_iff₀ hone]
  linarith

/-- Just above a small power of ten the rounded logarithm is its exponent. -/
theorem log10_le_of_just_above {x : Float} {n : Nat} (hx : x.isFinite = true) (h : 0.0 < x) (hpos : 0 < n)
    (hn : n ≤ 22) (hle : toReal x ≤ 10 ^ n * (1 + 1 / 2 ^ 52)) : toReal (log10 x) ≤ n := by
  obtain ⟨hfinite, exact, herror, -, hround⟩ := log10_round hx h
  have hlogb : Real.logb 10 (toReal x) ≤ n + 1 / 2 ^ 52 / 2.07 := by
    have hmono := logb_ten_mono (toReal_pos hx h) hle
    have hlog := Real.log_le_sub_one_of_pos (x := 1 + 1 / 2 ^ 52) (by norm_num)
    have hgrowth : Real.logb 10 (1 + 1 / 2 ^ 52) ≤ 1 / 2 ^ 52 / 2.07 :=
      div_le_div₀ (by norm_num) (by linarith) (by norm_num) two_lt_log_ten.le
    rw [Real.logb_mul (by positivity) (by norm_num), logb_ten_pow] at hmono
    linarith
  have hexact : exact ≤ n + 1.95 / 2 ^ 54 := by
    have hstep : (1 : ℝ) / 2 ^ logBits ≤ 1 / 2 ^ 64 :=
      one_div_le_one_div_of_le (by positivity) (pow_le_pow_right₀ (by norm_num) (by decide))
    rw [abs_le] at herror
    linarith
  by_contra hbeyond
  have hwhole : n ≤ 2 ^ 53 := hn.trans (by decide)
  have hnat := positive_ofNat hpos.ne' (hwhole.trans (by decide))
  rw [not_le, ← toReal_ofNat hwhole, toReal_lt_iff hnat.finite hfinite] at hbeyond
  -- the next double is out of reach
  have hnext := (worth_succ_ofNat hpos hn).trans (worth_succ_le hnat.sign hfinite hbeyond)
  have hcast : (n : ℝ) ≤ 22 := by exact_mod_cast hn
  rw [abs_le] at hround
  rcases abs_cases exact with ⟨habs, -⟩ | ⟨habs, hnegative⟩ <;> rw [habs] at hround
  · linarith
  · have hnonneg : (0 : ℝ) ≤ n := Nat.cast_nonneg n
    linarith

end EvalCharts.Double
