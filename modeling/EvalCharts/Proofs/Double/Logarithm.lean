/-
Module: EvalCharts.Proofs.Double.Logarithm
Purpose: How accurate the decimal logarithm is. Each of its binary digits comes from one squaring that loses
  less than a unit, so the digits are those of the true logarithm but for the last of them, and rounding to
  a double loses far more than that.
Main exports: decade_bounds, factorLog, logDigits_succ, logDigits_bounds, fixedLog_error, fixedLog_le,
  log10_error, log10_le
-/
import EvalCharts.Proofs.Double.Value
import EvalCharts.Double.Logarithm

namespace EvalCharts.Double

/-! ### The decade of a number -/

theorem digitCount_bounds {n : Nat} (h : 0 < n) :
    ∃ k, digitCount n = k + 1 ∧ 10 ^ k ≤ n ∧ n < 10 ^ (k + 1) := by
  have hlow := Nat.pow_log_le_self 10 h.ne'
  have hhigh := Nat.lt_pow_succ_log_self (b := 10) (by decide) n
  exact ⟨Nat.log 10 n, length_toDigits hlow hhigh, hlow, hhigh⟩

/-- A number lies between the power of ten of its decade and the next one. -/
theorem decade_bounds {u : Nat} (hu : 0 < u) :
    unitsInOne * 10 ^ (decade u).toNat ≤ u * 10 ^ (-decade u).toNat ∧
      u * 10 ^ (-decade u).toNat < 10 * (unitsInOne * 10 ^ (decade u).toNat) := by
  have hone := unitsInOne_pos
  by_cases hlarge : unitsInOne ≤ u
  · obtain ⟨k, hcount, hlow, hhigh⟩ := digitCount_bounds (Nat.div_pos hlarge hone)
    have hdecade : decade u = k := by
      rw [decade, if_pos hlarge, hcount, Nat.cast_succ, add_sub_cancel_right]
    have hnat : (k : Int).toNat = k ∧ (-(k : Int)).toNat = 0 := by omega
    rw [Nat.le_div_iff_mul_le hone] at hlow
    rw [Nat.div_lt_iff_lt_mul hone, Nat.pow_succ] at hhigh
    rw [hdecade, hnat.1, hnat.2, Nat.pow_zero, Nat.mul_one]
    constructor <;> linarith
  · have hsmall : u ≤ unitsInOne - 1 := by omega
    obtain ⟨k, hcount, hlow, hhigh⟩ := digitCount_bounds (Nat.div_pos hsmall hu)
    have hdecade : decade u = -(k + 1 : Nat) := by
      rw [decade, if_neg hlarge, hcount]
    have hnat : (-((k + 1 : Nat) : Int)).toNat = 0 ∧ (- -((k + 1 : Nat) : Int)).toNat = k + 1 := by omega
    rw [Nat.le_div_iff_mul_le hu] at hlow
    rw [Nat.div_lt_iff_lt_mul hu] at hhigh
    rw [hdecade, hnat.1, hnat.2, Nat.pow_zero, Nat.mul_one]
    have hnext : 10 ^ (k + 1) = 10 * 10 ^ k := Nat.pow_succ'
    constructor
    · rw [Nat.mul_comm]
      omega
    · rw [hnext, Nat.mul_left_comm]
      have hcomm := Nat.mul_comm u (10 ^ k)
      omega

theorem ten_zpow (e : Int) : (10 : ℝ) ^ e = 10 ^ e.toNat / 10 ^ (-e).toNat := by
  obtain ⟨n, rfl | rfl⟩ := e.eq_nat_or_neg
  · simp
  · simp

theorem logb_ten_zpow (e : Int) : Real.logb 10 (10 ^ e) = e := by
  rw [← Real.rpow_intCast, Real.logb_rpow (by norm_num) (by norm_num)]

theorem logb_ten_pow (n : Nat) : Real.logb 10 (10 ^ n) = n := by
  rw [← zpow_natCast, logb_ten_zpow, Int.cast_natCast]

theorem logb_ten_mono {s t : ℝ} (hs : 0 < s) (h : s ≤ t) : Real.logb 10 s ≤ Real.logb 10 t :=
  Real.logb_le_logb_of_le (by norm_num) hs h

theorem two_lt_log_ten : 2.07 < Real.log 10 := by
  have hlog : 3 * Real.log 2 ≤ Real.log 10 := by
    rw [← Nat.cast_ofNat, ← Real.log_pow]
    exact Real.log_le_log (by norm_num) (by norm_num)
  linarith [Real.log_two_gt_d9]

/-! ### Logarithms of factors -/

/-- What a factor of one is written as. -/
def factorUnit : Nat :=
  2 ^ factorBits

theorem two_pow_le_factorUnit {k : Nat} (h : k ≤ 320) : 2 ^ k ≤ factorUnit :=
  Nat.pow_le_pow_right (by decide) h

theorem factorUnit_pos : 0 < factorUnit :=
  Nat.two_pow_pos _

/-- The decimal logarithm of a factor. -/
noncomputable def factorLog (factor : Nat) : ℝ :=
  Real.logb 10 (factor / factorUnit)

theorem factorLog_bounds {factor : Nat} (hlow : factorUnit ≤ factor) (hhigh : factor < 10 * factorUnit) :
    0 ≤ factorLog factor ∧ factorLog factor < 1 := by
  have hunit : (0 : ℝ) < factorUnit := Nat.cast_pos.2 factorUnit_pos
  have hlow' : (factorUnit : ℝ) ≤ factor := Nat.cast_le.2 hlow
  have hhigh' : (factor : ℝ) < 10 * factorUnit := by exact_mod_cast hhigh
  unfold factorLog
  constructor
  · exact Real.logb_nonneg (by norm_num) ((one_le_div hunit).2 hlow')
  · rw [Real.logb_lt_iff_lt_rpow (by norm_num) (div_pos (hunit.trans_le hlow') hunit), Real.rpow_one,
      div_lt_iff₀ hunit]
    exact hhigh'

/-- Cutting a factor to whole units makes its logarithm less by at most a unit. -/
theorem factorLog_floor {factor : Nat} {a : ℝ} (hfactor : factorUnit ≤ factor) (hle : factor ≤ a)
    (hlt : a < factor + 1) :
    factorLog factor ≤ Real.logb 10 (a / factorUnit) ∧
      Real.logb 10 (a / factorUnit) ≤ factorLog factor + 1 / factorUnit := by
  have hunit : (0 : ℝ) < factorUnit := Nat.cast_pos.2 factorUnit_pos
  have hfactor' : (factorUnit : ℝ) ≤ factor := Nat.cast_le.2 hfactor
  have hpos : (0 : ℝ) < factor := hunit.trans_le hfactor'
  have ha : 0 < a := hpos.trans_le hle
  unfold factorLog
  constructor
  · exact logb_ten_mono (div_pos hpos hunit) (div_le_div_of_nonneg_right hle hunit.le)
  · have hratio : Real.logb 10 (a / factorUnit) - Real.logb 10 (factor / factorUnit) =
        Real.log (a / factor) / Real.log 10 := by
      rw [← Real.logb_div (div_pos ha hunit).ne' (div_pos hpos hunit).ne',
        div_div_div_cancel_right₀ hunit.ne', Real.logb]
    have hlog : Real.log (a / factor) ≤ 1 / factorUnit := by
      calc Real.log (a / factor) ≤ a / factor - 1 := Real.log_le_sub_one_of_pos (div_pos ha hpos)
        _ = (a - factor) / factor := by rw [sub_div, div_self hpos.ne']
        _ ≤ 1 / factorUnit := div_le_div₀ zero_le_one (by linarith) hunit hfactor'
    have hten := two_lt_log_ten
    have hlast : Real.log (a / factor) / Real.log 10 ≤ 1 / factorUnit := by
      have hnonneg : (0 : ℝ) ≤ 1 / factorUnit := one_div_nonneg.2 hunit.le
      rw [div_le_iff₀ (by linarith)]
      nlinarith
    linarith

/-! ### The digits of a logarithm -/

/-- The square of a factor between one and ten is between one and a hundred, and cut to whole units. -/
theorem square_bounds {factor : Nat} (hlow : factorUnit ≤ factor) (hhigh : factor < 10 * factorUnit) :
    factorUnit ≤ factor * factor / factorUnit ∧ factor * factor / factorUnit < 100 * factorUnit ∧
      ((factor * factor / factorUnit : Nat) : ℝ) ≤ factor * factor / factorUnit ∧
      (factor * factor / factorUnit : ℝ) < (factor * factor / factorUnit : Nat) + 1 := by
  have hpos := factorUnit_pos
  refine ⟨(Nat.le_div_iff_mul_le hpos).2 (Nat.mul_le_mul hlow hlow), ?_, ?_, ?_⟩
  · rw [Nat.div_lt_iff_lt_mul hpos]
    calc factor * factor < 10 * factorUnit * (10 * factorUnit) := Nat.mul_lt_mul'' hhigh hhigh
      _ = 100 * factorUnit * factorUnit := by ring
  · rw [← Nat.cast_mul]
    exact Nat.cast_div_le
  · rw [div_lt_iff₀ (Nat.cast_pos.2 hpos)]
    exact_mod_cast Nat.lt_mul_of_div_lt (Nat.lt_succ_self _) hpos

/-- Squaring doubles the logarithm. -/
theorem logb_square {factor : Nat} (h : factorUnit ≤ factor) :
    Real.logb 10 (factor * factor / factorUnit / factorUnit) = 2 * factorLog factor := by
  have hunit : (0 : ℝ) < factorUnit := Nat.cast_pos.2 factorUnit_pos
  have hratio : (factor / factorUnit : ℝ) ≠ 0 := (div_pos (hunit.trans_le (Nat.cast_le.2 h)) hunit).ne'
  rw [div_div, mul_div_mul_comm, Real.logb_mul hratio hratio, factorLog, two_mul]

/-- Dividing by ten takes one off the logarithm. -/
theorem logb_square_div_ten {factor : Nat} (h : factorUnit ≤ factor) :
    Real.logb 10 (factor * factor / factorUnit / 10 / factorUnit) = 2 * factorLog factor - 1 := by
  have hunit : (0 : ℝ) < factorUnit := Nat.cast_pos.2 factorUnit_pos
  have hfactor : (0 : ℝ) < factor := hunit.trans_le (Nat.cast_le.2 h)
  rw [div_right_comm, Real.logb_div (by positivity) (by norm_num), logb_square h,
    Real.logb_self_eq_one (by norm_num)]

/-- A squaring finds one digit. It doubles the logarithm of the factor, less the digit and less a small
    loss, and leaves a factor between one and ten. -/
theorem logDigits_succ (steps : Nat) {factor : Nat} (digits : Nat) (hlow : factorUnit ≤ factor)
    (hhigh : factor < 10 * factorUnit) :
    ∃ digit next : Nat, logDigits (steps + 1) factor digits = logDigits steps next (2 * digits + digit) ∧
      factorUnit ≤ next ∧ next < 10 * factorUnit ∧
      digit + factorLog next ≤ 2 * factorLog factor ∧
      2 * factorLog factor ≤ digit + factorLog next + 1 / factorUnit := by
  have hstep : logDigits (steps + 1) factor digits =
      if 10 * factorUnit ≤ factor * factor / factorUnit then
        logDigits steps (factor * factor / factorUnit / 10) (2 * digits + 1)
      else logDigits steps (factor * factor / factorUnit) (2 * digits) := by
    rw [logDigits, factorUnit]
  obtain ⟨hsquareLow, hsquareHigh, hle, hlt⟩ := square_bounds hlow hhigh
  generalize factor * factor / factorUnit = square at hstep hsquareLow hsquareHigh hle hlt
  by_cases hten : 10 * factorUnit ≤ square
  · -- the square is cut a second time, with a remainder of at most nine
    have hdivision : (10 : ℝ) * (square / 10 : Nat) + (square % 10 : Nat) = square := by
      exact_mod_cast Nat.div_add_mod square 10
    have hremainder : ((square % 10 : Nat) : ℝ) + 1 ≤ 10 := by
      exact_mod_cast Nat.mod_lt square (show 0 < 10 by decide)
    have hnonneg : (0 : ℝ) ≤ (square % 10 : Nat) := Nat.cast_nonneg _
    have hfloor : factorUnit ≤ square / 10 := by omega
    obtain ⟨hupper, hlower⟩ := factorLog_floor hfloor
      (show ((square / 10 : Nat) : ℝ) ≤ factor * factor / factorUnit / 10 by linarith) (by linarith)
    rw [logb_square_div_ten hlow] at hupper hlower
    refine ⟨1, square / 10, by rw [hstep, if_pos hten], hfloor, by omega, ?_, ?_⟩ <;>
      rw [Nat.cast_one] <;> linarith
  · obtain ⟨hupper, hlower⟩ := factorLog_floor hsquareLow hle hlt
    rw [logb_square hlow] at hupper hlower
    refine ⟨0, square, by rw [hstep, if_neg hten, Nat.add_zero], hsquareLow, by omega, ?_, ?_⟩ <;>
      rw [Nat.cast_zero, zero_add]
    · exact hupper
    · exact hlower

/-- The digits of a factor's logarithm follow those found before. They are never too large, and too small by
    less than one of the last of them and what the squarings lose. -/
theorem logDigits_bounds (steps : Nat) {factor : Nat} (digits : Nat) (hlow : factorUnit ≤ factor)
    (hhigh : factor < 10 * factorUnit) :
    (logDigits steps factor digits : ℝ) ≤ 2 ^ steps * (digits + factorLog factor) ∧
      2 ^ steps * (digits + factorLog factor) ≤
        logDigits steps factor digits + 1 + (2 ^ steps - 1) / factorUnit := by
  induction steps generalizing factor digits with
  | zero =>
      obtain ⟨hnonneg, hlt⟩ := factorLog_bounds hlow hhigh
      simp only [logDigits, pow_zero, one_mul, sub_self, zero_div]
      constructor <;> linarith
  | succ steps ih =>
      obtain ⟨digit, next, hnext, hnextLow, hnextHigh, hupper, hlower⟩ :=
        logDigits_succ steps digits hlow hhigh
      obtain ⟨hle, hge⟩ := ih (2 * digits + digit) hnextLow hnextHigh
      have hpow : (0 : ℝ) < 2 ^ steps := by positivity
      rw [← hnext, Nat.cast_add, Nat.cast_mul, Nat.cast_ofNat] at hle hge
      have hupper' := mul_le_mul_of_nonneg_left hupper hpow.le
      have hlower' := mul_le_mul_of_nonneg_left hlower hpow.le
      have hloss : ((2 : ℝ) ^ (steps + 1) - 1) / factorUnit =
          (2 ^ steps - 1) / factorUnit + 2 ^ steps * (1 / factorUnit) := by ring
      rw [hloss, pow_succ]
      constructor <;> linarith

/-! ### The logarithm in steps -/

/-- The leading factor is the number over its power of ten, cut to whole units. -/
theorem leadingFactor_bounds {u : Nat} (hu : 0 < u) :
    factorUnit ≤ leadingFactor u ∧ leadingFactor u < 10 * factorUnit ∧
      (leadingFactor u : ℝ) ≤ (u / unitsInOne) / 10 ^ decade u * factorUnit ∧
      (u / unitsInOne) / 10 ^ decade u * factorUnit < (leadingFactor u : ℝ) + 1 := by
  obtain ⟨hlow, hhigh⟩ := decade_bounds hu
  have hone := unitsInOne_cast_pos
  have hexact : (u / unitsInOne : ℝ) / 10 ^ decade u * factorUnit =
      ((u * 10 ^ (-decade u).toNat * factorUnit : Nat) : ℝ) /
        (unitsInOne * 10 ^ (decade u).toNat : Nat) := by
    rw [ten_zpow]
    push_cast
    field_simp
  have hdefinition : leadingFactor u =
      u * 10 ^ (-decade u).toNat * factorUnit / (unitsInOne * 10 ^ (decade u).toNat) := by
    rw [leadingFactor, factorUnit]
  rw [hexact, hdefinition]
  have hdenominator : 0 < unitsInOne * 10 ^ (decade u).toNat :=
    Nat.mul_pos unitsInOne_pos (Nat.pow_pos (by decide))
  have hunit := factorUnit_pos
  generalize unitsInOne * 10 ^ (decade u).toNat = denominator at hlow hhigh hdenominator ⊢
  generalize u * 10 ^ (-decade u).toNat = numerator at hlow hhigh ⊢
  have hcast : (0 : ℝ) < denominator := Nat.cast_pos.2 hdenominator
  refine ⟨?_, ?_, Nat.cast_div_le, ?_⟩
  · rw [Nat.le_div_iff_mul_le hdenominator, Nat.mul_comm]
    exact Nat.mul_le_mul_right _ hlow
  · rw [Nat.div_lt_iff_lt_mul hdenominator]
    calc numerator * factorUnit < 10 * denominator * factorUnit := Nat.mul_lt_mul_of_pos_right hhigh hunit
      _ = 10 * factorUnit * denominator := by ring
  · rw [div_lt_iff₀ hcast]
    exact_mod_cast Nat.lt_mul_of_div_lt (Nat.lt_succ_self _) hdenominator

theorem one_le_of_decade {u : Nat} (hu : 0 < u) : 1 ≤ (u / unitsInOne : ℝ) / 10 ^ decade u := by
  obtain ⟨hlow, -, hle, -⟩ := leadingFactor_bounds hu
  have hunit : (0 : ℝ) < factorUnit := Nat.cast_pos.2 factorUnit_pos
  have hlow' : (factorUnit : ℝ) ≤ leadingFactor u := Nat.cast_le.2 hlow
  exact le_of_mul_le_mul_right (by linarith) hunit

/-- The logarithm of a number is its decade and, but for a small loss, that of its leading factor. -/
theorem logb_bounds {u : Nat} (hu : 0 < u) :
    decade u + factorLog (leadingFactor u) ≤ Real.logb 10 (u / unitsInOne) ∧
      Real.logb 10 (u / unitsInOne) ≤ decade u + factorLog (leadingFactor u) + 1 / factorUnit := by
  obtain ⟨hlow, -, hle, hlt⟩ := leadingFactor_bounds hu
  have hunit : (factorUnit : ℝ) ≠ 0 := (Nat.cast_pos.2 factorUnit_pos).ne'
  have hpos : (0 : ℝ) < u / unitsInOne := div_pos (Nat.cast_pos.2 hu) unitsInOne_cast_pos
  have hlog : Real.logb 10 ((u / unitsInOne : ℝ) / 10 ^ decade u) =
      Real.logb 10 (u / unitsInOne) - decade u := by
    rw [Real.logb_div hpos.ne' (zpow_ne_zero _ (by norm_num)), logb_ten_zpow]
  obtain ⟨hupper, hlower⟩ := factorLog_floor hlow hle hlt
  rw [mul_div_cancel_right₀ _ hunit, hlog] at hupper hlower
  constructor <;> linarith

theorem fixedLog_cases (u : Nat) :
    (leadingFactor u = factorUnit ∧ fixedLog u = decade u * 2 ^ (logBits + 1)) ∨
      (leadingFactor u ≠ factorUnit ∧ fixedLog u =
        decade u * 2 ^ (logBits + 1) + (2 * logDigits logBits (leadingFactor u) 0 + 1 : Nat)) := by
  unfold fixedLog factorUnit
  by_cases hwhole : leadingFactor u = 2 ^ factorBits
  · exact Or.inl ⟨hwhole, if_pos hwhole⟩
  · exact Or.inr ⟨hwhole, if_neg hwhole⟩

/-- The digits taken for a leading factor, as a bound on its logarithm from either side. -/
theorem factorLog_leadingFactor_bounds {u : Nat} (hu : 0 < u) :
    logDigits logBits (leadingFactor u) 0 / 2 ^ logBits ≤ factorLog (leadingFactor u) ∧
      factorLog (leadingFactor u) ≤ (logDigits logBits (leadingFactor u) 0 + 5 / 4) / 2 ^ logBits := by
  obtain ⟨hlow, hhigh, -⟩ := leadingFactor_bounds hu
  obtain ⟨hle, hge⟩ := logDigits_bounds logBits 0 hlow hhigh
  have hunit : (2 : ℝ) ^ (logBits + 2) ≤ factorUnit := by
    exact_mod_cast two_pow_le_factorUnit (k := logBits + 2) (by decide)
  have hpow : (0 : ℝ) < 2 ^ logBits := by positivity
  have hloss : ((2 : ℝ) ^ logBits - 1) / factorUnit ≤ 1 / 4 := by
    rw [div_le_div_iff₀ (Nat.cast_pos.2 factorUnit_pos) (by norm_num)]
    rw [pow_add] at hunit
    linarith
  rw [Nat.cast_zero, zero_add] at hle hge
  rw [div_le_iff₀ hpow, le_div_iff₀ hpow]
  constructor <;> linarith

/-- The logarithm in steps is at most two steps away from the true one. -/
theorem fixedLog_error {u : Nat} (hu : 0 < u) :
    |(fixedLog u : ℝ) / 2 ^ (logBits + 1) - Real.logb 10 (u / unitsInOne)| ≤ 1 / 2 ^ logBits := by
  obtain ⟨hupper, hlower⟩ := logb_bounds hu
  have hloss : (1 : ℝ) / factorUnit ≤ 1 / 2 ^ logBits / 4 := by
    rw [div_div, ← show (2 : ℝ) ^ 2 = 4 by norm_num, ← pow_add]
    exact one_div_le_one_div_of_le (by positivity) (by exact_mod_cast two_pow_le_factorUnit (by decide))
  have hstep : (0 : ℝ) < 1 / 2 ^ logBits := by positivity
  rcases fixedLog_cases u with ⟨hwhole, hfixed⟩ | ⟨-, hfixed⟩
  · have hzero : factorLog (leadingFactor u) = 0 := by
      rw [hwhole, factorLog, div_self (Nat.cast_pos.2 factorUnit_pos).ne', Real.logb_one]
    have hexact : (fixedLog u : ℝ) / 2 ^ (logBits + 1) = decade u := by
      rw [hfixed]
      push_cast
      exact mul_div_cancel_right₀ _ (by positivity)
    rw [hexact, abs_le]
    constructor <;> linarith
  · obtain ⟨hle, hge⟩ := factorLog_leadingFactor_bounds hu
    have hexact : (fixedLog u : ℝ) / 2 ^ (logBits + 1) =
        decade u + (logDigits logBits (leadingFactor u) 0 / 2 ^ logBits + 1 / 2 ^ logBits / 2) := by
      rw [hfixed]
      push_cast
      field_simp
      ring
    have hsplit : ((logDigits logBits (leadingFactor u) 0 : ℝ) + 5 / 4) / 2 ^ logBits =
        logDigits logBits (leadingFactor u) 0 / 2 ^ logBits + 5 / 4 * (1 / 2 ^ logBits) := by ring
    rw [hexact, abs_le]
    constructor <;> linarith

/-- The digits never add up to a whole. -/
theorem fixedLog_le_decade_succ {u : Nat} (hu : 0 < u) :
    fixedLog u ≤ (decade u + 1) * 2 ^ (logBits + 1) := by
  obtain ⟨hlow, hhigh, -⟩ := leadingFactor_bounds hu
  obtain ⟨-, hbelow⟩ := factorLog_bounds hlow hhigh
  obtain ⟨hdigits, -⟩ := factorLog_leadingFactor_bounds hu
  have hcount : logDigits logBits (leadingFactor u) 0 < 2 ^ logBits := by
    have hcast := hdigits.trans_lt hbelow
    rw [div_lt_one (by positivity)] at hcast
    exact_mod_cast hcast
  have hsteps : ((2 * logDigits logBits (leadingFactor u) 0 + 1 : Nat) : Int) ≤ 2 ^ (logBits + 1) := by
    exact_mod_cast (show 2 * logDigits logBits (leadingFactor u) 0 + 1 ≤ 2 ^ (logBits + 1) by
      rw [Nat.pow_succ]
      omega)
  rw [add_mul, one_mul]
  rcases fixedLog_cases u with ⟨-, hfixed⟩ | ⟨-, hfixed⟩ <;> rw [hfixed]
  · exact le_add_of_nonneg_right (by positivity)
  · exact Int.add_le_add_left hsteps _

/-- The logarithm of a number up to a power of ten is not above its exponent. -/
theorem fixedLog_le {u : Nat} {n : Int} (hu : 0 < u) (h : (u / unitsInOne : ℝ) ≤ 10 ^ n) :
    fixedLog u ≤ n * (2 ^ (logBits + 1) : Nat) := by
  obtain ⟨hlow, -, hle, -⟩ := leadingFactor_bounds hu
  have hdecade : (10 : ℝ) ^ decade u ≤ u / unitsInOne := by
    have hone := one_le_of_decade hu
    rwa [one_le_div (by positivity)] at hone
  rw [Nat.cast_pow, Nat.cast_ofNat]
  rcases lt_or_eq_of_le ((zpow_le_zpow_iff_right₀ (by norm_num)).1 (hdecade.trans h)) with hlt | heq
  · exact (fixedLog_le_decade_succ hu).trans (mul_le_mul_of_nonneg_right hlt (by positivity))
  · -- the number is the power of ten itself
    have hratio : (u / unitsInOne : ℝ) / 10 ^ decade u ≤ 1 := by
      rw [heq]
      exact div_le_one_of_le₀ h (by positivity)
    have hfactor : (leadingFactor u : ℝ) ≤ factorUnit :=
      hle.trans (mul_le_of_le_one_left (Nat.cast_nonneg _) hratio)
    rcases fixedLog_cases u with ⟨-, hfixed⟩ | ⟨hne, -⟩
    · rw [hfixed, heq]
    · exact absurd (le_antisymm (Nat.cast_le.1 hfactor) hlow) hne

/-! ### The rounded logarithm -/

theorem log10_of_pos {x : Float} (hfinite : x.isFinite = true) (h : 0.0 < x) :
    0 < units x ∧ toReal x = units x / unitsInOne ∧
      log10 x = ofRatio (fixedLog (units x)) (2 ^ (logBits + 1)) := by
  obtain ⟨-, hsign, hmagnitude⟩ := positive_of_pos h hfinite
  refine ⟨units_pos hmagnitude, toReal_eq_worth hsign, ?_⟩
  rw [log10, logarithm, isNaN_of_isFinite hfinite, if_neg Bool.false_ne_true, if_neg hmagnitude, hsign,
    if_neg Bool.false_ne_true, if_pos hfinite]

/-- Between two powers of ten there are all positive doubles. -/
theorem toReal_bounds {x : Float} (hfinite : x.isFinite = true) (h : 0.0 < x) {k : Nat} (hk : k = 1074) :
    (10 : ℝ) ^ (-(k : Int)) ≤ toReal x ∧ toReal x ≤ (10 : ℝ) ^ (k : Int) := by
  obtain ⟨hunits, hvalue, -⟩ := log10_of_pos hfinite h
  obtain ⟨l, hl⟩ : ∃ l, l = 1024 := ⟨1024, rfl⟩
  have hone := unitsInOne_cast_pos
  rw [hvalue, zpow_neg, zpow_natCast]
  constructor
  · have hle : unitsInOne ≤ units x * 10 ^ k := by
      rw [unitsInOne_eq_two_pow hk]
      calc 2 ^ k ≤ 10 ^ k := Nat.pow_le_pow_left (by decide) k
        _ ≤ units x * 10 ^ k := Nat.le_mul_of_pos_left _ hunits
    rw [inv_le_iff_one_le_mul₀ (by positivity), div_mul_eq_mul_div, one_le_div hone]
    exact_mod_cast hle
  · have hle : units x ≤ 10 ^ k * unitsInOne := by
      calc units x ≤ unitsOf infiniteMagnitude := unitsOf_mono (le_refl _) (magnitude_lt hfinite).le
        _ = 2 ^ l * unitsInOne := unitsOf_infinite hl
        _ ≤ 10 ^ k * unitsInOne := Nat.mul_le_mul_right _
          ((Nat.pow_le_pow_right (by decide) (by omega)).trans (Nat.pow_le_pow_left (by decide) k))
    rw [div_le_iff₀ hone]
    exact_mod_cast hle

/-- No finite double has a large logarithm. -/
theorem abs_logb_le {x : Float} (hfinite : x.isFinite = true) (h : 0.0 < x) :
    |Real.logb 10 (toReal x)| ≤ 1074 := by
  obtain ⟨k, hk⟩ : ∃ k, k = 1074 := ⟨1074, rfl⟩
  obtain ⟨hlow, hhigh⟩ := toReal_bounds hfinite h hk
  have hlow' := logb_ten_mono (zpow_pos (by norm_num) _) hlow
  have hhigh' := logb_ten_mono (toReal_pos hfinite h) hhigh
  have hbound : (k : ℝ) = 1074 := by
    rw [hk]
    norm_num
  rw [logb_ten_zpow] at hlow' hhigh'
  push_cast at hlow' hhigh'
  rw [abs_le]
  constructor <;> linarith

/-- The logarithm of a positive double comes from a very accurate one by one rounding. -/
theorem log10_round {x : Float} (hfinite : x.isFinite = true) (h : 0.0 < x) :
    (log10 x).isFinite = true ∧ ∃ exact : ℝ,
      |exact - Real.logb 10 (toReal x)| ≤ 1 / 2 ^ logBits ∧ |exact| ≤ 1075 ∧
      |toReal (log10 x) - exact| ≤ |exact| / 2 ^ 53 := by
  obtain ⟨hunits, hvalue, hlog⟩ := log10_of_pos hfinite h
  have hbound := abs_logb_le hfinite h
  have herror := fixedLog_error hunits
  rw [← hvalue, ← Nat.cast_ofNat, ← Nat.cast_pow] at herror
  rw [hlog]
  generalize fixedLog (units x) = p at herror ⊢
  have hsize : |(p : ℝ) / (2 ^ (logBits + 1) : Nat)| ≤ 1075 := by
    have hstep : (1 : ℝ) / 2 ^ logBits ≤ 1 := by
      rw [div_le_one (by positivity)]
      exact one_le_pow₀ (by norm_num)
    rw [abs_le] at hbound herror ⊢
    constructor <;> linarith
  have hlow : p ≠ 0 → 2 ^ 52 * 2 ^ (logBits + 1) ≤ p.natAbs * unitsInOne := fun hne => by
    rw [← Nat.pow_add]
    exact (two_pow_le_unitsInOne (by decide)).trans (Nat.le_mul_of_pos_left _ (Int.natAbs_pos.2 hne))
  have hhigh : p.natAbs ≤ 2 ^ 53 * 2 ^ (logBits + 1) := by
    have hcast : (p.natAbs : ℝ) ≤ (2 ^ 53 * 2 ^ (logBits + 1) : Nat) := by
      rw [abs_div, Nat.abs_cast, div_le_iff₀ (by positivity)] at hsize
      rw [Nat.cast_natAbs, Int.cast_abs, Nat.cast_mul]
      refine hsize.trans (mul_le_mul_of_nonneg_right ?_ (Nat.cast_nonneg _))
      norm_num
    exact Nat.cast_le.1 hcast
  obtain ⟨hfinite', hround⟩ := toReal_ofRatio_error (Nat.two_pow_pos _) hlow hhigh
  exact ⟨hfinite', _, herror, hsize, hround⟩

/-- The logarithm of a positive double is accurate to twelve places. -/
theorem log10_error {x : Float} (hfinite : x.isFinite = true) (h : 0.0 < x) :
    (log10 x).isFinite = true ∧ |toReal (log10 x) - Real.logb 10 (toReal x)| ≤ 1 / 2 ^ 42 := by
  obtain ⟨hresult, exact, herror, hsize, hround⟩ := log10_round hfinite h
  refine ⟨hresult, ?_⟩
  have hsteps : (1 : ℝ) / 2 ^ logBits ≤ 1 / 2 ^ 53 :=
    one_div_le_one_div_of_le (by positivity) (pow_le_pow_right₀ (by norm_num) (by decide))
  have hround' := hround.trans (div_le_div_of_nonneg_right hsize (by positivity))
  rw [abs_le] at herror hround' ⊢
  constructor <;> linarith

/-- The logarithm of a double up to a power of ten is rounded to at most its exponent. -/
theorem log10_le {x : Float} {n : Int} (hfinite : x.isFinite = true) (h : 0.0 < x)
    (hn : n.natAbs ≤ 2 ^ 53) (hle : toReal x ≤ 10 ^ n) : toReal (log10 x) ≤ n := by
  obtain ⟨hunits, hvalue, hlog⟩ := log10_of_pos hfinite h
  obtain ⟨hresult, -⟩ := log10_error hfinite h
  rw [hvalue] at hle
  rw [hlog] at hresult ⊢
  exact toReal_ofRatio_le (by decide) hn hresult (fixedLog_le hunits hle)

end EvalCharts.Double
