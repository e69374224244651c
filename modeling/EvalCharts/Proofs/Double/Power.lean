/-
Module: EvalCharts.Proofs.Double.Power
Purpose: How accurate the powers of ten are that repeated squaring yields. Every product is rounded, and a
  power takes fewer rounded products than its exponent says. A power beyond the largest double is an
  infinity, and its reciprocal is zero.
Main exports: Near, near_mul, near_squareAndMultiply, powerOfTen_error, powerOfTen_of_lt, powerOfTen_of_gt,
  isFinite_powerOfTen_iff, powerOfTen_pos_iff, powerOfTen_lt_powerOfTen, toReal_powerOfTen_exact
-/
import EvalCharts.Proofs.Double.Value
import EvalCharts.Double.Power

namespace EvalCharts.Double

/-! ### Products of large doubles -/

/-- The part by which one rounding moves a value at most. -/
noncomputable def roundoff : ℝ := 1 / 2 ^ 53

theorem roundoff_bounds : 0 < roundoff ∧ roundoff < 1 := by
  unfold roundoff
  norm_num

/-- The double comes from a number by at most so many roundings, and is not below one. An infinity stands
    for everything that is too large. -/
structure Near (number : ℝ) (roundings : Nat) (x : Float) : Prop where
  isNaN : x.isNaN = false
  sign : isNegative x = false
  one_le : 1 ≤ worth (magnitude x)
  le : worth (magnitude x) ≤ number * (1 + roundoff) ^ roundings
  ge : magnitude x = infiniteMagnitude ∨ number * (1 - roundoff) ^ roundings ≤ worth (magnitude x)

namespace Near

variable {number number' : ℝ} {r r' : Nat} {x y : Float}

theorem magnitude_ne_zero (h : Near number r x) : magnitude x ≠ 0 := by
  intro hzero
  have hone := h.one_le
  rw [worth, ← units, units_eq_zero hzero, Nat.cast_zero, zero_div] at hone
  exact absurd hone zero_lt_one.not_ge

theorem one_le_number (h : Near number r x) : 1 ≤ number * (1 + roundoff) ^ r :=
  h.one_le.trans h.le

theorem number_pos (h : Near number r x) : 0 < number := by
  obtain ⟨hpos, -⟩ := roundoff_bounds
  exact pos_of_mul_pos_left (lt_of_lt_of_le one_pos h.one_le_number) (by positivity)

theorem unitsInOne_le (h : Near number r x) : unitsInOne ≤ units x := by
  have hone := h.one_le
  rwa [worth, one_le_div unitsInOne_cast_pos, Nat.cast_le] at hone

/-- An infinity that comes from a number also comes from a larger one by more roundings. -/
theorem of_infinite (h : Near number r x) (hinfinite : x.isFinite = false)
    (h' : 1 ≤ number' * (1 + roundoff) ^ r') : Near (number * number') (r + r' + 1) x := by
  obtain ⟨hpos, -⟩ := roundoff_bounds
  refine ⟨h.isNaN, h.sign, h.one_le, ?_, Or.inl (magnitude_of_infinite h.isNaN hinfinite)⟩
  have hnumber := h.one_le_number
  calc worth (magnitude x) ≤ number * (1 + roundoff) ^ r * 1 * 1 := by
        rw [mul_one, mul_one]
        exact h.le
    _ ≤ number * (1 + roundoff) ^ r * (number' * (1 + roundoff) ^ r') * (1 + roundoff) := by
        gcongr
        linarith
    _ = number * number' * (1 + roundoff) ^ (r + r' + 1) := by ring

end Near

/-- An infinite factor makes the product infinite. -/
theorem infinite_mul {x y : Float} (hx : x.isNaN = false) (hinfinite : x.isFinite = false)
    (hsign : isNegative x = false) (hy : y.isNaN = false) (hsign' : isNegative y = false)
    (hne : magnitude y ≠ 0) : x * y = x ∧ y * x = x := by
  have hself := ofModel_pack_unpack hx
  rw [mul_eq_pack, mul_eq_pack]
  rw [unpack_of_infinite hx hinfinite, hsign] at hself ⊢
  cases hfinite : y.isFinite with
  | true =>
      rcases finite_cases hfinite with ⟨hzero, _⟩ | ⟨_, _, _, _, _, huy⟩
      · exact absurd hzero hne
      · rw [huy, hsign']
        exact ⟨hself, hself⟩
  | false =>
      rw [unpack_of_infinite hy hfinite, hsign']
      exact ⟨hself, hself⟩

/-- A quotient of at least one is not rounded below one. -/
theorem one_le_worth_nearestMagnitude {n d : Nat} (hd : 0 < d) (h : unitsInOne * d ≤ n) :
    1 ≤ worth (nearestMagnitude n d) := by
  have hone := nearestMagnitude_unitsOf (m := 1022 * 2 ^ 52 + 2 ^ 52) (by decide) hd
  have hmono := nearestMagnitude_mono_left d h
  rw [unitsOf_one] at hone
  rw [hone] at hmono
  calc (1 : ℝ) = worth (1022 * 2 ^ 52 + 2 ^ 52) := by
        rw [worth, unitsOf_one, div_self unitsInOne_cast_pos.ne']
    _ ≤ worth (nearestMagnitude n d) := worth_mono (nearestMagnitude_le _ _) hmono

theorem near_mul_of_isFinite {number number' : ℝ} {r r' : Nat} {x y : Float} (hx : Near number r x)
    (hy : Near number' r' y) (hfinite : x.isFinite = true) (hfinite' : y.isFinite = true) :
    Near (number * number') (r + r' + 1) (x * y) := by
  obtain ⟨hpos, hlt⟩ := roundoff_bounds
  have hnumber := hx.number_pos
  have hnumber' := hy.number_pos
  have hlarge : unitsInOne * unitsInOne ≤ units x * units y :=
    Nat.mul_le_mul hx.unitsInOne_le hy.unitsInOne_le
  have hnearest := nearestMagnitude_le (units x * units y) unitsInOne
  obtain ⟨hhigh, hlow⟩ := worth_nearestMagnitude unitsInOne_pos (le_refl 52)
    ((Nat.mul_le_mul_right _ (two_pow_le_unitsInOne (by decide))).trans hlarge)
  have hexact : ((units x * units y : Nat) : ℝ) / (unitsInOne * unitsInOne) =
      worth (magnitude x) * worth (magnitude y) := by
    rw [Nat.cast_mul, mul_div_mul_comm]
    rfl
  have hroundoff : (1 : ℝ) / 2 ^ (52 + 1) = roundoff := rfl
  rw [hexact, hroundoff] at hhigh hlow
  rw [mul_eq hfinite hfinite', hx.sign, hy.sign]
  refine ⟨isNaN_ofMagnitude _ hnearest, isNegative_ofMagnitude _ hnearest, ?_, ?_, ?_⟩ <;>
    rw [magnitude_ofMagnitude _ hnearest]
  · exact one_le_worth_nearestMagnitude unitsInOne_pos hlarge
  · have hle := hx.le
    have hle' := hy.le
    have hone' := worth_nonneg (magnitude y)
    calc worth (nearestMagnitude (units x * units y) unitsInOne)
        ≤ worth (magnitude x) * worth (magnitude y) * (1 + roundoff) := hhigh
      _ ≤ number * (1 + roundoff) ^ r * (number' * (1 + roundoff) ^ r') * (1 + roundoff) := by gcongr
      _ = number * number' * (1 + roundoff) ^ (r + r' + 1) := by ring
  · refine hlow.imp_right fun hlow => ?_
    have hge := hx.ge.resolve_left (magnitude_lt hfinite).ne
    have hge' := hy.ge.resolve_left (magnitude_lt hfinite').ne
    have hsmall : 0 ≤ 1 - roundoff := by linarith
    have hone := worth_nonneg (magnitude x)
    calc number * number' * (1 - roundoff) ^ (r + r' + 1)
        = number * (1 - roundoff) ^ r * (number' * (1 - roundoff) ^ r') * (1 - roundoff) := by ring
      _ ≤ worth (magnitude x) * worth (magnitude y) * (1 - roundoff) := by
          refine mul_le_mul_of_nonneg_right (mul_le_mul hge hge' ?_ hone) hsmall
          exact mul_nonneg hnumber'.le (pow_nonneg hsmall r')
      _ ≤ worth (nearestMagnitude (units x * units y) unitsInOne) := hlow

/-- A product has the roundings of both factors, and one more. -/
theorem near_mul {number number' : ℝ} {r r' : Nat} {x y : Float} (hx : Near number r x)
    (hy : Near number' r' y) : Near (number * number') (r + r' + 1) (x * y) := by
  cases hfinite : x.isFinite with
  | false =>
      rw [(infinite_mul hx.isNaN hfinite hx.sign hy.isNaN hy.sign hy.magnitude_ne_zero).1]
      exact hx.of_infinite hfinite hy.one_le_number
  | true =>
      cases hfinite' : y.isFinite with
      | true => exact near_mul_of_isFinite hx hy hfinite hfinite'
      | false =>
          rw [(infinite_mul hy.isNaN hfinite' hy.sign hx.isNaN hx.sign hx.magnitude_ne_zero).2,
            mul_comm number, Nat.add_comm r]
          exact hy.of_infinite hfinite' hx.one_le_number

/-! ### Repeated squaring -/

/-- What is multiplied up so far and the square at hand are powers of ten, each with fewer roundings than
    its exponent says, and so is the result. -/
theorem near_squareAndMultiply {steps a c exponent : Nat} {result base : Float}
    (hresult : Near (10 ^ a) a result) (hbase : Near (10 ^ (c + 1)) c base) (h : exponent < 2 ^ steps) :
    Near (10 ^ (a + (c + 1) * exponent)) (a + (c + 1) * exponent)
      (squareAndMultiply steps result base exponent) := by
  induction steps generalizing a c exponent result base with
  | zero =>
      obtain rfl : exponent = 0 := by omega
      exact hresult
  | succ steps ih =>
      have hsquare : Near (10 ^ (c + c + 1 + 1)) (c + c + 1) (base * base) := by
        have hmul := near_mul hbase hbase
        rwa [← pow_add, show c + 1 + (c + 1) = c + c + 1 + 1 by omega] at hmul
      have hhalf : exponent / 2 < 2 ^ steps := by omega
      unfold squareAndMultiply
      by_cases hodd : exponent % 2 = 1
      · have hproduct : Near (10 ^ (a + c + 1)) (a + c + 1) (result * base) := by
          have hmul := near_mul hresult hbase
          rwa [← pow_add] at hmul
        have hexponent : a + (c + 1) * exponent = a + c + 1 + (c + c + 1 + 1) * (exponent / 2) := by
          conv_lhs => rw [← Nat.div_add_mod exponent 2, hodd]
          ring
        rw [if_pos hodd, hexponent]
        exact ih hproduct hsquare hhalf
      · have hexponent : a + (c + 1) * exponent = a + (c + c + 1 + 1) * (exponent / 2) := by
          conv_lhs => rw [← Nat.div_add_mod exponent 2, Nat.mod_two_not_eq_one.1 hodd]
          ring
        rw [if_neg hodd, hexponent]
        exact ih hresult hsquare hhalf

theorem near_ofNat {n : Nat} (h0 : n ≠ 0) (h : n ≤ 2 ^ 53) : Near n 0 (Float.ofNat n) := by
  have hpositive := positive_ofNat h0 (h.trans (by decide))
  have hworth : worth (magnitude (Float.ofNat n)) = n := by
    rw [← toReal_eq_worth hpositive.sign, toReal_ofNat h]
  refine ⟨isNaN_ofNat n, hpositive.sign, ?_, ?_, Or.inr ?_⟩ <;> rw [hworth]
  · exact Nat.one_le_cast.2 (Nat.pos_of_ne_zero h0)
  · rw [pow_zero, mul_one]
  · rw [pow_zero, mul_one]

/-- A power of ten has at most as many roundings as its exponent says. -/
theorem near_powerOfTen (n : Nat) : Near (10 ^ n) n (powerOfTen n) := by
  have hone : Near (10 ^ 0) 0 1.0 := by
    have hlit : (1.0 : Float) = Float.ofNat 1 := by decide
    rw [hlit, pow_zero]
    exact_mod_cast near_ofNat (n := 1) (by decide) (by decide)
  have hten : Near (10 ^ (0 + 1)) 0 10.0 := by
    have hlit : (10.0 : Float) = Float.ofNat 10 := by decide
    rw [hlit, Nat.zero_add, pow_one]
    exact_mod_cast near_ofNat (n := 10) (by decide) (by decide)
  have hpower := near_squareAndMultiply hone hten (Nat.lt_log2_self (n := n))
  rw [Nat.zero_add, Nat.zero_add, Nat.one_mul] at hpower
  exact hpower

/-! ### Accuracy -/

/-- Some hundred roundings move a value by a small part of itself. -/
theorem roundoff_pow_bounds {n : Nat} (h : n ≤ 512) :
    1 - 1 / 2 ^ 44 ≤ (1 - roundoff) ^ n ∧ (1 + roundoff) ^ n ≤ 1 + 1 / 2 ^ 43 := by
  obtain ⟨hpos, hlt⟩ := roundoff_bounds
  have hcount : n * roundoff ≤ 1 / 2 ^ 44 := by
    have hcast : (n : ℝ) ≤ 512 := by exact_mod_cast h
    unfold roundoff
    linarith
  have hlow : 1 - 1 / 2 ^ 44 ≤ (1 - roundoff) ^ n := by
    have hbernoulli := one_add_mul_le_pow (a := -roundoff) (by linarith) n
    rw [← sub_eq_add_neg] at hbernoulli
    linarith
  have hproduct : (1 + roundoff) ^ n * (1 - roundoff) ^ n ≤ 1 := by
    rw [← mul_pow]
    exact pow_le_one₀ (mul_nonneg (by linarith) (by linarith)) (by nlinarith)
  refine ⟨hlow, ?_⟩
  have hnonneg : 0 ≤ (1 + roundoff) ^ n := pow_nonneg (by linarith) n
  nlinarith

/-- Ten to the power 308 is below the largest double, and ten times as much is far above it. -/
theorem ten_pow_bounds {k n : Nat} (hk : k = 1024) (hn : n = 308) :
    10 ^ n * (2 ^ 43 + 1) < 2 ^ k * 2 ^ 43 ∧ 2 ^ k * 2 ^ 44 + 10 ^ (n + 1) < 10 ^ (n + 1) * 2 ^ 44 := by
  subst hk hn
  decide +kernel

theorem isFinite_powerOfTen {n : Nat} (h : n ≤ 308) : (powerOfTen n).isFinite = true := by
  have hnear := near_powerOfTen n
  by_contra hinfinite
  have hmagnitude := magnitude_of_infinite hnear.isNaN (Bool.not_eq_true _ ▸ hinfinite)
  have hle := hnear.le
  obtain ⟨k, hk⟩ : ∃ k, k = 1024 := ⟨1024, rfl⟩
  obtain ⟨greatest, hgreatest⟩ : ∃ greatest, greatest = 308 := ⟨308, rfl⟩
  rw [hmagnitude, worth_infinite hk] at hle
  obtain ⟨-, hroundings⟩ := roundoff_pow_bounds (n := n) (by omega)
  have hpow : (10 : ℝ) ^ n ≤ 10 ^ greatest := pow_le_pow_right₀ (by norm_num) (hgreatest ▸ h)
  have hbound : (10 : ℝ) ^ greatest * (2 ^ 43 + 1) < 2 ^ k * 2 ^ 43 := by
    exact_mod_cast (ten_pow_bounds hk hgreatest).1
  have hnonneg : 0 ≤ (1 + roundoff) ^ n := pow_nonneg (by linarith [roundoff_bounds.1]) n
  have hlast : (2 : ℝ) ^ k ≤ 10 ^ greatest * (1 + 1 / 2 ^ 43) := hle.trans (by gcongr)
  linarith

theorem not_isFinite_powerOfTen {n : Nat} (h : 309 ≤ n) : (powerOfTen n).isFinite = false := by
  have hnear := near_powerOfTen n
  by_contra hfinite
  rw [Bool.not_eq_false] at hfinite
  have hge := hnear.ge.resolve_left (magnitude_lt hfinite).ne
  obtain ⟨k, hk⟩ : ∃ k, k = 1024 := ⟨1024, rfl⟩
  obtain ⟨greatest, hgreatest⟩ : ∃ greatest, greatest = 308 := ⟨308, rfl⟩
  have hworth := worth_mono (le_refl _) (magnitude_lt hfinite).le
  rw [worth_infinite hk] at hworth
  obtain ⟨hroundings, -⟩ := roundoff_pow_bounds (n := greatest + 1) (by omega)
  have hbase : 1 ≤ 10 * (1 - roundoff) := by
    unfold roundoff
    norm_num
  have hpow : (10 * (1 - roundoff)) ^ (greatest + 1) ≤ (10 * (1 - roundoff)) ^ n :=
    pow_le_pow_right₀ hbase (by omega)
  rw [mul_pow, mul_pow] at hpow
  have hbound : (2 : ℝ) ^ k * 2 ^ 44 + 10 ^ (greatest + 1) < 10 ^ (greatest + 1) * 2 ^ 44 := by
    exact_mod_cast (ten_pow_bounds hk hgreatest).2
  have hlast : 10 ^ (greatest + 1) * (1 - 1 / 2 ^ 44) ≤ (2 : ℝ) ^ k := by
    refine le_trans ?_ ((hpow.trans hge).trans hworth)
    gcongr
  linarith

theorem powerOfTen_natCast_bounds {n : Nat} (h : n ≤ 308) :
    1 ≤ toReal (powerOfTen n) ∧ 10 ^ n * (1 - 1 / 2 ^ 44) ≤ toReal (powerOfTen n) ∧
      toReal (powerOfTen n) ≤ 10 ^ n * (1 + 1 / 2 ^ 43) := by
  have hnear := near_powerOfTen n
  have hge := hnear.ge.resolve_left (magnitude_lt (isFinite_powerOfTen h)).ne
  have hle := hnear.le
  obtain ⟨hlow, hhigh⟩ := roundoff_pow_bounds (n := n) (by omega)
  rw [toReal_eq_worth hnear.sign]
  refine ⟨hnear.one_le, le_trans ?_ hge, hle.trans ?_⟩ <;> gcongr

/-! ### Reciprocals -/

theorem powerOfTen_neg {n : Nat} (h : 0 < n) : powerOfTen (-n) = 1.0 / powerOfTen n := by
  have hneg : (-(n : Int)) < 0 := by omega
  have hnonneg : ¬((n : Int) < 0) := by omega
  simp only [powerOfTen, Int.natAbs_neg, Int.natAbs_natCast, if_pos hneg, if_neg hnonneg]

theorem one_div_infinite {x : Float} (hn : x.isNaN = false) (hinfinite : x.isFinite = false)
    (hsign : isNegative x = false) : 1.0 / x = 0.0 := by
  have hx := ofMagnitude_eq hn
  rw [hsign, magnitude_of_infinite hn hinfinite] at hx
  rw [← hx]
  decide

theorem units_one : units 1.0 = unitsInOne := by
  rw [← natAbs_signedUnits, signedUnits_one, one_mul, Int.natAbs_natCast]

/-- The reciprocal of a large double can have fewer bits than a double usually has, but not many fewer. -/
theorem one_div_error {x : Float} (hfinite : x.isFinite = true) (hsign : isNegative x = false)
    (hone : 1 ≤ toReal x) :
    (1.0 / x).isFinite = true ∧ |toReal (1.0 / x) - 1 / toReal x| ≤ 1 / toReal x / 2 ^ 51 := by
  have hpos := unitsInOne_cast_pos
  have hunits : toReal x = units x / unitsInOne := toReal_eq_worth hsign
  have hle : unitsInOne ≤ units x := by
    rwa [hunits, one_le_div hpos, Nat.cast_le] at hone
  have hunitsPos : 0 < units x := unitsInOne_pos.trans_le hle
  have hmagnitude : magnitude x ≠ 0 := fun hzero => hunitsPos.ne' (units_eq_zero hzero)
  have hlarge : 2 ^ 50 * units x ≤ unitsInOne * unitsInOne := by
    obtain ⟨k, hk⟩ : ∃ k, k = 1024 := ⟨1024, rfl⟩
    have hgreatest : units x ≤ unitsOf infiniteMagnitude :=
      unitsOf_mono (le_refl _) (magnitude_lt hfinite).le
    calc 2 ^ 50 * units x ≤ 2 ^ 50 * (2 ^ k * unitsInOne) := by
          rw [← unitsOf_infinite hk]
          exact Nat.mul_le_mul_left _ hgreatest
      _ = unitsInOne * unitsInOne := by
          rw [← Nat.mul_assoc, ← Nat.pow_add, ← unitsInOne_eq_two_pow (by omega)]
  have hsmall : nearestMagnitude (unitsInOne * unitsInOne) (units x) < infiniteMagnitude := by
    refine lt_of_le_of_lt ?_ (nearestMagnitude_natCast_lt (n := 1) (by decide))
    apply nearestMagnitude_mono hunitsPos Nat.one_pos
    rw [Nat.mul_one, Nat.one_mul]
    exact Nat.mul_le_mul_left _ hle
  obtain ⟨hhigh, hlow⟩ := worth_nearestMagnitude hunitsPos (by decide) hlarge
  have hlow := hlow.resolve_left hsmall.ne
  have hexact : ((unitsInOne * unitsInOne : Nat) : ℝ) / (units x * unitsInOne) = 1 / toReal x := by
    rw [hunits, Nat.cast_mul, mul_div_mul_right _ _ hpos.ne', one_div_div]
  rw [hexact] at hhigh hlow
  have hsign' : (isNegative 1.0 != isNegative x) = false := by
    rw [hsign]
    decide
  rw [div_eq (by decide) hfinite hmagnitude, units_one, hsign']
  refine ⟨isFinite_ofMagnitude _ hsmall, ?_⟩
  rw [toReal_ofMagnitude _ hsmall.le, if_neg Bool.false_ne_true, abs_le]
  constructor <;> linarith

theorem one_div_bounds {p t : ℝ} (hp : 0 < p) (hlow : p * (1 - 1 / 2 ^ 44) ≤ t)
    (hhigh : t ≤ p * (1 + 1 / 2 ^ 43)) :
    p⁻¹ * (1 - 1 / 2 ^ 43) ≤ 1 / t ∧ 1 / t ≤ p⁻¹ * (1 + 1 / 2 ^ 43) := by
  have hinverse : p⁻¹ * p = 1 := inv_mul_cancel₀ hp.ne'
  have hpos : 0 < p⁻¹ := inv_pos.2 hp
  have ht : 0 < t := by linarith
  constructor
  · rw [le_div_iff₀ ht]
    calc p⁻¹ * (1 - 1 / 2 ^ 43) * t ≤ p⁻¹ * (1 - 1 / 2 ^ 43) * (p * (1 + 1 / 2 ^ 43)) := by gcongr
      _ = p⁻¹ * p * ((1 - 1 / 2 ^ 43) * (1 + 1 / 2 ^ 43)) := by ring
      _ ≤ 1 := by
          rw [hinverse]
          norm_num
  · rw [div_le_iff₀ ht]
    calc 1 ≤ p⁻¹ * p * ((1 + 1 / 2 ^ 43) * (1 - 1 / 2 ^ 44)) := by
          rw [hinverse]
          norm_num
      _ = p⁻¹ * (1 + 1 / 2 ^ 43) * (p * (1 - 1 / 2 ^ 44)) := by ring
      _ ≤ p⁻¹ * (1 + 1 / 2 ^ 43) * t := by gcongr

/-- From `1e-308` to `1e308` the powers of ten are accurate to twelve digits. -/
theorem powerOfTen_error {e : Int} (hlow : -308 ≤ e) (hhigh : e ≤ 308) :
    (powerOfTen e).isFinite = true ∧ |toReal (powerOfTen e) - 10 ^ e| ≤ 10 ^ e / 2 ^ 40 := by
  obtain ⟨n, hn, he⟩ : ∃ n : Nat, n ≤ 308 ∧ (e = n ∨ e = -n ∧ 0 < n) := ⟨e.natAbs, by omega, by omega⟩
  have hfinite := isFinite_powerOfTen hn
  obtain ⟨hone, hbelow, habove⟩ := powerOfTen_natCast_bounds hn
  have hpow : (0 : ℝ) < 10 ^ n := by positivity
  rcases he with rfl | ⟨rfl, hpos⟩
  · rw [zpow_natCast]
    refine ⟨hfinite, ?_⟩
    rw [abs_le]
    constructor <;> linarith
  · obtain ⟨hreciprocal, herror⟩ := one_div_error hfinite (near_powerOfTen n).sign hone
    rw [powerOfTen_neg hpos, zpow_neg, zpow_natCast]
    refine ⟨hreciprocal, ?_⟩
    obtain ⟨hlow', hhigh'⟩ := one_div_bounds hpow hbelow habove
    have hinverse : (0 : ℝ) < (10 ^ n)⁻¹ := inv_pos.2 hpow
    rw [abs_le] at herror ⊢
    constructor <;> linarith

/-- Below `1e-308` the power is zero. -/
theorem powerOfTen_of_lt {e : Int} (h : e < -308) : powerOfTen e = 0.0 := by
  obtain ⟨n, rfl⟩ : ∃ n : Nat, e = -n := ⟨e.natAbs, by omega⟩
  have hnear := near_powerOfTen n
  rw [powerOfTen_neg (by omega)]
  exact one_div_infinite hnear.isNaN (not_isFinite_powerOfTen (by omega)) hnear.sign

/-- Above `1e308` the power is an infinity. -/
theorem powerOfTen_of_gt {e : Int} (h : 308 < e) :
    powerOfTen e = ofMagnitude false infiniteMagnitude := by
  obtain ⟨n, rfl⟩ : ∃ n : Nat, e = n := ⟨e.natAbs, by omega⟩
  have hnear := near_powerOfTen n
  have hpower := ofMagnitude_eq hnear.isNaN
  rw [hnear.sign, magnitude_of_infinite hnear.isNaN (not_isFinite_powerOfTen (by omega))] at hpower
  exact hpower.symm

/-! ### Ranges of powers -/

theorem isFinite_powerOfTen_iff {e : Int} : (powerOfTen e).isFinite = true ↔ e ≤ 308 := by
  rcases lt_or_ge 308 e with hlarge | hsmall
  · rw [powerOfTen_of_gt hlarge]
    exact iff_of_false (by decide) (not_le.2 hlarge)
  · refine iff_of_true ?_ hsmall
    rcases lt_or_ge e (-308) with hlost | hkept
    · rw [powerOfTen_of_lt hlost]
      decide
    · exact (powerOfTen_error hkept hsmall).1

theorem powerOfTen_pos_iff {e : Int} (h : e ≤ 308) : 0.0 < powerOfTen e ↔ -308 ≤ e := by
  rcases lt_or_ge e (-308) with hlost | hkept
  · rw [powerOfTen_of_lt hlost]
    exact iff_of_false (by decide) (not_le.2 hlost)
  · refine iff_of_true ?_ hkept
    obtain ⟨hfinite, herror⟩ := powerOfTen_error hkept h
    have hpow : (0 : ℝ) < 10 ^ e := by positivity
    have hzero : toReal 0.0 = 0 := by
      rw [toReal, signedUnits_eq_zero (by decide), Int.cast_zero, zero_div]
    rw [← toReal_lt_iff (by decide) hfinite, hzero]
    rw [abs_le] at herror
    linarith

/-- Powers with larger exponents are larger, as long as they are neither lost nor infinite. -/
theorem powerOfTen_lt_powerOfTen {e e' : Int} (hlow : -308 ≤ e) (hlt : e < e') (hhigh : e' ≤ 308) :
    powerOfTen e < powerOfTen e' := by
  obtain ⟨hfinite, herror⟩ := powerOfTen_error hlow (by omega)
  obtain ⟨hfinite', herror'⟩ := powerOfTen_error (by omega) hhigh
  have hpow : (0 : ℝ) < 10 ^ e := by positivity
  have hdecade : (10 : ℝ) ^ e * 10 ≤ 10 ^ e' := by
    rw [← zpow_add_one₀ (by norm_num)]
    exact zpow_le_zpow_right₀ (by norm_num) hlt
  rw [← toReal_lt_iff hfinite hfinite']
  rw [abs_le] at herror herror'
  linarith

/-- Up to `1e22` the powers are exact. -/
theorem toReal_powerOfTen_exact {n : Nat} (h : n ≤ 22) : toReal (powerOfTen n) = 10 ^ n := by
  have hexact : ∀ n < 23, signedUnits (powerOfTen (n : Nat)) = (10 ^ n : Nat) * unitsInOne := by
    decide +kernel
  rw [toReal_eq_of_signedUnits (hexact n (by omega))]
  exact_mod_cast rfl

end EvalCharts.Double
