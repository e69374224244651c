/-
Module: EvalCharts.Proofs.Double.Rounding
Purpose: The laws of rounding a quotient to the nearest magnitude. Rounding depends only on the value of
  the quotient, keeps the order of quotients, and leaves alone what a magnitude is exactly worth.
Main exports: roundHalfEven, nearestMagnitude_mul_right, nearestMagnitude_mono, nearestMagnitude_unitsOf
-/
import EvalCharts.Proofs.Double.Fields

namespace EvalCharts.Double

/-- The whole number closest to `n / step`; a half goes to the even neighbour. -/
def roundHalfEven (n step : Nat) : Nat :=
  if 2 * (n % step) < step ∨ (2 * (n % step) = step ∧ n / step % 2 = 0) then n / step
  else n / step + 1

/-- The scale at which a quotient keeps 53 leading bits, or the least one. -/
def quotientScale (numerator denominator : Nat) : Nat :=
  (numerator / denominator).log2 - 52

theorem nearestMagnitude_eq (n d : Nat) :
    nearestMagnitude n d =
      min (quotientScale n d * 2 ^ 52 + roundHalfEven n (d * 2 ^ quotientScale n d))
        infiniteMagnitude := rfl

theorem nearestMagnitude_le (n d : Nat) : nearestMagnitude n d ≤ infiniteMagnitude :=
  Nat.min_le_right _ _

theorem two_pow_mul_unitsInOne (a : Nat) : 2 ^ a * unitsInOne = 2 ^ (a + 1074) := by
  rw [Nat.pow_add, unitsInOne]

theorem unitsInOne_pos : 0 < unitsInOne := by
  rw [unitsInOne]
  positivity

theorem unitsInOne_eq_two_pow {k : Nat} (h : k = 1074) : unitsInOne = 2 ^ k := by
  unfold unitsInOne
  exact h ▸ rfl

/-- The least magnitude of a binade is worth a power of two. -/
theorem unitsOf_binade {k a : Nat} (h : 52 + k = a + 1074) :
    unitsOf (k * 2 ^ 52 + 2 ^ 52) = 2 ^ a * unitsInOne := by
  have hfields := fields_unique (k := k) (g := 2 ^ 52) (by decide) (Or.inr (le_refl _))
  rw [unitsOf_eq, hfields.1, hfields.2, two_pow_mul_unitsInOne, ← Nat.pow_add, h]

theorem unitsOf_one : unitsOf (1022 * 2 ^ 52 + 2 ^ 52) = unitsInOne := by
  rw [unitsOf_binade (k := 1022) (a := 0) rfl, Nat.pow_zero, Nat.one_mul]

/-! ### Rounding to whole numbers -/

theorem div_le_roundHalfEven (n step : Nat) : n / step ≤ roundHalfEven n step := by
  unfold roundHalfEven
  split <;> omega

theorem roundHalfEven_le (n step : Nat) : roundHalfEven n step ≤ n / step + 1 := by
  unfold roundHalfEven
  split <;> omega

theorem roundHalfEven_mono {n n' : Nat} (step : Nat) (h : n ≤ n') :
    roundHalfEven n step ≤ roundHalfEven n' step := by
  have hdiv : n / step ≤ n' / step := Nat.div_le_div_right h
  rcases Nat.lt_or_eq_of_le hdiv with hlt | heq
  · have := roundHalfEven_le n step
    have := div_le_roundHalfEven n' step
    omega
  · have h1 := Nat.div_add_mod n step
    have h2 := Nat.div_add_mod n' step
    rw [heq] at h1
    have hmod : n % step ≤ n' % step := by omega
    unfold roundHalfEven
    rw [heq]
    split <;> split <;> omega

theorem roundHalfEven_mul_right (n step : Nat) {c : Nat} (hc : 0 < c) :
    roundHalfEven (n * c) (step * c) = roundHalfEven n step := by
  unfold roundHalfEven
  rw [Nat.mul_div_mul_right _ _ hc, Nat.mul_mod_mul_right]
  have hlt : 2 * (n % step * c) < step * c ↔ 2 * (n % step) < step := by
    rw [← Nat.mul_assoc]
    exact Nat.mul_lt_mul_right hc
  have heq : 2 * (n % step * c) = step * c ↔ 2 * (n % step) = step := by
    rw [← Nat.mul_assoc]
    exact Nat.mul_left_inj (by omega)
  simp only [hlt, heq]

theorem roundHalfEven_mul_self (n : Nat) {step : Nat} (h : 0 < step) :
    roundHalfEven (n * step) step = n := by
  unfold roundHalfEven
  rw [Nat.mul_mod_left, Nat.mul_div_cancel _ h, if_pos (Or.inl (by omega))]

/-! ### Rounding to magnitudes -/

theorem nearestMagnitude_mul_right (n d : Nat) {c : Nat} (hc : 0 < c) :
    nearestMagnitude (n * c) (d * c) = nearestMagnitude n d := by
  have hscale : quotientScale (n * c) (d * c) = quotientScale n d := by
    unfold quotientScale
    rw [Nat.mul_div_mul_right _ _ hc]
  rw [nearestMagnitude_eq, nearestMagnitude_eq, hscale, Nat.mul_right_comm,
    roundHalfEven_mul_right _ _ hc]

/-- The quotient at its scale has at most 53 bits. -/
theorem div_lt_of_quotientScale (n d : Nat) : n / (d * 2 ^ quotientScale n d) < 2 ^ 53 := by
  rw [← Nat.div_div_eq_div_mul, Nat.div_lt_iff_lt_mul (Nat.two_pow_pos _), ← Nat.pow_add]
  calc n / d < 2 ^ ((n / d).log2 + 1) := Nat.lt_log2_self
    _ ≤ 2 ^ (53 + quotientScale n d) := Nat.pow_le_pow_right (by decide) (by
        unfold quotientScale
        omega)

/-- Above the least scale the quotient has 53 bits. -/
theorem le_div_of_quotientScale {n d : Nat} (h : quotientScale n d ≠ 0) :
    2 ^ 52 ≤ n / (d * 2 ^ quotientScale n d) := by
  have hlog : (n / d).log2 = 52 + quotientScale n d := by
    unfold quotientScale at h ⊢
    omega
  have hne : n / d ≠ 0 := by
    intro h0
    rw [h0, Nat.log2_zero] at hlog
    omega
  rw [← Nat.div_div_eq_div_mul, Nat.le_div_iff_mul_le (Nat.two_pow_pos _), ← Nat.pow_add, ← hlog]
  exact Nat.log2_self_le hne

theorem log2_mul_two_pow {a : Nat} (ha : a ≠ 0) (k : Nat) : (a * 2 ^ k).log2 = a.log2 + k := by
  have hpos : a * 2 ^ k ≠ 0 := Nat.mul_ne_zero ha (Nat.two_pow_pos k).ne'
  refine (Nat.log2_eq_iff hpos).2 ⟨?_, ?_⟩
  · rw [Nat.pow_add]
    exact Nat.mul_le_mul_right _ (Nat.log2_self_le ha)
  · rw [Nat.add_right_comm, Nat.pow_add]
    exact Nat.mul_lt_mul_of_pos_right Nat.lt_log2_self (Nat.two_pow_pos k)

theorem log2_mono {a b : Nat} (h : a ≤ b) : a.log2 ≤ b.log2 := by
  by_cases ha : a = 0
  · simp [ha]
  · exact (Nat.le_log2 (by omega)).2 (le_trans (Nat.log2_self_le ha) h)

/-- Rounding keeps the order of quotients with one denominator. -/
theorem nearestMagnitude_mono_left {n n' : Nat} (d : Nat) (h : n ≤ n') :
    nearestMagnitude n d ≤ nearestMagnitude n' d := by
  have hscale : quotientScale n d ≤ quotientScale n' d := by
    have := log2_mono (Nat.div_le_div_right (c := d) h)
    unfold quotientScale
    omega
  have hkey : quotientScale n d * 2 ^ 52 + roundHalfEven n (d * 2 ^ quotientScale n d) ≤
      quotientScale n' d * 2 ^ 52 + roundHalfEven n' (d * 2 ^ quotientScale n' d) := by
    rcases Nat.lt_or_eq_of_le hscale with hlt | heq
    · -- in a higher binade even the least magnitude is large enough
      have h1 := roundHalfEven_le n (d * 2 ^ quotientScale n d)
      have h2 := div_lt_of_quotientScale n d
      have h3 := div_le_roundHalfEven n' (d * 2 ^ quotientScale n' d)
      have h4 := le_div_of_quotientScale (n := n') (d := d) (by omega)
      omega
    · rw [heq]
      exact Nat.add_le_add_left (roundHalfEven_mono _ h) _
  rw [nearestMagnitude_eq, nearestMagnitude_eq]
  omega

/-- Rounding keeps the order of quotients. -/
theorem nearestMagnitude_mono {n d n' d' : Nat} (hd : 0 < d) (hd' : 0 < d')
    (h : n * d' ≤ n' * d) : nearestMagnitude n d ≤ nearestMagnitude n' d' := by
  rw [← nearestMagnitude_mul_right n d hd', ← nearestMagnitude_mul_right n' d' hd,
    Nat.mul_comm d' d]
  exact nearestMagnitude_mono_left _ h

/-- Rounding depends on the value of a quotient alone. -/
theorem nearestMagnitude_congr {n d n' d' : Nat} (hd : 0 < d) (hd' : 0 < d')
    (h : n * d' = n' * d) : nearestMagnitude n d = nearestMagnitude n' d' :=
  le_antisymm (nearestMagnitude_mono hd hd' h.le) (nearestMagnitude_mono hd' hd h.ge)

/-- What a magnitude is exactly worth is rounded to that magnitude. -/
theorem nearestMagnitude_unitsOf {m d : Nat} (hm : m ≤ infiniteMagnitude) (hd : 0 < d) :
    nearestMagnitude (unitsOf m * d) d = m := by
  have hscale : quotientScale (unitsOf m * d) d = scale m := by
    unfold quotientScale
    rw [Nat.mul_div_cancel _ hd, unitsOf_eq]
    have hlt := significand_lt m
    rcases scale_eq_zero_or_le m with h0 | hle
    · rw [h0, Nat.pow_zero, Nat.mul_one]
      by_cases hs : significand m = 0
      · rw [hs, Nat.log2_zero]
      · have := (Nat.log2_lt hs).2 hlt
        omega
    · have hlog : (significand m).log2 = 52 := (Nat.log2_eq_iff (by omega)).2 ⟨hle, hlt⟩
      rw [log2_mul_two_pow (by omega), hlog]
      omega
  rw [nearestMagnitude_eq, hscale, unitsOf_eq, Nat.mul_assoc, Nat.mul_comm (2 ^ _) d,
    roundHalfEven_mul_self _ (Nat.mul_pos hd (Nat.two_pow_pos _)), scale_mul_add_significand]
  omega

theorem nearestMagnitude_zero {d : Nat} (hd : 0 < d) : nearestMagnitude 0 d = 0 := by
  have := nearestMagnitude_unitsOf (m := 0) (Nat.zero_le _) hd
  simpa [unitsOf] using this

/-- A quotient below half a unit is rounded to zero. -/
theorem nearestMagnitude_of_lt_half {n d : Nat} (h : 2 * n < d) : nearestMagnitude n d = 0 := by
  have hdiv : n / d = 0 := Nat.div_eq_of_lt (by omega)
  have hscale : quotientScale n d = 0 := by
    unfold quotientScale
    rw [hdiv, Nat.log2_zero]
  rw [nearestMagnitude_eq, hscale, Nat.pow_zero, Nat.mul_one]
  unfold roundHalfEven
  rw [Nat.mod_eq_of_lt (by omega), if_pos (Or.inl h), hdiv]
  rfl

/-- A quotient of at least the units of an infinity is rounded to it. -/
theorem nearestMagnitude_of_le {n d : Nat} (hd : 0 < d) (h : unitsOf infiniteMagnitude * d ≤ n) :
    nearestMagnitude n d = infiniteMagnitude := by
  apply le_antisymm (nearestMagnitude_le n d)
  rw [← nearestMagnitude_unitsOf (le_refl infiniteMagnitude) hd]
  exact nearestMagnitude_mono_left d h

end EvalCharts.Double
