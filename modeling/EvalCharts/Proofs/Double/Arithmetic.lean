/-
Module: EvalCharts.Proofs.Double.Arithmetic
Purpose: The arithmetic of doubles is exact arithmetic on units followed by one rounding. Sums, products
  and quotients of finite doubles, and the doubles of natural numbers, are the nearest ones to their
  exact values.
Main exports: Represents, add_eq, mul_eq, div_eq, ofNat_eq
-/
import EvalCharts.Proofs.Double.Rounding
import EvalCharts.Proofs.Double.Order

namespace EvalCharts.Double

open Float.Model Float.Model.UnpackedFloat

/-! ### Residual bits -/

/-- A mantissa with its round and sticky bits stands for the quotient `n / s`: the mantissa is its whole
    part, the round bit says whether the rest reaches a half, and the sticky bit whether it is neither
    nothing nor a half. -/
structure Represents (em : ExtendedMantissa) (n s : Nat) : Prop where
  mantissa : em.mantissa = n / s
  roundBit : em.roundBit = true ↔ s ≤ 2 * (n % s)
  stickyBit : em.stickyBit = true ↔ 2 * (n % s) ≠ 0 ∧ 2 * (n % s) ≠ s

namespace Represents

theorem ofQuotient (n : Nat) {s : Nat} (hs : 0 < s) :
    Represents (.ofMantissaAndAccuracy (n / s) (accuracyOfFraction (n % s) s)) n s := by
  have hlt := Nat.mod_lt n hs
  unfold accuracyOfFraction
  by_cases h0 : n % s = 0
  · rw [if_pos h0]
    constructor <;> simp [ExtendedMantissa.ofMantissaAndAccuracy, h0]
    omega
  · rw [if_neg h0]
    rcases Nat.lt_trichotomy (2 * (n % s)) s with h | h | h
    · rw [Nat.compare_eq_lt.2 h]
      constructor <;> simp [ExtendedMantissa.ofMantissaAndAccuracy] <;> omega
    · rw [Nat.compare_eq_eq.2 h]
      constructor <;> simp [ExtendedMantissa.ofMantissaAndAccuracy] <;> omega
    · rw [Nat.compare_eq_gt.2 h]
      constructor <;> simp [ExtendedMantissa.ofMantissaAndAccuracy] <;> omega

theorem shiftRightOne {em : ExtendedMantissa} {n s : Nat} (hs : 0 < s) (h : Represents em n s) :
    Represents em.shiftRightOne n (s * 2) := by
  have hlt := Nat.mod_lt n hs
  have hdiv : n / (s * 2) = n / s / 2 := (Nat.div_div_eq_div_mul n s 2).symm
  have hmod : n % (s * 2) = n % s + s * (n / s % 2) := Nat.mod_mul
  have hbit : n / s % 2 = 0 ∨ n / s % 2 = 1 := by omega
  have hround := h.roundBit
  have hsticky := h.stickyBit
  constructor
  · rw [hdiv, ← h.mantissa]
    rfl
  · rw [hmod]
    simp only [ExtendedMantissa.shiftRightOne, h.mantissa, bne_iff_ne, ne_eq]
    rcases hbit with hb | hb <;> rw [hb] <;> omega
  · rw [hmod]
    simp only [ExtendedMantissa.shiftRightOne, Bool.or_eq_true, hround, hsticky]
    rcases hbit with hb | hb <;> rw [hb] <;> omega

/-- Shifting divides the quotient by a power of two. -/
theorem shiftRight {em : ExtendedMantissa} {n s : Nat} (hs : 0 < s) (h : Represents em n s) :
    ∀ k : Nat, Represents (em >>> k) n (s * 2 ^ k)
  | 0 => by
      rw [Nat.pow_zero, Nat.mul_one]
      exact h
  | k + 1 => by
      have hstep := (shiftRight hs h k).shiftRightOne (Nat.mul_pos hs (Nat.two_pow_pos k))
      rw [Nat.mul_assoc, ← Nat.pow_succ] at hstep
      exact hstep

/-- The residual bits are all that rounding needs. -/
theorem roundedMantissa {em : ExtendedMantissa} {n s : Nat} (h : Represents em n s) :
    em.roundedMantissa = roundHalfEven n s := by
  obtain ⟨m, r, t⟩ := em
  obtain ⟨hm, hr, ht⟩ := h
  simp only at hm hr ht
  unfold roundHalfEven ExtendedMantissa.roundedMantissa
  rw [← hm]
  cases r <;> cases t <;>
    simp only [ExtendedMantissa.accuracy, Accuracy.roundToNearestEven, Bool.false_eq_true, true_iff,
      false_iff] at hr ht ⊢ <;>
    split <;> omega

end Represents

/-! ### Rounding of unpacked doubles -/

/-- The exponent that rounding aims at. -/
theorem targetExponent_eq (m : Nat) (e : Int) :
    Format.binary64.targetExponent (totalExponent m e) = max ((m.log2 : Int) + e - 52) (-1074) := by
  unfold Format.targetExponent totalExponent
  change max ((m.log2 : Int) + 1 + e - (53 : Nat)) (3 - 2 ^ 10 - (53 : Nat)) = _
  omega

/-- How far a mantissa is shifted to reach the exponent that rounding aims at. -/
def roundingShift (m : Nat) (e : Int) : Nat :=
  (max ((m.log2 : Int) + e - 52) (-1074) - e).toNat

theorem shiftToTargetExponent_eq (m : Nat) (e : Int) (accuracy : Accuracy) :
    shiftToTargetExponent Format.binary64 m e accuracy =
      (ExtendedMantissa.ofMantissaAndAccuracy m accuracy >>> roundingShift m e,
        e + roundingShift m e) := by
  unfold shiftToTargetExponent
  rw [targetExponent_eq]
  rfl

/-- A mantissa that fits at its exponent is not shifted. -/
theorem shiftToTargetExponent_of_lt {m : Nat} {e : Int} (hm : m < 2 ^ 53) (he : -1074 ≤ e) :
    shiftToTargetExponent Format.binary64 m e .exact = (⟨m, false, false⟩, e) := by
  have hshift : roundingShift m e = 0 := by
    unfold roundingShift
    by_cases h : m = 0
    · rw [h, Nat.log2_zero]
      omega
    · have := (Nat.log2_lt h).2 hm
      omega
  rw [shiftToTargetExponent_eq, hshift, Nat.cast_zero, add_zero]
  rfl

/-- Rounding up to the next power of two moves into the next binade. -/
theorem shiftToTargetExponent_two_pow {e : Int} (he : -1074 ≤ e) :
    shiftToTargetExponent Format.binary64 (2 ^ 53) e .exact =
      (⟨2 ^ 52, false, false⟩, e + 1) := by
  have hshift : roundingShift (2 ^ 53) e = 1 := by
    unfold roundingShift
    rw [Nat.log2_two_pow]
    omega
  rw [shiftToTargetExponent_eq, hshift]
  rfl

/-- The second half of rounding: a rounded mantissa of at most 53 bits and a carry becomes the double of
    its magnitude. -/
theorem ofModel_pack_carry (negative : Bool) {k r : Nat} (hr : r ≤ 2 ^ 53)
    (hfit : k = 0 ∨ 2 ^ 52 ≤ r) :
    Float.ofModel (Float.Model.pack
      (if h : (shiftToTargetExponent Format.binary64 r ((k : Int) - 1074) .exact).1.mantissa = 0 then
        .zero (signOf negative)
      else
        .finite (signOf negative)
          (shiftToTargetExponent Format.binary64 r ((k : Int) - 1074) .exact).1.mantissa
          (shiftToTargetExponent Format.binary64 r ((k : Int) - 1074) .exact).2
          (Nat.pos_of_ne_zero h))) =
      ofMagnitude negative (min (k * 2 ^ 52 + r) infiniteMagnitude) := by
  rcases Nat.lt_or_eq_of_le hr with hlt | heq
  · rw [shiftToTargetExponent_of_lt hlt (by omega)]
    by_cases h0 : r = 0
    · have hk : k = 0 := by omega
      subst h0 hk
      exact ofModel_pack_zero negative
    · rw [dif_neg h0]
      exact ofModel_pack_finite negative _ hlt hfit
  · subst heq
    have hne : ¬(2 ^ 52 : Nat) = 0 := by decide
    have hsum : (k + 1) * 2 ^ 52 + 2 ^ 52 = k * 2 ^ 52 + 2 ^ 53 := by omega
    have hcarry := ofModel_pack_finite negative (k := k + 1) (g := 2 ^ 52) (by decide) (by decide)
      (Or.inr (le_refl _))
    rw [hsum] at hcarry
    rw [shiftToTargetExponent_two_pow (by omega), dif_neg hne, ← hcarry]
    congr 4
    push_cast
    ring

/-- The leading bit of a quotient whose numerator is doubled some times. -/
theorem log2_mul_two_pow_div {n d : Nat} (hd : 0 < d) (hq : n / d ≠ 0) (a : Nat) :
    (n * 2 ^ a / d).log2 = (n / d).log2 + a := by
  have hpos := Nat.two_pow_pos a
  have hle : 2 ^ (n / d).log2 * d ≤ n :=
    (Nat.le_div_iff_mul_le hd).1 (Nat.log2_self_le hq)
  have hlt : n < 2 ^ ((n / d).log2 + 1) * d :=
    (Nat.div_lt_iff_lt_mul hd).1 Nat.lt_log2_self
  have hlow : 2 ^ ((n / d).log2 + a) ≤ n * 2 ^ a / d := by
    rw [Nat.le_div_iff_mul_le hd, Nat.pow_add, Nat.mul_right_comm]
    exact Nat.mul_le_mul_right _ hle
  have hhigh : n * 2 ^ a / d < 2 ^ ((n / d).log2 + a + 1) := by
    rw [Nat.div_lt_iff_lt_mul hd, Nat.add_right_comm, Nat.pow_add, Nat.mul_right_comm]
    exact Nat.mul_lt_mul_of_pos_right hlt hpos
  have hne : n * 2 ^ a / d ≠ 0 := (Nat.lt_of_lt_of_le (Nat.two_pow_pos _) hlow).ne'
  exact (Nat.log2_eq_iff hne).2 ⟨hlow, hhigh⟩

theorem log2_div_two_pow (q b : Nat) : (q / 2 ^ b).log2 = q.log2 - b := by
  by_cases h : 2 ^ b ≤ q
  · have hq : q ≠ 0 := by
      have := Nat.two_pow_pos b
      omega
    have hb : b ≤ q.log2 := (Nat.le_log2 hq).2 h
    have hdiv : q / 2 ^ b ≠ 0 := (Nat.div_pos h (Nat.two_pow_pos b)).ne'
    refine (Nat.log2_eq_iff hdiv).2 ⟨?_, ?_⟩
    · rw [Nat.le_div_iff_mul_le (Nat.two_pow_pos b), ← Nat.pow_add, Nat.sub_add_cancel hb]
      exact Nat.log2_self_le hq
    · have hsum : q.log2 - b + 1 + b = q.log2 + 1 := by omega
      rw [Nat.div_lt_iff_lt_mul (Nat.two_pow_pos b), ← Nat.pow_add, hsum]
      exact Nat.lt_log2_self
  · rw [Nat.div_eq_of_lt (by omega), Nat.log2_zero]
    by_cases hq : q = 0
    · rw [hq, Nat.log2_zero, Nat.zero_sub]
    · have := (Nat.log2_lt hq).2 (show q < 2 ^ b by omega)
      omega

/-- The scale of a quotient of units is where rounding leaves its exponent. -/
theorem quotientScale_units (n : Nat) {d : Nat} (hd : 0 < d) {e : Int}
    (he : e ≤ max (((n / d).log2 : Int) + e - 52) (-1074)) :
    quotientScale (n * 2 ^ (e + 1074).toNat) (d * 2 ^ (-(e + 1074)).toNat) =
      (e + roundingShift (n / d) e + 1074).toNat := by
  unfold quotientScale roundingShift
  by_cases hneg : e + 1074 < 0
  · have hup : (e + 1074).toNat = 0 := by omega
    rw [hup, Nat.pow_zero, Nat.mul_one, ← Nat.div_div_eq_div_mul, log2_div_two_pow]
    omega
  · have hdown : (-(e + 1074)).toNat = 0 := by omega
    rw [hdown, Nat.pow_zero, Nat.mul_one]
    by_cases hq : n / d = 0
    · -- without leading bits the exponent is the least one
      rw [hq, Nat.log2_zero] at he ⊢
      have hup : (e + 1074).toNat = 0 := by omega
      rw [hup, Nat.pow_zero, Nat.mul_one, hq, Nat.log2_zero]
      omega
    · rw [log2_mul_two_pow_div hd hq]
      omega

/-- Rounding an unpacked quotient `n / d` at exponent `e` rounds its number of units, provided that the
    exponent is low enough for all bits that matter. -/
theorem ofModel_pack_roundWithAccuracy (negative : Bool) (n : Nat) {d : Nat} (hd : 0 < d) {e : Int}
    (he : e ≤ max (((n / d).log2 : Int) + e - 52) (-1074)) :
    Float.ofModel (Float.Model.pack (roundWithAccuracy Format.binary64 (signOf negative) (n / d) e
      (accuracyOfFraction (n % d) d))) =
      ofMagnitude negative
        (nearestMagnitude (n * 2 ^ (e + 1074).toNat) (d * 2 ^ (-(e + 1074)).toNat)) := by
  have hscale := quotientScale_units n hd he
  have hlt := div_lt_of_quotientScale (n * 2 ^ (e + 1074).toNat) (d * 2 ^ (-(e + 1074)).toNat)
  have hle := le_div_of_quotientScale (n := n * 2 ^ (e + 1074).toNat)
    (d := d * 2 ^ (-(e + 1074)).toNat)
  rw [nearestMagnitude_eq]
  set k := quotientScale (n * 2 ^ (e + 1074).toNat) (d * 2 ^ (-(e + 1074)).toNat)
  have hexp : e + (roundingShift (n / d) e : Int) = (k : Int) - 1074 := by
    unfold roundingShift at hscale ⊢
    omega
  have hstep : d * 2 ^ (-(e + 1074)).toNat * 2 ^ k =
      d * 2 ^ roundingShift (n / d) e * 2 ^ (e + 1074).toNat := by
    rw [Nat.mul_assoc, Nat.mul_assoc, ← Nat.pow_add, ← Nat.pow_add]
    congr 2
    omega
  have hround := ((Represents.ofQuotient n hd).shiftRight hd (roundingShift (n / d) e)).roundedMantissa
  have hsame : roundHalfEven (n * 2 ^ (e + 1074).toNat) (d * 2 ^ (-(e + 1074)).toNat * 2 ^ k) =
      roundHalfEven n (d * 2 ^ roundingShift (n / d) e) := by
    rw [hstep, roundHalfEven_mul_right _ _ (Nat.two_pow_pos _)]
  have hlow := div_le_roundHalfEven (n * 2 ^ (e + 1074).toNat) (d * 2 ^ (-(e + 1074)).toNat * 2 ^ k)
  have hhigh := roundHalfEven_le (n * 2 ^ (e + 1074).toNat) (d * 2 ^ (-(e + 1074)).toNat * 2 ^ k)
  have hcarry := ofModel_pack_carry negative (k := k)
    (r := roundHalfEven (n * 2 ^ (e + 1074).toNat) (d * 2 ^ (-(e + 1074)).toNat * 2 ^ k))
    (by omega) (by omega)
  rw [← hcarry]
  unfold roundWithAccuracy
  rw [shiftToTargetExponent_eq]
  simp only [hround, hexp, hsame]

/-- Rounding a mantissa that is exact, wherever its exponent stands. -/
theorem ofModel_pack_roundWithAccuracy_exact (negative : Bool) (m : Nat) {e : Int}
    (he : e ≤ max ((m.log2 : Int) + e - 52) (-1074)) :
    Float.ofModel (Float.Model.pack
      (roundWithAccuracy Format.binary64 (signOf negative) m e .exact)) =
      ofMagnitude negative
        (nearestMagnitude (m * 2 ^ (e + 1074).toNat) (2 ^ (-(e + 1074)).toNat)) := by
  have h := ofModel_pack_roundWithAccuracy negative m (d := 1) (by decide) (e := e)
    (by rwa [Nat.div_one])
  rwa [Nat.div_one, Nat.mod_one, Nat.one_mul] at h

theorem ofModel_pack_round (negative : Bool) {m : Nat} (hm : m ≠ 0) (e : Int) :
    Float.ofModel (Float.Model.pack (UnpackedFloat.round Format.binary64 (signOf negative) m e)) =
      ofMagnitude negative
        (nearestMagnitude (m * 2 ^ (e + 1074).toNat) (2 ^ (-(e + 1074)).toNat)) := by
  unfold UnpackedFloat.round decreaseExponent
  rw [targetExponent_eq]
  simp only
  set k := (e - max ((m.log2 : Int) + e - 52) (-1074)).toNat with hk
  rw [Nat.shiftLeft_eq]
  have hlog := log2_mul_two_pow hm k
  refine (ofModel_pack_roundWithAccuracy_exact negative (m * 2 ^ k) (by omega)).trans ?_
  by_cases h0 : k = 0
  · rw [h0, Nat.pow_zero, Nat.mul_one, Nat.cast_zero, sub_zero]
  · -- the exponent is only lowered where it stands above the least one
    have hdown : (-(e - (k : Int) + 1074)).toNat = 0 := by omega
    have hdown' : (-(e + 1074)).toNat = 0 := by omega
    have hup : k + (e - (k : Int) + 1074).toNat = (e + 1074).toNat := by omega
    rw [Nat.mul_assoc, ← Nat.pow_add, hdown, hdown', hup]

/-! ### Sums -/

/-- The number of units of a finite double, with its sign. -/
def signedUnits (x : Float) : Int :=
  signed (isNegative x) (units x)

/-- The double closest to a number of units. Only an exact zero needs to be told its sign. -/
def ofUnits (zeroNegative : Bool) (units : Int) : Float :=
  ofMagnitude (if units = 0 then zeroNegative else units < 0) (nearestMagnitude units.natAbs 1)

theorem ofUnits_zero (zeroNegative : Bool) : ofUnits zeroNegative 0 = ofMagnitude zeroNegative 0 := by
  unfold ofUnits
  rw [if_pos rfl, Int.natAbs_zero, nearestMagnitude_zero (by decide)]

theorem natAbs_mul_two_pow (m : Int) (k : Nat) : (m * 2 ^ k).natAbs = m.natAbs * 2 ^ k := by
  rw [Int.natAbs_mul, Int.natAbs_pow]
  rfl

theorem ofModel_pack_normalize (m : Int) {e : Int} (he : -1074 ≤ e) :
    Float.ofModel (Float.Model.pack (UnpackedFloat.normalize Format.binary64 m e .positive)) =
      ofUnits false (m * 2 ^ (e + 1074).toNat) := by
  have hpow : (0 : Int) < 2 ^ (e + 1074).toNat := by positivity
  have hden : (-(e + 1074)).toNat = 0 := by omega
  unfold UnpackedFloat.normalize
  rcases lt_trichotomy m 0 with h | h | h
  · have hprod : m * 2 ^ (e + 1074).toNat < 0 := mul_neg_of_neg_of_pos h hpow
    have habs : m.natAbs = (-m).toNat := by omega
    have hround := ofModel_pack_round true (m := (-m).toNat) (by omega) e
    unfold ofUnits
    rw [Int.compare_eq_lt.2 h, if_neg hprod.ne, natAbs_mul_two_pow, habs, decide_eq_true hprod]
    rwa [hden, Nat.pow_zero] at hround
  · rw [Int.compare_eq_eq.2 h, h, zero_mul, ofUnits_zero]
    exact ofModel_pack_zero false
  · have hprod : 0 < m * 2 ^ (e + 1074).toNat := mul_pos h hpow
    have habs : m.natAbs = m.toNat := by omega
    have hround := ofModel_pack_round false (m := m.toNat) (by omega) e
    unfold ofUnits
    rw [Int.compare_eq_gt.2 h, if_neg hprod.ne', natAbs_mul_two_pow, habs, decide_eq_false hprod.not_gt]
    rwa [hden, Nat.pow_zero] at hround

theorem signed_mul (negative : Bool) (m c : Nat) :
    signed negative (m * c) = signed negative m * c := by
  cases negative <;> simp [signed]

theorem apply_signOf (negative : Bool) (m : Nat) : (signOf negative).apply m = signed negative m := by
  cases negative <;> rfl

/-- A finite double is a zero, or it is unpacked into fields that its units are made of. -/
theorem finite_cases {x : Float} (h : x.isFinite = true) :
    (magnitude x = 0 ∧ x.toModel.unpack = .zero (signOf (isNegative x))) ∨
      ∃ g k : Nat, ∃ hg : 0 < g, (k = 0 ∨ 2 ^ 52 ≤ g) ∧ units x = g * 2 ^ k ∧
        x.toModel.unpack = .finite (signOf (isNegative x)) g ((k : Int) - 1074) hg := by
  have hlt := magnitude_lt h
  rw [unpack_eq]
  rcases unpacked_cases (isNegative x) hlt.le with ⟨hi, _⟩ | ⟨hz, he⟩ | ⟨hg, _, _, he⟩
  · omega
  · exact Or.inl ⟨hz, he⟩
  · exact Or.inr ⟨_, _, hg, scale_eq_zero_or_le _, unitsOf_eq _, he⟩

theorem units_eq_zero {x : Float} (h : magnitude x = 0) : units x = 0 := by
  unfold units
  rw [h]
  rfl

/-- A finite double is the one closest to its own units. -/
theorem ofUnits_signedUnits {x : Float} (h : x.isFinite = true) :
    ofUnits (isNegative x) (signedUnits x) = x := by
  have hm := magnitude_lt h
  have hnear := nearestMagnitude_unitsOf (m := magnitude x) (d := 1) hm.le (by decide)
  rw [Nat.mul_one] at hnear
  have habs : (signedUnits x).natAbs = unitsOf (magnitude x) := by
    unfold signedUnits signed units
    split <;> simp
  have hsign : (if signedUnits x = 0 then isNegative x else decide (signedUnits x < 0)) =
      isNegative x := by
    unfold signedUnits signed
    cases isNegative x with
    | false => simp
    | true =>
        simp only [if_true]
        split
        · rfl
        · simp
          omega
  unfold ofUnits
  rw [habs, hnear, hsign, ofMagnitude_eq (isNaN_of_isFinite h)]

theorem ofUnits_of_ne_zero (zeroNegative zeroNegative' : Bool) {s : Int} (h : s ≠ 0) :
    ofUnits zeroNegative s = ofUnits zeroNegative' s := by
  unfold ofUnits
  rw [if_neg h, if_neg h]

theorem ofModel_pack_unpack {x : Float} (h : x.isNaN = false) :
    Float.ofModel (Float.Model.pack x.toModel.unpack) = x := by
  rw [unpack_eq, ofModel_pack_unpacked _ (magnitude_le h), ofMagnitude_eq h]

theorem signedUnits_eq_zero {x : Float} (h : magnitude x = 0) : signedUnits x = 0 := by
  unfold signedUnits signed
  rw [units_eq_zero h]
  split <;> rfl

theorem signedUnits_ne_zero {x : Float} {g k : Nat} (hg : 0 < g) (h : units x = g * 2 ^ k) :
    signedUnits x ≠ 0 := by
  have hpos : 0 < units x := h ▸ Nat.mul_pos hg (Nat.two_pow_pos k)
  unfold signedUnits signed
  split <;> omega

/-- Bringing a mantissa to a lower exponent keeps its units. -/
theorem signed_shiftLeft_mul (negative : Bool) (g : Nat) {k l : Nat} (h : l ≤ k) :
    signed negative (g <<< ((k : Int) - 1074 - ((l : Int) - 1074)).toNat) * 2 ^ l =
      signed negative (g * 2 ^ k) := by
  have hshift : ((k : Int) - 1074 - ((l : Int) - 1074)).toNat = k - l := by omega
  have hpow : (2 : Int) ^ l = ((2 ^ l : Nat) : Int) := (Nat.cast_pow 2 l).symm
  rw [hshift, Nat.shiftLeft_eq, hpow, ← signed_mul, Nat.mul_assoc, ← Nat.pow_add,
    Nat.sub_add_cancel h]

theorem add_eq_pack (x y : Float) : x + y = Float.ofModel (Float.Model.pack
    (UnpackedFloat.add Format.binary64 x.toModel.unpack y.toModel.unpack)) := rfl

/-- The sum of finite doubles is the double closest to the exact sum. -/
theorem add_eq {x y : Float} (hx : x.isFinite = true) (hy : y.isFinite = true) :
    x + y = ofUnits (isNegative x && isNegative y) (signedUnits x + signedUnits y) := by
  rw [add_eq_pack]
  rcases finite_cases hx with ⟨hzx, hux⟩ | ⟨g, k, hg, _, hunits, hux⟩ <;>
    rcases finite_cases hy with ⟨hzy, huy⟩ | ⟨g', k', hg', _, hunits', huy⟩
  · -- zeros add up to a zero, which is negative if both are
    rw [hux, huy, signedUnits_eq_zero hzx, signedUnits_eq_zero hzy, add_zero, ofUnits_zero,
      ← ofModel_pack_zero]
    cases isNegative x <;> cases isNegative y <;> rfl
  · have hsum := ofModel_pack_unpack (isNaN_of_isFinite hy)
    rw [signedUnits_eq_zero hzx, zero_add,
      ofUnits_of_ne_zero _ (isNegative y) (signedUnits_ne_zero hg' hunits'), ofUnits_signedUnits hy]
    rw [huy] at hsum
    rw [hux, huy]
    exact hsum
  · have hsum := ofModel_pack_unpack (isNaN_of_isFinite hx)
    rw [signedUnits_eq_zero hzy, add_zero,
      ofUnits_of_ne_zero _ (isNegative x) (signedUnits_ne_zero hg hunits), ofUnits_signedUnits hx]
    rw [hux] at hsum
    rw [hux, huy]
    exact hsum
  · have hmin : min ((k : Int) - 1074) ((k' : Int) - 1074) = ((min k k' : Nat) : Int) - 1074 := by
      omega
    have hunit : (((min k k' : Nat) : Int) - 1074 + 1074).toNat = min k k' := by omega
    rw [hux, huy]
    simp only [UnpackedFloat.add, decreaseExponent, hmin]
    rw [ofModel_pack_normalize _ (by omega), hunit, apply_signOf, apply_signOf, add_mul,
      signed_shiftLeft_mul _ _ (Nat.min_le_left k k'),
      signed_shiftLeft_mul _ _ (Nat.min_le_right k k'), ← hunits, ← hunits']
    -- two numbers of one sign do not cancel out
    by_cases h0 : signedUnits x + signedUnits y = 0
    · have hne := signedUnits_ne_zero hg hunits
      have hsign : (isNegative x && isNegative y) = false := by
        unfold signedUnits signed at h0 hne
        cases hnx : isNegative x <;> cases hny : isNegative y <;> simp [hnx, hny] at h0 hne ⊢
        omega
      rw [hsign]
      rfl
    · exact ofUnits_of_ne_zero _ _ h0

/-! ### Products and quotients -/

theorem mul_signOf (negative negative' : Bool) :
    signOf negative * signOf negative' = signOf (negative != negative') := by
  cases negative <;> cases negative' <;> rfl

theorem div_signOf (negative negative' : Bool) :
    signOf negative / signOf negative' = signOf (negative != negative') := by
  cases negative <;> cases negative' <;> rfl

theorem mul_eq_pack (x y : Float) : x * y = Float.ofModel (Float.Model.pack
    (UnpackedFloat.mul Format.binary64 x.toModel.unpack y.toModel.unpack)) := rfl

theorem div_eq_pack (x y : Float) : x / y = Float.ofModel (Float.Model.pack
    (UnpackedFloat.div Format.binary64 x.toModel.unpack y.toModel.unpack)) := rfl

/-- The product of finite doubles is the double closest to the exact product. -/
theorem mul_eq {x y : Float} (hx : x.isFinite = true) (hy : y.isFinite = true) :
    x * y = ofMagnitude (isNegative x != isNegative y)
      (nearestMagnitude (units x * units y) unitsInOne) := by
  rw [mul_eq_pack]
  rcases finite_cases hx with ⟨hzx, hux⟩ | ⟨g, k, hg, hfit, hunits, hux⟩ <;>
    rcases finite_cases hy with ⟨hzy, huy⟩ | ⟨g', k', hg', hfit', hunits', huy⟩ <;>
    rw [hux, huy] <;> simp only [UnpackedFloat.mul, mul_signOf]
  · rw [units_eq_zero hzx, zero_mul, nearestMagnitude_zero unitsInOne_pos, ofModel_pack_zero]
  · rw [units_eq_zero hzx, zero_mul, nearestMagnitude_zero unitsInOne_pos, ofModel_pack_zero]
  · rw [units_eq_zero hzy, mul_zero, nearestMagnitude_zero unitsInOne_pos, ofModel_pack_zero]
  · have hlog : (k : Int) - 1074 + ((k' : Int) - 1074) ≤
        max (((g * g').log2 : Int) + ((k : Int) - 1074 + ((k' : Int) - 1074)) - 52) (-1074) := by
      have hone : 1 ≤ g ∧ 1 ≤ g' := ⟨hg, hg'⟩
      have hlarge : 2 ^ 52 ≤ g ∨ 2 ^ 52 ≤ g' → 52 ≤ (g * g').log2 := by
        intro h
        refine (Nat.le_log2 (Nat.mul_ne_zero hg.ne' hg'.ne')).2 ?_
        rcases h with h | h
        · exact h.trans (Nat.le_mul_of_pos_right _ hg')
        · exact h.trans (Nat.le_mul_of_pos_left _ hg)
      rcases hfit with h | h <;> rcases hfit' with h' | h' <;> omega
    rw [ofModel_pack_roundWithAccuracy_exact _ _ hlog, hunits, hunits']
    set a := ((k : Int) - 1074 + ((k' : Int) - 1074) + 1074).toNat with ha
    set b := (-((k : Int) - 1074 + ((k' : Int) - 1074) + 1074)).toNat with hb
    have hpow : 2 ^ a * unitsInOne = 2 ^ k * 2 ^ k' * 2 ^ b := by
      rw [two_pow_mul_unitsInOne, ← Nat.pow_add, ← Nat.pow_add]
      congr 1
      omega
    refine congrArg _ ?_
    apply nearestMagnitude_congr (Nat.two_pow_pos _) unitsInOne_pos
    rw [Nat.mul_assoc, hpow]
    ring

/-- A dividend is shifted far enough for the quotient to have 53 bits. -/
theorem two_pow_le_shifted_div {g g' : Nat} (hg : 0 < g) (hg' : 0 < g') {s : Nat}
    (hs : g'.log2 + 53 ≤ g.log2 + s) : 2 ^ 52 ≤ g * 2 ^ s / g' := by
  rw [Nat.le_div_iff_mul_le hg']
  calc 2 ^ 52 * g' ≤ 2 ^ 52 * 2 ^ (g'.log2 + 1) :=
        Nat.mul_le_mul_left _ Nat.lt_log2_self.le
    _ = 2 ^ (g'.log2 + 53) := by rw [← Nat.pow_add]; congr 1; omega
    _ ≤ 2 ^ (g.log2 + s) := Nat.pow_le_pow_right (by decide) hs
    _ = 2 ^ g.log2 * 2 ^ s := Nat.pow_add _ _ _
    _ ≤ g * 2 ^ s := Nat.mul_le_mul_right _ (Nat.log2_self_le hg.ne')

/-- The quotient of finite doubles is the double closest to the exact quotient. -/
theorem div_eq {x y : Float} (hx : x.isFinite = true) (hy : y.isFinite = true)
    (h0 : magnitude y ≠ 0) :
    x / y = ofMagnitude (isNegative x != isNegative y)
      (nearestMagnitude (units x * unitsInOne) (units y)) := by
  rw [div_eq_pack]
  rcases finite_cases hy with ⟨hzy, _⟩ | ⟨g', k', hg', _, hunits', huy⟩
  · exact absurd hzy h0
  · have hpos : 0 < units y := hunits' ▸ Nat.mul_pos hg' (Nat.two_pow_pos k')
    rcases finite_cases hx with ⟨hzx, hux⟩ | ⟨g, k, hg, _, hunits, hux⟩
    · rw [hux, huy, units_eq_zero hzx, zero_mul, nearestMagnitude_zero hpos]
      simp only [UnpackedFloat.div, div_signOf]
      exact ofModel_pack_zero _
    · rw [hux, huy]
      simp only [UnpackedFloat.div, div_signOf, divCore]
      have htarget : Format.binary64.targetExponent
          (totalExponent g ((k : Int) - 1074) - totalExponent g' ((k' : Int) - 1074)) =
          max ((g.log2 : Int) - g'.log2 + k - k' - 53) (-1074) := by
        unfold Format.targetExponent totalExponent
        change max ((g.log2 : Int) + 1 + (k - 1074) - (g'.log2 + 1 + (k' - 1074)) - (53 : Nat))
          (3 - 2 ^ 10 - (53 : Nat)) = _
        omega
      rw [htarget, Nat.shiftLeft_eq]
      set e := min ((k : Int) - 1074 - ((k' : Int) - 1074))
        (max ((g.log2 : Int) - g'.log2 + k - k' - 53) (-1074)) with he
      set s := ((k : Int) - 1074 - ((k' : Int) - 1074) - e).toNat with hs
      have hbits : e ≤ max (((g * 2 ^ s / g').log2 : Int) + e - 52) (-1074) := by
        by_cases hlow : e ≤ -1074
        · omega
        · have hlarge := two_pow_le_shifted_div hg hg' (s := s) (by omega)
          have hlog := (Nat.le_log2 (by omega)).2 hlarge
          omega
      rw [ofModel_pack_roundWithAccuracy _ _ hg' hbits, hunits, hunits']
      have hpow : 2 ^ s * 2 ^ (e + 1074).toNat * 2 ^ k' =
          2 ^ k * unitsInOne * 2 ^ (-(e + 1074)).toNat := by
        rw [two_pow_mul_unitsInOne, ← Nat.pow_add, ← Nat.pow_add, ← Nat.pow_add]
        congr 1
        omega
      refine congrArg _ ?_
      apply nearestMagnitude_congr (Nat.mul_pos hg' (Nat.two_pow_pos _))
        (Nat.mul_pos hg' (Nat.two_pow_pos _))
      calc g * 2 ^ s * 2 ^ (e + 1074).toNat * (g' * 2 ^ k')
          = g * g' * (2 ^ s * 2 ^ (e + 1074).toNat * 2 ^ k') := by ring
        _ = g * 2 ^ k * unitsInOne * (g' * 2 ^ (-(e + 1074)).toNat) := by rw [hpow]; ring

/-! ### Natural numbers -/

theorem ofModel_pack_ofInt (n : Nat) :
    Float.ofModel (Float.Model.pack (UnpackedFloat.ofInt Format.binary64 n)) =
      ofMagnitude false (nearestMagnitude (n * unitsInOne) 1) := by
  have h := ofModel_pack_normalize (n : Int) (e := 0) (by decide)
  have hone := unitsInOne_eq_two_pow (k := ((0 : Int) + 1074).toNat) (by decide)
  unfold UnpackedFloat.ofInt
  rw [h, ← Nat.cast_ofNat (R := Int), ← Nat.cast_pow, ← hone, ← Nat.cast_mul]
  unfold ofUnits
  rw [Int.natAbs_natCast, decide_eq_false (by omega)]
  split <;> rfl

/-- A number of units below those of a power of two is rounded to a finite magnitude. -/
theorem nearestMagnitude_natCast_lt {n : Nat} (h : n ≤ 2 ^ 65) :
    nearestMagnitude (n * unitsInOne) 1 < infiniteMagnitude := by
  have hm : 1088 * 2 ^ 52 + 2 ^ 52 < infiniteMagnitude := by decide
  have hunits := unitsOf_binade (k := 1088) (a := 66) rfl
  have hle : n * unitsInOne ≤ unitsOf (1088 * 2 ^ 52 + 2 ^ 52) * 1 := by
    rw [hunits, Nat.mul_one]
    exact Nat.mul_le_mul_right _ (by omega)
  calc nearestMagnitude (n * unitsInOne) 1
      ≤ nearestMagnitude (unitsOf (1088 * 2 ^ 52 + 2 ^ 52) * 1) 1 := nearestMagnitude_mono_left 1 hle
    _ = 1088 * 2 ^ 52 + 2 ^ 52 := nearestMagnitude_unitsOf hm.le (by decide)
    _ < infiniteMagnitude := hm

theorem isFinite_ofMagnitude (negative : Bool) {m : Nat} (hm : m < infiniteMagnitude) :
    (ofMagnitude negative m).isFinite = true := by
  rw [isFinite_eq, magnitude_ofMagnitude _ hm.le, decide_eq_true hm]

/-- Multiplying a finite double by one changes nothing. -/
theorem mul_one_eq {x one : Float} (hx : x.isFinite = true) (hone : one.isFinite = true)
    (hn : isNegative one = false) (hu : units one = unitsInOne) : x * one = x := by
  have hm := magnitude_lt hx
  rw [mul_eq hx hone, hn, hu, Bool.bne_false, units, nearestMagnitude_unitsOf hm.le unitsInOne_pos,
    ofMagnitude_eq (isNaN_of_isFinite hx)]

/-- The bit pattern of one. -/
def oneBits : UInt64 := 0x3FF0000000000000

theorem units_oneBits : units (Float.ofBits oneBits) = unitsInOne := by
  have hm : magnitude (Float.ofBits oneBits) = 1022 * 2 ^ 52 + 2 ^ 52 := by decide
  rw [units, hm, unitsOf_one]

theorem mul_finite_finite (sign sign' : Sign) {m m' : Nat} (e e' : Int) (hm : 0 < m)
    (hm' : 0 < m') :
    UnpackedFloat.mul Format.binary64 (.finite sign m e hm) (.finite sign' m' e' hm') =
      roundWithAccuracy Format.binary64 (sign * sign') (m * m') (e + e') .exact := rfl

theorem ofScientific_zero_exponent {n : Nat} (hn : n ≠ 0) :
    UnpackedFloat.ofScientific Format.binary64 n 0 =
      roundWithAccuracy Format.binary64 (signOf false) (n * 2 ^ 53) (-53) .exact := by
  have hpow : (0 : Int) < 2 ^ Format.binary64.exponentBits := by positivity
  have hbits : Format.binary64.mantissaBits = 53 := rfl
  unfold UnpackedFloat.ofScientific
  rw [dif_neg hn, if_neg (by omega), if_neg (by omega), if_pos (le_refl _), mul_finite_finite]
  rw [hbits, Nat.shiftLeft_eq, Int.toNat_zero, Nat.pow_zero, Nat.mul_one, add_zero]
  rfl

/-- The double of a natural number is the one closest to it. -/
theorem ofNat_eq (n : Nat) :
    Float.ofNat n = ofMagnitude false (nearestMagnitude (n * unitsInOne) 1) := by
  change Float.ofScientific n false 0 = _
  unfold Float.ofScientific
  by_cases h : n < 2 ^ 53 ∧ 0 ≤ 22
  · rw [dif_pos h]
    have htoNat : n.toUInt64.toNat = n := by
      rw [Nat.toUInt64, UInt64.toNat_ofNat']
      omega
    have hcast : n.toUInt64.toFloat = ofMagnitude false (nearestMagnitude (n * unitsInOne) 1) := by
      refine Eq.trans ?_ (ofModel_pack_ofInt n)
      change Float.ofModel (Float.Model.pack (UnpackedFloat.ofInt _ (n.toUInt64.toNat : Int))) = _
      rw [htoNat]
    have hfinite : (ofMagnitude false (nearestMagnitude (n * unitsInOne) 1)).isFinite = true :=
      isFinite_ofMagnitude false (nearestMagnitude_natCast_lt (by omega))
    have hone : (Float.ofBits oneBits).isFinite = true := by decide
    change n.toUInt64.toFloat * Float.ofBits oneBits = _
    rw [hcast, mul_one_eq hfinite hone (by decide) units_oneBits]
  · rw [dif_neg h]
    have hn : n ≠ 0 := by omega
    have hlog := log2_mul_two_pow hn 53
    have hone := unitsInOne_eq_two_pow (k := 53 + ((-53 : Int) + 1074).toNat) (by decide)
    have hround := ofModel_pack_roundWithAccuracy_exact false (n * 2 ^ 53) (e := -53) (by omega)
    rw [← ofScientific_zero_exponent hn] at hround
    refine Eq.trans hround ?_
    rw [Nat.mul_assoc, ← Nat.pow_add, ← hone]
    rfl

end EvalCharts.Double
