/-
Module: EvalCharts.Proofs.Double.Fields
Purpose: The fields of a double. A magnitude is a significand at a scale, its number of units is their
  product, and the unpacked form that the arithmetic of doubles works on is made of the same two
  numbers.
Main exports: significand, scale, scale_mul_add_significand, unitsOf_eq, unpacked, unpack_eq,
  toNat_pack_finite, toBits_ofMagnitude, ext_magnitude
-/
import EvalCharts.Double.Nearest
import Mathlib

namespace EvalCharts.Double

open Float.Model Float.Model.UnpackedFloat

/-- The significand of a magnitude, with its leading bit unless the magnitude is subnormal. -/
def significand (magnitude : Nat) : Nat :=
  if magnitude / 2 ^ 52 = 0 then magnitude % 2 ^ 52 else 2 ^ 52 + magnitude % 2 ^ 52

/-- How many times the least unit is doubled before the significand counts it. -/
def scale (magnitude : Nat) : Nat :=
  magnitude / 2 ^ 52 - 1

theorem scale_mul_add_significand (magnitude : Nat) :
    scale magnitude * 2 ^ 52 + significand magnitude = magnitude := by
  unfold scale significand
  split <;> omega

theorem significand_lt (magnitude : Nat) : significand magnitude < 2 ^ 53 := by
  unfold significand
  split <;> omega

/-- Only the least scale has significands without their leading bit. -/
theorem scale_eq_zero_or_le (magnitude : Nat) :
    scale magnitude = 0 ∨ 2 ^ 52 ≤ significand magnitude := by
  unfold scale significand
  split <;> omega

theorem unitsOf_eq (magnitude : Nat) :
    unitsOf magnitude = significand magnitude * 2 ^ scale magnitude := by
  unfold unitsOf significand scale
  by_cases h : magnitude / 2 ^ 52 = 0
  · simp only [h, if_true, Nat.zero_sub, Nat.pow_zero, Nat.mul_one]
  · simp only [h, if_false]

theorem significand_eq_zero {magnitude : Nat} : significand magnitude = 0 ↔ magnitude = 0 := by
  have h := scale_mul_add_significand magnitude
  constructor
  · intro hs
    rcases scale_eq_zero_or_le magnitude with h0 | hle <;> omega
  · intro hm
    omega

/-- A scale and a significand that fits it are those of their magnitude. -/
theorem fields_unique {k g : Nat} (hg : g < 2 ^ 53) (hk : k = 0 ∨ 2 ^ 52 ≤ g) :
    scale (k * 2 ^ 52 + g) = k ∧ significand (k * 2 ^ 52 + g) = g := by
  have h := scale_mul_add_significand (k * 2 ^ 52 + g)
  have hlt := significand_lt (k * 2 ^ 52 + g)
  rcases scale_eq_zero_or_le (k * 2 ^ 52 + g) with h0 | hle <;> rcases hk with hk | hk <;> omega

/-! ### The unpacked form -/

/-- The sign of a sign bit. -/
def signOf (negative : Bool) : Sign :=
  if negative then .negative else .positive

/-- The unpacked form of the double with a given sign and magnitude. -/
def unpacked (negative : Bool) (magnitude : Nat) : UnpackedFloat :=
  if infiniteMagnitude < magnitude then .notANumber
  else if magnitude = infiniteMagnitude then .infinity (signOf negative)
  else if h : significand magnitude = 0 then .zero (signOf negative)
  else .finite (signOf negative) (significand magnitude) (scale magnitude - 1074)
    (Nat.pos_of_ne_zero h)

theorem toNat_unpackMantissa (b : BitVec Format.binary64.numBits) :
    (unpackMantissa b).toNat = b.toNat % 2 ^ 52 := by
  simp [unpackMantissa]

theorem toNat_unpackExponent (b : BitVec Format.binary64.numBits) :
    (unpackExponent b).toNat = b.toNat / 2 ^ 52 % 2 ^ 11 := by
  simp [unpackExponent, Nat.shiftRight_eq_div_pow]

theorem toNat_unpackSign (b : BitVec Format.binary64.numBits) :
    (unpackSign b).toNat = b.toNat / 2 ^ 63 := by
  have h : b.toNat < 2 ^ 64 := b.isLt
  simp [unpackSign, Nat.shiftRight_eq_div_pow]
  omega

theorem ofBitVec_unpackSign (b : BitVec Format.binary64.numBits) :
    Sign.ofBitVec (unpackSign b) = signOf (decide (2 ^ 63 ≤ b.toNat)) := by
  have h : b.toNat < 2 ^ 64 := b.isLt
  have hs := toNat_unpackSign b
  by_cases hb : 2 ^ 63 ≤ b.toNat
  · have : unpackSign b ≠ 0#1 := by
      intro h0
      rw [h0] at hs
      simp at hs
      omega
    rw [decide_eq_true hb]
    simp [Sign.ofBitVec, signOf, this]
  · have : unpackSign b = 0#1 := by
      apply BitVec.eq_of_toNat_eq
      rw [hs]
      simp
      omega
    rw [decide_eq_false hb]
    simp [Sign.ofBitVec, signOf, this]

/-- The fields of a bit pattern decide which constructor it unpacks to. -/
theorem unpack_of_fields {b : BitVec Format.binary64.numBits} {negative : Bool} {m : Nat}
    (hs : Sign.ofBitVec (unpackSign b) = signOf negative)
    (he : (unpackExponent b).toNat = m / 2 ^ 52) (hm : (unpackMantissa b).toNat = m % 2 ^ 52) :
    UnpackedFloat.unpack Format.binary64 b = unpacked negative m := by
  have hones : unpackExponent b = -1#_ ↔ infiniteMagnitude ≤ m := by
    rw [← BitVec.toNat_inj, he]
    have := (unpackExponent b).isLt
    simp [infiniteMagnitude] at this ⊢
    omega
  have hzero : unpackExponent b = 0#_ ↔ m < 2 ^ 52 := by
    rw [← BitVec.toNat_inj, he]
    simp
  have hmant : unpackMantissa b = 0#_ ↔ m % 2 ^ 52 = 0 := by
    rw [← BitVec.toNat_inj, hm]
    simp
  have hlt : m / 2 ^ 52 < 2 ^ 11 := he ▸ (unpackExponent b).isLt
  unfold UnpackedFloat.unpack unpacked
  dsimp only
  rw [hs]
  by_cases hinf : infiniteMagnitude ≤ m
  · rw [if_pos (hones.2 hinf)]
    by_cases h0 : m = infiniteMagnitude
    · rw [if_pos (hmant.2 (by rw [h0]; rfl)), if_neg (by omega), if_pos h0]
    · have : ¬ m % 2 ^ 52 = 0 := by
        unfold infiniteMagnitude at hinf h0
        omega
      rw [if_neg (mt hmant.1 this), if_pos (by omega)]
  · have hlt' : ¬infiniteMagnitude < m := by omega
    have hne : ¬m = infiniteMagnitude := by omega
    rw [if_neg (mt hones.1 hinf), if_neg hlt', if_neg hne]
    by_cases hz : m < 2 ^ 52
    · rw [if_pos (hzero.2 hz)]
      have hsig : significand m = m % 2 ^ 52 := by
        unfold significand
        rw [if_pos (by omega)]
      by_cases h0 : m % 2 ^ 52 = 0
      · rw [dif_pos (hmant.2 h0), dif_pos (by omega)]
      · rw [dif_neg (mt hmant.1 h0), dif_neg (by omega)]
        simp only [UnpackedFloat.finite.injEq, true_and]
        refine ⟨by omega, ?_⟩
        rw [he]
        unfold scale
        change ((m / 2 ^ 52 : Nat) : Int) - ((1023 : Nat) + (52 : Nat)) + 1 = _
        omega
    · rw [if_neg (mt hzero.1 hz)]
      have hsig : significand m = 2 ^ 52 + m % 2 ^ 52 := by
        unfold significand
        rw [if_neg (by omega)]
      rw [dif_neg (by omega)]
      simp only [UnpackedFloat.finite.injEq, true_and]
      refine ⟨?_, ?_⟩
      · rw [BitVec.toNat_append, ← Nat.shiftLeft_add_eq_or_of_lt (unpackMantissa b).isLt, hm, hsig]
        rfl
      · rw [he]
        unfold scale
        change ((m / 2 ^ 52 : Nat) : Int) - ((1023 : Nat) + (52 : Nat)) = _
        omega

theorem unpack_eq (x : Float) : x.toModel.unpack = unpacked (isNegative x) (magnitude x) := by
  have hlt : x.toBits.toNat < 2 ^ 64 := x.toBits.toNat_lt
  apply unpack_of_fields
  · exact ofBitVec_unpackSign _
  · rw [toNat_unpackExponent]
    change x.toBits.toNat / 2 ^ 52 % 2 ^ 11 = x.toBits.toNat % 2 ^ 63 / 2 ^ 52
    omega
  · rw [toNat_unpackMantissa]
    change x.toBits.toNat % 2 ^ 52 = x.toBits.toNat % 2 ^ 63 % 2 ^ 52
    omega

/-! ### Packing -/

/-- What the sign bit adds to a bit pattern. -/
def signBit (negative : Bool) : Nat :=
  if negative then 2 ^ 63 else 0

theorem toNat_packComponents (negative : Bool) (e : BitVec 11) (f : BitVec 52) :
    (packComponents Format.binary64 (signOf negative) e f).toNat =
      signBit negative + e.toNat * 2 ^ 52 + f.toNat := by
  have he := e.isLt
  have hf := f.isLt
  unfold packComponents
  rw [BitVec.toNat_append, ← Nat.shiftLeft_add_eq_or_of_lt hf, BitVec.toNat_append,
    ← Nat.shiftLeft_add_eq_or_of_lt he, Nat.shiftLeft_eq, Nat.shiftLeft_eq]
  cases negative with
  | false =>
      simp [signOf, Sign.toBitVec, signBit]
  | true =>
      simp [signOf, Sign.toBitVec, signBit]
      omega

/-- A finite unpacked double is packed into the magnitude of its fields, or into an infinity if that
    magnitude is too large. -/
theorem toNat_pack_finite (negative : Bool) {k g : Nat} (hg : 0 < g) (hlt : g < 2 ^ 53)
    (hfit : k = 0 ∨ 2 ^ 52 ≤ g) :
    (UnpackedFloat.pack Format.binary64 (.finite (signOf negative) g ((k : Int) - 1074) hg)).toNat =
      signBit negative + min (k * 2 ^ 52 + g) infiniteMagnitude := by
  have hbias : ((k : Int) - 1074 + Format.binary64.exponentBias +
      Format.binary64.mantissaBitsWithoutImplicit).toNat = k + 1 := by
    change ((k : Int) - 1074 + (1023 : Nat) + (52 : Nat)).toNat = k + 1
    omega
  have hbits : Format.binary64.mantissaBits = 53 := rfl
  unfold UnpackedFloat.pack
  simp only [hbias, hbits]
  by_cases hover : 2046 ≤ k
  · -- an exponent field of ones leaves no room for the significand
    rw [if_pos (by omega)]
    have hmin : min (k * 2 ^ 52 + g) infiniteMagnitude = infiniteMagnitude := by
      unfold infiniteMagnitude
      omega
    rw [hmin]
    exact toNat_packComponents negative _ _
  · rw [if_neg (by omega)]
    have hmin : min (k * 2 ^ 52 + g) infiniteMagnitude = k * 2 ^ 52 + g := by
      unfold infiniteMagnitude
      omega
    rw [hmin]
    by_cases hnormal : 2 ^ 52 ≤ g
    · have hlog : g.log2 = 52 := (Nat.log2_eq_iff (by omega)).2 ⟨hnormal, hlt⟩
      rw [if_pos (by rw [hlog])]
      refine (toNat_packComponents negative _ _).trans ?_
      simp only [BitVec.toNat_ofNat]
      omega
    · have hlog : g.log2 < 52 := (Nat.log2_lt (by omega)).2 (by omega)
      rw [if_neg (by omega)]
      refine (toNat_packComponents negative _ _).trans ?_
      simp only [BitVec.toNat_ofNat]
      omega

/-- What packing an unpacked double gives back. -/
theorem toNat_pack_unpacked (negative : Bool) {m : Nat} (hm : m ≤ infiniteMagnitude) :
    (UnpackedFloat.pack Format.binary64 (unpacked negative m)).toNat = signBit negative + m := by
  unfold unpacked
  rw [if_neg (by omega)]
  by_cases hinf : m = infiniteMagnitude
  · rw [if_pos hinf, hinf]
    exact toNat_packComponents negative _ _
  · rw [if_neg hinf]
    by_cases h0 : significand m = 0
    · rw [dif_pos h0, significand_eq_zero.1 h0]
      exact toNat_packComponents negative _ _
    · rw [dif_neg h0, toNat_pack_finite negative _ (significand_lt m) (scale_eq_zero_or_le m),
        scale_mul_add_significand]
      omega

/-! ### Doubles and their magnitudes -/

/-- A double is its bit pattern. -/
theorem ext_toBits {x y : Float} (h : x.toBits.toNat = y.toBits.toNat) : x = y := by
  obtain ⟨⟨bits, _⟩⟩ := x
  obtain ⟨⟨bits', _⟩⟩ := y
  have hbits : bits = bits' := UInt64.toNat_inj.1 h
  subst hbits
  rfl

theorem toBits_eq (x : Float) : x.toBits.toNat = signBit (isNegative x) + magnitude x := by
  have hlt : x.toBits.toNat < 2 ^ 64 := x.toBits.toNat_lt
  unfold signBit isNegative magnitude
  by_cases h : 2 ^ 63 ≤ x.toBits.toNat
  · simp only [h, decide_true, if_true]
    omega
  · simp only [h, decide_false, Bool.false_eq_true, if_false]
    omega

/-- A double is its sign and its magnitude. -/
theorem ext_magnitude {x y : Float} (hs : isNegative x = isNegative y)
    (hm : magnitude x = magnitude y) : x = y := by
  apply ext_toBits
  rw [toBits_eq, toBits_eq, hs, hm]

/-- The sign bit is the one that reaches half of all bit patterns. -/
theorem decide_le_signBit_add (negative : Bool) {m : Nat} (hm : m ≤ infiniteMagnitude) :
    decide (2 ^ 63 ≤ signBit negative + m) = negative := by
  have hle : m ≤ 2047 * 2 ^ 52 := hm
  unfold signBit
  cases negative with
  | false => exact decide_eq_false (by simp only [Bool.false_eq_true, if_false]; omega)
  | true => exact decide_eq_true (by simp only [if_true]; omega)

theorem toBits_ofMagnitude (negative : Bool) {m : Nat} (hm : m ≤ infiniteMagnitude) :
    (ofMagnitude negative m).toBits.toNat = signBit negative + m := by
  have hle : m ≤ 2047 * 2 ^ 52 := hm
  have hn : (UInt64.ofNat (if negative then 2 ^ 63 + m else m)).toBitVec.toNat =
      signBit negative + m := by
    change (UInt64.ofNat (if negative then 2 ^ 63 + m else m)).toNat = _
    unfold signBit
    rw [UInt64.toNat_ofNat']
    cases negative with
    | false => simp only [Bool.false_eq_true, if_false]; omega
    | true => simp only [if_true]; omega
  have hunpack : UnpackedFloat.unpack Format.binary64
      (UInt64.ofNat (if negative then 2 ^ 63 + m else m)).toBitVec = unpacked negative m := by
    apply unpack_of_fields
    · rw [ofBitVec_unpackSign, hn, decide_le_signBit_add negative hm]
    · rw [toNat_unpackExponent, hn]
      unfold signBit
      split <;> omega
    · rw [toNat_unpackMantissa, hn]
      unfold signBit
      split <;> omega
  change (UnpackedFloat.pack Format.binary64 (UnpackedFloat.unpack Format.binary64 _)).toNat = _
  rw [hunpack, toNat_pack_unpacked negative hm]

@[simp]
theorem magnitude_ofMagnitude (negative : Bool) {m : Nat} (hm : m ≤ infiniteMagnitude) :
    magnitude (ofMagnitude negative m) = m := by
  have hle : m ≤ 2047 * 2 ^ 52 := hm
  unfold magnitude
  rw [toBits_ofMagnitude negative hm]
  unfold signBit
  split <;> omega

@[simp]
theorem isNegative_ofMagnitude (negative : Bool) {m : Nat} (hm : m ≤ infiniteMagnitude) :
    isNegative (ofMagnitude negative m) = negative := by
  unfold isNegative
  rw [toBits_ofMagnitude negative hm]
  exact decide_le_signBit_add negative hm

/-- Packing a finite unpacked double gives the double of its magnitude. -/
theorem ofModel_pack_finite (negative : Bool) {k g : Nat} (hg : 0 < g) (hlt : g < 2 ^ 53)
    (hfit : k = 0 ∨ 2 ^ 52 ≤ g) :
    Float.ofModel (Float.Model.pack (.finite (signOf negative) g ((k : Int) - 1074) hg)) =
      ofMagnitude negative (min (k * 2 ^ 52 + g) infiniteMagnitude) := by
  apply ext_toBits
  rw [toBits_ofMagnitude negative (Nat.min_le_right _ _)]
  exact toNat_pack_finite negative hg hlt hfit

/-- The unpacked form has one form for every double that is not a NaN. -/
theorem ofModel_pack_unpacked (negative : Bool) {m : Nat} (hm : m ≤ infiniteMagnitude) :
    Float.ofModel (Float.Model.pack (unpacked negative m)) = ofMagnitude negative m := by
  apply ext_toBits
  rw [toBits_ofMagnitude negative hm]
  exact toNat_pack_unpacked negative hm

theorem ofModel_pack_zero (negative : Bool) :
    Float.ofModel (Float.Model.pack (.zero (signOf negative))) = ofMagnitude negative 0 :=
  ofModel_pack_unpacked negative (Nat.zero_le _)

/-! ### Kinds of doubles -/

theorem isNaN_eq (x : Float) : x.isNaN = decide (infiniteMagnitude < magnitude x) := by
  change x.toModel.unpack.isNaN = _
  rw [unpack_eq]
  unfold unpacked
  split
  · simp [UnpackedFloat.isNaN, *]
  · split
    · simp [UnpackedFloat.isNaN, *]
    · split <;> simp [UnpackedFloat.isNaN, *]

theorem isFinite_eq (x : Float) : x.isFinite = decide (magnitude x < infiniteMagnitude) := by
  change x.toModel.unpack.isFinite = _
  rw [unpack_eq]
  unfold unpacked
  split
  · simp [UnpackedFloat.isFinite]; omega
  · split
    · simp [UnpackedFloat.isFinite, *]
    · split <;> simp [UnpackedFloat.isFinite, *] <;> omega

/-- The bit pattern that stands for NaN. -/
theorem toBits_of_isNaN {x : Float} (h : x.isNaN = true) :
    x.toModel.toBits.toBitVec = packedNaN Format.binary64 := by
  rw [isNaN_eq, decide_eq_true_eq] at h
  have hlt : x.toBits.toNat < 2 ^ 64 := x.toBits.toNat_lt
  have hfields : magnitude x / 2 ^ 52 = 2047 ∧ magnitude x % 2 ^ 52 ≠ 0 := by
    unfold magnitude infiniteMagnitude at *
    omega
  apply x.toModel.valid.eq_packedNaN
  · apply BitVec.eq_of_toNat_eq
    rw [toNat_unpackExponent]
    change x.toBits.toNat / 2 ^ 52 % 2 ^ 11 = 2047
    unfold magnitude at hfields
    omega
  · intro hzero
    have hm := congrArg BitVec.toNat hzero
    rw [toNat_unpackMantissa] at hm
    change x.toBits.toNat % 2 ^ 52 = 0 at hm
    unfold magnitude at hfields
    omega

/-- There is one NaN. -/
theorem eq_of_isNaN {x y : Float} (hx : x.isNaN = true) (hy : y.isNaN = true) : x = y := by
  apply ext_toBits
  exact congrArg BitVec.toNat ((toBits_of_isNaN hx).trans (toBits_of_isNaN hy).symm)

/-- A double that is not a NaN has at most the magnitude of the infinities. -/
theorem magnitude_le {x : Float} (h : x.isNaN = false) : magnitude x ≤ infiniteMagnitude := by
  rw [isNaN_eq, decide_eq_false_iff_not] at h
  omega

theorem magnitude_lt {x : Float} (h : x.isFinite = true) : magnitude x < infiniteMagnitude := by
  rwa [isFinite_eq, decide_eq_true_eq] at h

theorem isNaN_of_isFinite {x : Float} (h : x.isFinite = true) : x.isNaN = false := by
  rw [isNaN_eq, decide_eq_false_iff_not]
  have := magnitude_lt h
  omega

/-- A double that is not a NaN is put together from its sign and its magnitude. -/
theorem ofMagnitude_eq {x : Float} (h : x.isNaN = false) :
    ofMagnitude (isNegative x) (magnitude x) = x := by
  have hm := magnitude_le h
  exact ext_magnitude (isNegative_ofMagnitude _ hm) (magnitude_ofMagnitude _ hm)

end EvalCharts.Double
