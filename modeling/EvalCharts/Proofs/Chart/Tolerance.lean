/-
Module: EvalCharts.Proofs.Chart.Tolerance
Purpose: Which coordinates are taken for the middle of a slot. They are those within a millionth of its index,
  since the distance to the closest whole number is not rounded; and besides them there is NaN, which passes
  for the middle of the first slot.
Main exports: millionth_lt_abs_iff, categoryAt?_of_isFinite, categoryAt?_of_isNaN, categoryAt?_eq_some_iff
-/
import EvalCharts.Proofs.Chart.Slots
import EvalCharts.Proofs.Double.Halves

namespace EvalCharts

/-! ### The tolerance -/

namespace Double

theorem toReal_abs {x : Float} (hx : x.isFinite = true) : x.abs.isFinite = true ∧ toReal x.abs = |toReal x| := by
  have hm := magnitude_lt hx
  have hworth := worth_nonneg (magnitude x)
  rw [abs_eq (isNaN_of_isFinite hx), toReal_ofMagnitude _ hm.le, if_neg Bool.false_ne_true]
  refine ⟨isFinite_ofMagnitude false hm, ?_⟩
  cases hsign : isNegative x with
  | false => rw [toReal_eq_worth hsign, abs_of_nonneg hworth]
  | true =>
      have hvalue : toReal x = -worth (magnitude x) := toReal_of_isNegative hsign
      rw [hvalue, abs_neg, abs_of_nonneg hworth]

/-- No double lies between a millionth and the double that is closest to it. -/
theorem worth_millionth :
    worth (magnitude 1e-6) ≤ 1 / 10 ^ 6 ∧ (1 / 10 ^ 6 : ℝ) < worth (magnitude 1e-6 + 1) := by
  have hlow : unitsOf (magnitude 1e-6) * 10 ^ 6 ≤ 1 * unitsInOne := by decide +kernel
  have hhigh : 1 * unitsInOne < unitsOf (magnitude 1e-6 + 1) * 10 ^ 6 := by decide +kernel
  have hpos := unitsInOne_cast_pos
  unfold worth
  generalize unitsOf (magnitude 1e-6) = low at hlow ⊢
  generalize unitsOf (magnitude 1e-6 + 1) = high at hhigh ⊢
  rw [div_le_div_iff₀ hpos (by positivity), div_lt_div_iff₀ (by positivity) hpos]
  exact ⟨by exact_mod_cast hlow, by exact_mod_cast hhigh⟩

/-- A double is farther away from zero than a millionth if it is so as a number. -/
theorem millionth_lt_abs_iff {x : Float} (hx : x.isFinite = true) :
    (1e-6 : Float) < x.abs ↔ 1 / 10 ^ 6 < |toReal x| := by
  obtain ⟨hfinite, hvalue⟩ := toReal_abs hx
  obtain ⟨hlow, hhigh⟩ := worth_millionth
  have hsign : isNegative 1e-6 = false := by decide
  rw [← hvalue]
  constructor
  · intro hlt
    exact hhigh.trans_le (worth_succ_le hsign hfinite hlt)
  · intro hlt
    rw [← toReal_lt_iff (by decide) hfinite, toReal_eq_worth hsign]
    exact hlow.trans_lt hlt

theorem isNaN_sub_of_isNaN {x : Float} (h : x.isNaN = true) (y : Float) : (x - y).isNaN = true := by
  have hsub : x - y = Float.ofModel (Float.Model.pack
      (Float.Model.UnpackedFloat.sub Float.Model.Format.binary64 x.toModel.unpack y.toModel.unpack)) := rfl
  rw [hsub, unpack_of_isNaN h]
  exact (by decide : (Float.ofModel (Float.Model.pack .notANumber)).isNaN = true)

end Double

/-! ### Coordinates that are numbers -/

section Frame

variable {frame : Frame} (hlength : frame.categories.length < 2 ^ 64)

include hlength

/-- The category at a finite coordinate is that of the closest index, if it is within the tolerance. -/
theorem categoryAt?_of_isFinite {x : Float} (hx : x.isFinite = true) :
    ∃ n : Int, |Double.toReal x - n| ≤ 1 / 2 ∧
      frame.categoryAt? x =
        if 1 / 10 ^ 6 < |Double.toReal x - n| ∨ n < 0 then none else frame.categories[n.toNat]? := by
  obtain ⟨hfinite, n, hround, hvalue, hclose⟩ := Double.sub_round hx
  refine ⟨n, hclose, ?_⟩
  have hbelow : Double.round x < 0.0 ↔ n < 0 := by
    rw [hround.lt_iff Double.isHalves_zero]
    omega
  have hindex : Double.toInt 0 (2 ^ 64 - 1) (Double.round x) = max 0 (min (2 ^ 64 - 1) n) :=
    Double.toInt_eq_clamp hround.finite (Double.isHalves_two_mul_iff.1 hround).2 _ _
  have hcategory : frame.categories[(max 0 (min (2 ^ 64 - 1) n)).toNat]? = frame.categories[n.toNat]? := by
    by_cases hn : n < 2 ^ 64
    · congr 1
      omega
    · -- an index that is cut off is beyond all categories
      rw [List.getElem?_eq_none (by omega), List.getElem?_eq_none (by omega)]
  simp only [Frame.categoryAt?, Double.millionth_lt_abs_iff hfinite, hvalue, hbelow, hindex, hcategory]

/-- Nothing stands at an infinity: negative infinity is below all slots, and positive infinity beyond them. -/
theorem categoryAt?_of_infinite {x : Float} (hnum : x.isNaN = false) (hx : x.isFinite = false) :
    frame.categoryAt? x = none := by
  have hinfinite : x = Double.ofMagnitude (Double.isNegative x) Double.infiniteMagnitude := by
    rw [← Double.magnitude_of_infinite hnum hx, Double.ofMagnitude_eq hnum]
  rw [hinfinite]
  cases Double.isNegative x with
  | true =>
      have hbelow : Double.round (Double.ofMagnitude true Double.infiniteMagnitude) < 0.0 := by decide
      rw [Frame.categoryAt?, if_pos (Or.inr hbelow)]
  | false =>
      have hindex : Double.toInt 0 (2 ^ 64 - 1)
          (Double.round (Double.ofMagnitude false Double.infiniteMagnitude)) = 2 ^ 64 - 1 := by decide
      have hnone : frame.categories[((2 : Int) ^ 64 - 1).toNat]? = none := List.getElem?_eq_none (by omega)
      simp only [Frame.categoryAt?, hindex, hnone, ite_self]

end Frame

/-! ### NaN -/

/-- Neither comparison that guards against other coordinates holds of NaN, and NaN is turned into zero. -/
theorem categoryAt?_of_isNaN {frame : Frame} {x : Float} (hx : x.isNaN = true) :
    frame.categoryAt? x = frame.categories[0]? := by
  obtain rfl : x = 0.0 / 0.0 := Double.eq_of_isNaN hx (by decide)
  have hguards : ¬((1e-6 : Float) < ((0.0 / 0.0 : Float) - Double.round (0.0 / 0.0)).abs ∨
      Double.round (0.0 / 0.0) < 0.0) := by
    decide
  have hindex : Double.toInt 0 (2 ^ 64 - 1) (Double.round (0.0 / 0.0)) = 0 := by decide
  rw [Frame.categoryAt?, if_neg hguards, hindex]
  rfl

/-! ### All coordinates -/

/-- An index that is near a coordinate is the one closest to it. -/
theorem eq_of_near {t : ℝ} {n : Int} {i : Nat} (hclose : |t - n| ≤ 1 / 2) (hnear : |t - i| ≤ 1 / 10 ^ 6) :
    n = i := by
  rw [abs_le] at hclose hnear
  have hlow : (n : ℝ) < i + 1 := by linarith [hclose.1, hnear.2]
  have hhigh : (i : ℝ) < n + 1 := by linarith [hclose.2, hnear.1]
  have hlow' : n < i + 1 := by exact_mod_cast hlow
  have hhigh' : (i : Int) < n + 1 := by exact_mod_cast hhigh
  omega

/-- The category at a finite coordinate is that of the index within a millionth of it. -/
theorem categoryAt?_eq_some_iff_of_isFinite {frame : Frame} (hlength : frame.categories.length < 2 ^ 64)
    {x : Float} (hx : x.isFinite = true) (category : Float) :
    frame.categoryAt? x = some category ↔
      ∃ i : Nat, |Double.toReal x - i| ≤ 1 / 10 ^ 6 ∧ frame.categories[i]? = some category := by
  obtain ⟨n, hclose, hcategoryAt⟩ := categoryAt?_of_isFinite hlength hx
  rw [hcategoryAt]
  constructor
  · intro hsome
    split at hsome
    · cases hsome
    · rename_i hguards
      obtain ⟨hnear, hnonneg⟩ := not_or.1 hguards
      obtain ⟨i, rfl⟩ := Int.eq_ofNat_of_zero_le (not_lt.1 hnonneg)
      exact ⟨i, not_lt.1 hnear, hsome⟩
  · rintro ⟨i, hnear, hcategory⟩
    obtain rfl := eq_of_near hclose hnear
    rw [Int.cast_natCast, if_neg (not_or.2 ⟨not_lt.2 hnear, not_lt.2 (Int.natCast_nonneg i)⟩)]
    exact hcategory

/-- The category at a coordinate is the one whose index is at most a millionth away from it, whichever
    coordinate it is, except that NaN has the first category. -/
theorem categoryAt?_eq_some_iff_of_length {frame : Frame} (hlength : frame.categories.length < 2 ^ 64)
    (x category : Float) :
    frame.categoryAt? x = some category ↔
      (x.isFinite = true ∧
        ∃ i : Nat, |Double.toReal x - i| ≤ 1 / 10 ^ 6 ∧ frame.categories[i]? = some category) ∨
      (x.isNaN = true ∧ frame.categories[0]? = some category) := by
  cases hnum : x.isNaN with
  | true =>
      rw [categoryAt?_of_isNaN hnum, Double.isFinite_of_isNaN hnum]
      simp
  | false =>
      cases hx : x.isFinite with
      | true =>
          rw [categoryAt?_eq_some_iff_of_isFinite hlength hx]
          simp
      | false =>
          rw [categoryAt?_of_infinite hlength hnum hx]
          simp

/-- This holds of every frame of a view: there are fewer doubles to be categories than there are indices. -/
theorem categoryAt?_eq_some_iff (view : View) (x category : Float) :
    (Frame.ofView view).categoryAt? x = some category ↔
      (x.isFinite = true ∧
        ∃ i : Nat, |Double.toReal x - i| ≤ 1 / 10 ^ 6 ∧
          (Frame.ofView view).categories[i]? = some category) ∨
      (x.isNaN = true ∧ (Frame.ofView view).categories[0]? = some category) :=
  categoryAt?_eq_some_iff_of_length (length_categories_lt view) x category

/-- Bars over two categories. -/
def twoSlots : View :=
  ⟨.pruning, [⟨"All", [(2.0, 5.0), (4.0, 7.0)]⟩]⟩

/-- A coordinate a little to the left of the first slot. -/
example : (Frame.ofView twoSlots).categoryAt? (-5e-7) = some 2.0 := by decide +kernel

/-- There is a category at NaN, although NaN is near no index. -/
theorem categoryAt?_nan :
    (Frame.ofView twoSlots).categoryAt? (0.0 / 0.0) = some 2.0 ∧
      ∀ i : Nat, ¬((0.0 / 0.0 : Float) - Float.ofNat i).abs ≤ 1e-6 := by
  refine ⟨by decide +kernel, ?_⟩
  intro i hle
  have hnan : ((0.0 / 0.0 : Float) - Float.ofNat i) = 0.0 / 0.0 :=
    Double.eq_of_isNaN (Double.isNaN_sub_of_isNaN (by decide) _) (by decide)
  rw [hnan] at hle
  exact absurd hle (by decide)

end EvalCharts
