/-
Module: EvalCharts.Proofs.Double.Addition
Purpose: Addition of all doubles, infinities, NaN and both zeros included. The order of two summands does
  not matter, the place of a sum depends on the places of the summands alone, a sum is finite only if its
  summands are, and it is negative zero only if they are.
Main exports: add_swap, rank_add_congr, eq_of_rank_eq, isFinite_of_isFinite_add, add_ne_negative_zero
-/
import EvalCharts.Proofs.Double.Monotone

namespace EvalCharts.Double

open Float.Model Float.Model.UnpackedFloat

/-! ### The order of two summands -/

theorem unpacked_add_comm (a b : UnpackedFloat) :
    UnpackedFloat.add Format.binary64 a b = UnpackedFloat.add Format.binary64 b a := by
  cases a with
  | notANumber => cases b <;> rfl
  | infinity sign =>
      cases b with
      | infinity sign' => cases sign <;> cases sign' <;> rfl
      | _ => rfl
  | zero sign =>
      cases b with
      | zero sign' => cases sign <;> cases sign' <;> rfl
      | _ => rfl
  | finite sign m e hm =>
      cases b with
      | finite sign' m' e' hm' =>
          simp only [UnpackedFloat.add, min_comm e e']
          rw [add_comm]
      | _ => rfl

/-- Two doubles can be added in either order. -/
theorem add_swap (x y : Float) : x + y = y + x := by
  rw [add_eq_pack, add_eq_pack, unpacked_add_comm]

/-! ### Summands that are not finite -/

theorem unpack_of_isNaN {x : Float} (h : x.isNaN = true) : x.toModel.unpack = .notANumber := by
  rw [isNaN_eq, decide_eq_true_eq] at h
  rw [unpack_eq, unpacked, if_pos h]

theorem isFinite_of_isNaN {x : Float} (h : x.isNaN = true) : x.isFinite = false := by
  cases hf : x.isFinite with
  | false => rfl
  | true => exact absurd h (by rw [isNaN_of_isFinite hf]; decide)

theorem isNaN_add_of_isNaN {x : Float} (h : x.isNaN = true) (y : Float) : (x + y).isNaN = true := by
  rw [add_eq_pack, unpack_of_isNaN h]
  exact (by decide : (Float.ofModel (Float.Model.pack .notANumber)).isNaN = true)

theorem add_infinite {x y : Float} (hx : x.isFinite = true) (hn : y.isNaN = false)
    (hf : y.isFinite = false) : x + y = y := by
  rw [add_swap]
  exact infinite_add hn hf hx

/-- Adding to an infinity leaves it, or leads to NaN. -/
theorem isFinite_infinite_add {x : Float} (hn : x.isNaN = false) (hf : x.isFinite = false) (y : Float) :
    (x + y).isFinite = false := by
  cases hn' : y.isNaN with
  | true =>
      rw [add_swap]
      exact isFinite_of_isNaN (isNaN_add_of_isNaN hn' x)
  | false =>
      cases hf' : y.isFinite with
      | true => rw [infinite_add hn hf hf', hf]
      | false =>
          rw [add_eq_pack, unpack_of_infinite hn hf, unpack_of_infinite hn' hf']
          cases isNegative x <;> cases isNegative y <;> decide

/-- A finite sum has finite summands. -/
theorem isFinite_of_isFinite_add {x y : Float} (h : (x + y).isFinite = true) : x.isFinite = true := by
  cases hn : x.isNaN with
  | true => simp [isFinite_of_isNaN (isNaN_add_of_isNaN hn y)] at h
  | false =>
      cases hf : x.isFinite with
      | true => rfl
      | false => simp [isFinite_infinite_add hn hf] at h

/-! ### Sums and places -/

theorem eq_negative_zero_iff {x : Float} : x = -0.0 ↔ isNegative x = true ∧ magnitude x = 0 := by
  constructor
  · rintro rfl
    decide
  · rintro ⟨hs, hm⟩
    exact ext_magnitude (hs.trans (by decide)) (hm.trans (by decide))

/-- Doubles that take one place are equal, or they are the two zeros. -/
theorem eq_or_zero_of_rank_eq {x y : Float} (h : rank x = rank y) :
    x = y ∨ magnitude x = 0 ∧ magnitude y = 0 := by
  have hnan := isNaN_eq_of_rank_eq h
  cases hx : x.isNaN with
  | true => exact Or.inl (eq_of_isNaN hx (hnan.symm.trans hx))
  | false =>
      rw [rank_eq hx, rank_eq (hnan.symm.trans hx)] at h
      unfold signed at h
      by_cases hzero : magnitude x = 0
      · refine Or.inr ⟨hzero, ?_⟩
        split at h <;> split at h <;> omega
      · refine Or.inl (ext_magnitude ?_ ?_)
        · cases hs : isNegative x <;> cases hs' : isNegative y <;> simp [hs, hs'] at h ⊢ <;> omega
        · split at h <;> split at h <;> omega

/-- Apart from negative zero a double is told by the place it takes. -/
theorem eq_of_rank_eq {x y : Float} (h : rank x = rank y) (hx : x ≠ -0.0) (hy : y ≠ -0.0) : x = y := by
  rcases eq_or_zero_of_rank_eq h with heq | ⟨hzero, hzero'⟩
  · exact heq
  · have hs : isNegative x = false := by simpa [hzero] using mt eq_negative_zero_iff.2 hx
    have hs' : isNegative y = false := by simpa [hzero'] using mt eq_negative_zero_iff.2 hy
    exact ext_magnitude (hs.trans hs'.symm) (hzero.trans hzero'.symm)

/-- Positive numbers that are the same key are equal. -/
theorem eq_of_sameKey_of_pos {x y : Float} (hx : 0.0 < x) (h : sameKey x y = true) : x = y := by
  rcases eq_or_zero_of_rank_eq (beq_iff_eq.1 h) with heq | ⟨hzero, -⟩
  · exact heq
  · obtain ⟨-, hnum, hlt⟩ := lt_iff.1 hx
    have hrank : rank x = rank 0.0 := by
      rw [rank_eq hnum, hzero]
      cases isNegative x <;> decide
    exact absurd hlt (by rw [hrank]; exact lt_irrefl _)

theorem isFinite_of_magnitude_eq_zero {x : Float} (h : magnitude x = 0) : x.isFinite = true := by
  rw [isFinite_eq, h]
  rfl

/-- Which of the two zeros is added does not show in the place of a sum. -/
theorem rank_zero_add {x x' : Float} (hx : magnitude x = 0) (hx' : magnitude x' = 0) (y : Float) :
    rank (x + y) = rank (x' + y) := by
  have hfin := isFinite_of_magnitude_eq_zero hx
  have hfin' := isFinite_of_magnitude_eq_zero hx'
  cases hn : y.isNaN with
  | true =>
      rw [add_swap x, add_swap x', rank_of_isNaN (isNaN_add_of_isNaN hn x),
        rank_of_isNaN (isNaN_add_of_isNaN hn x')]
  | false =>
      cases hf : y.isFinite with
      | true => simp [rank_add, hfin, hfin', hf, signedUnits_eq_zero, hx, hx']
      | false => rw [add_infinite hfin hn hf, add_infinite hfin' hn hf]

theorem rank_add_congr_left {x x' : Float} (h : rank x = rank x') (y : Float) :
    rank (x + y) = rank (x' + y) := by
  rcases eq_or_zero_of_rank_eq h with rfl | ⟨hzero, hzero'⟩
  · rfl
  · exact rank_zero_add hzero hzero' y

/-- The place of a sum depends on the places of the summands alone. -/
theorem rank_add_congr {x x' y y' : Float} (hx : rank x = rank x') (hy : rank y = rank y') :
    rank (x + y) = rank (x' + y') := by
  calc rank (x + y) = rank (x' + y) := rank_add_congr_left hx y
    _ = rank (y + x') := by rw [add_swap]
    _ = rank (y' + x') := rank_add_congr_left hy x'
    _ = rank (x' + y') := by rw [add_swap]

theorem rank_positive_zero_add (x : Float) : rank (0.0 + x) = rank x := by
  have hpositive : magnitude 0.0 = 0 := by decide
  have hnegative : magnitude (-0.0) = 0 := by decide
  rw [rank_zero_add hpositive hnegative, negative_zero_add]

/-- A finite double takes the place of its units. -/
theorem rank_eq_nearestRank {x : Float} (h : x.isFinite = true) :
    rank x = nearestRank (signedUnits x) 1 := by
  rw [← rank_ofUnits (isNegative x), ofUnits_signedUnits h]

/-- Doubles that take one place are worth the same. -/
theorem signedUnits_eq_of_rank_eq {x y : Float} (h : rank x = rank y) :
    signedUnits x = signedUnits y := by
  rcases eq_or_zero_of_rank_eq h with rfl | ⟨hzero, hzero'⟩
  · rfl
  · rw [signedUnits_eq_zero hzero, signedUnits_eq_zero hzero']

/-! ### Zero sums -/

theorem one_le_nearestMagnitude {n : Nat} (h : n ≠ 0) : 1 ≤ nearestMagnitude n 1 := by
  have hone : nearestMagnitude (unitsOf 1 * 1) 1 = 1 := nearestMagnitude_unitsOf (by decide) (by decide)
  have hle : unitsOf 1 * 1 ≤ n := Nat.one_le_iff_ne_zero.2 h
  exact hone ▸ nearestMagnitude_mono_left 1 hle

theorem magnitude_ofUnits (zeroNegative : Bool) (s : Int) :
    magnitude (ofUnits zeroNegative s) = nearestMagnitude s.natAbs 1 :=
  magnitude_ofMagnitude _ (nearestMagnitude_le _ _)

/-- Only negative zeros add up to negative zero. -/
theorem add_ne_negative_zero {x : Float} (hx : x ≠ -0.0) (y : Float) : x + y ≠ -0.0 := by
  intro hsum
  have hfin : (x + y).isFinite = true := by rw [hsum]; decide
  have hfinx := isFinite_of_isFinite_add hfin
  have hfiny : y.isFinite = true := isFinite_of_isFinite_add (add_swap x y ▸ hfin)
  obtain ⟨hsign, hzero⟩ := eq_negative_zero_iff.1 hsum
  rw [add_eq hfinx hfiny] at hsign hzero
  rw [magnitude_ofUnits] at hzero
  have hunits : signedUnits x + signedUnits y = 0 := by
    by_contra hne
    have := one_le_nearestMagnitude (Int.natAbs_ne_zero.2 hne)
    omega
  rw [hunits, ofUnits_zero, isNegative_ofMagnitude _ (Nat.zero_le _), Bool.and_eq_true] at hsign
  -- two negative numbers that are not both zeros do not cancel out
  have hpos := units_pos fun h => hx (eq_negative_zero_iff.2 ⟨hsign.1, h⟩)
  simp only [signedUnits, signed, hsign.1, hsign.2, if_true] at hunits
  omega

end EvalCharts.Double
