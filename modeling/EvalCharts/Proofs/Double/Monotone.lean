/-
Module: EvalCharts.Proofs.Double.Monotone
Purpose: Arithmetic keeps the order of doubles. Adding something larger and dividing by the same positive
  double cannot lower a result, also where one of the operands or the result is infinite.
Main exports: nearestRank, rank_add, rank_div, add_le_add, div_le_div_right, negative_zero_add
-/
import EvalCharts.Proofs.Double.Arithmetic

namespace EvalCharts.Double

open Float.Model Float.Model.UnpackedFloat

/-! ### The rank of a rounded value -/

/-- The rank of the double closest to a signed quotient. -/
def nearestRank (s : Int) (d : Nat) : Int :=
  signed (s < 0) (nearestMagnitude s.natAbs d)

theorem nearestRank_mono {s s' : Int} (d : Nat) (h : s ≤ s') : nearestRank s d ≤ nearestRank s' d := by
  unfold nearestRank signed
  by_cases hs : s < 0
  · by_cases hs' : s' < 0
    · have habs : s'.natAbs ≤ s.natAbs := by omega
      have hnear := nearestMagnitude_mono_left d habs
      simp only [hs, hs', decide_true, if_true]
      omega
    · simp only [hs, hs', decide_true, decide_false, if_true, Bool.false_eq_true, if_false]
      omega
  · have hs' : ¬s' < 0 := by omega
    have habs : s.natAbs ≤ s'.natAbs := by omega
    have hnear := nearestMagnitude_mono_left d habs
    simp only [hs, hs', decide_false, Bool.false_eq_true, if_false]
    omega

theorem isNaN_ofMagnitude (negative : Bool) {m : Nat} (hm : m ≤ infiniteMagnitude) :
    (ofMagnitude negative m).isNaN = false := by
  rw [isNaN_eq, magnitude_ofMagnitude _ hm]
  exact decide_eq_false (by omega)

theorem rank_ofMagnitude (negative : Bool) {m : Nat} (hm : m ≤ infiniteMagnitude) :
    rank (ofMagnitude negative m) = signed negative m := by
  rw [rank_eq (isNaN_ofMagnitude negative hm), magnitude_ofMagnitude _ hm,
    isNegative_ofMagnitude _ hm]

theorem isNaN_ofUnits (zeroNegative : Bool) (s : Int) : (ofUnits zeroNegative s).isNaN = false :=
  isNaN_ofMagnitude _ (nearestMagnitude_le _ _)

theorem rank_ofUnits (zeroNegative : Bool) (s : Int) :
    rank (ofUnits zeroNegative s) = nearestRank s 1 := by
  unfold ofUnits
  rw [rank_ofMagnitude _ (nearestMagnitude_le _ _)]
  by_cases hs : s = 0
  · rw [if_pos hs, hs, Int.natAbs_zero, nearestMagnitude_zero (by decide)]
    cases zeroNegative <;> rfl
  · rw [if_neg hs]
    rfl

theorem unitsOf_mono {m m' : Nat} (hm' : m' ≤ infiniteMagnitude) (h : m ≤ m') :
    unitsOf m ≤ unitsOf m' := by
  rcases Nat.lt_or_ge (unitsOf m') (unitsOf m) with hlt | hge
  · have hnear := nearestMagnitude_mono_left 1 hlt.le
    have hself := nearestMagnitude_unitsOf (m := m) (d := 1) (by omega) (by decide)
    have hself' := nearestMagnitude_unitsOf (m := m') (d := 1) hm' (by decide)
    rw [Nat.mul_one] at hself hself'
    have heq : m = m' := by omega
    exact absurd hlt (by rw [heq]; exact lt_irrefl _)
  · exact hge

/-- Finite doubles of larger rank are worth more units. -/
theorem signedUnits_mono {x x' : Float} (hx : x.isFinite = true) (hx' : x'.isFinite = true)
    (h : rank x ≤ rank x') : signedUnits x ≤ signedUnits x' := by
  have hm := magnitude_lt hx
  have hm' := magnitude_lt hx'
  rw [rank_eq (isNaN_of_isFinite hx), rank_eq (isNaN_of_isFinite hx')] at h
  unfold signedUnits
  unfold signed at h ⊢
  cases hs : isNegative x with
  | false =>
      cases hs' : isNegative x' with
      | false =>
          simp only [hs, hs', Bool.false_eq_true, if_false] at h ⊢
          exact Int.ofNat_le.2 (unitsOf_mono hm'.le (Int.ofNat_le.1 h))
      | true =>
          simp only [hs, hs', Bool.false_eq_true, if_false, if_true] at h ⊢
          rw [units_eq_zero (x := x) (by omega), units_eq_zero (x := x') (by omega)]
          rfl
  | true =>
      cases hs' : isNegative x' with
      | false =>
          simp only [Bool.false_eq_true, if_false, if_true]
          omega
      | true =>
          simp only [hs, hs', if_true] at h ⊢
          have hle : units x' ≤ units x := unitsOf_mono hm.le (by omega)
          omega

theorem rank_add {x y : Float} (hx : x.isFinite = true) (hy : y.isFinite = true) :
    rank (x + y) = nearestRank (signedUnits x + signedUnits y) 1 := by
  rw [add_eq hx hy, rank_ofUnits]

theorem isNaN_add {x y : Float} (hx : x.isFinite = true) (hy : y.isFinite = true) :
    (x + y).isNaN = false := by
  rw [add_eq hx hy]
  exact isNaN_ofUnits _ _

theorem units_pos {x : Float} (h : magnitude x ≠ 0) : 0 < units x := by
  rw [units, unitsOf_eq]
  exact Nat.mul_pos (Nat.pos_of_ne_zero (mt significand_eq_zero.1 h)) (Nat.two_pow_pos _)

/-- A finite double that is above zero. -/
structure Positive (d : Float) : Prop where
  finite : d.isFinite = true
  sign : isNegative d = false
  magnitude : magnitude d ≠ 0

/-- A scaled number of units that is rounded, under the sign of what is scaled. -/
theorem rank_ofMagnitude_scaled (x : Float) (k : Nat) {d : Nat} (hd : 0 < d) :
    rank (ofMagnitude (isNegative x) (nearestMagnitude (units x * k) d)) =
      nearestRank (signedUnits x * k) d := by
  rw [rank_ofMagnitude _ (nearestMagnitude_le _ _)]
  unfold nearestRank signedUnits
  rw [← signed_mul]
  generalize units x * k = n
  cases isNegative x with
  | false => simp [signed]
  | true =>
      rcases Nat.eq_zero_or_pos n with h0 | h0
      · simp [signed, h0, nearestMagnitude_zero hd]
      · simp [signed, h0]

theorem rank_div {x d : Float} (hx : x.isFinite = true) (hd : Positive d) :
    rank (x / d) = nearestRank (signedUnits x * unitsInOne) (units d) := by
  rw [div_eq hx hd.finite hd.magnitude, hd.sign, Bool.bne_false,
    rank_ofMagnitude_scaled x _ (units_pos hd.magnitude)]

theorem isNaN_div {x d : Float} (hx : x.isFinite = true) (hd : Positive d) :
    (x / d).isNaN = false := by
  rw [div_eq hx hd.finite hd.magnitude]
  exact isNaN_ofMagnitude _ (nearestMagnitude_le _ _)

/-! ### Infinite operands -/

theorem magnitude_of_infinite {x : Float} (hn : x.isNaN = false) (hf : x.isFinite = false) :
    magnitude x = infiniteMagnitude := by
  have hle := magnitude_le hn
  rw [isFinite_eq, decide_eq_false_iff_not] at hf
  omega

theorem unpack_of_infinite {x : Float} (hn : x.isNaN = false) (hf : x.isFinite = false) :
    x.toModel.unpack = .infinity (signOf (isNegative x)) := by
  rw [unpack_eq, magnitude_of_infinite hn hf]
  rfl

/-- Adding a finite double to an infinity leaves the infinity. -/
theorem infinite_add {x y : Float} (hn : x.isNaN = false) (hf : x.isFinite = false)
    (hy : y.isFinite = true) : x + y = x := by
  refine Eq.trans ?_ (ofModel_pack_unpack hn)
  rw [add_eq_pack, unpack_of_infinite hn hf]
  rcases finite_cases hy with ⟨_, huy⟩ | ⟨_, _, _, _, _, huy⟩ <;> rw [huy] <;> rfl

/-- Dividing an infinity by a positive double leaves the infinity. -/
theorem infinite_div {x d : Float} (hn : x.isNaN = false) (hf : x.isFinite = false)
    (hd : Positive d) : x / d = x := by
  refine Eq.trans ?_ (ofModel_pack_unpack hn)
  rw [div_eq_pack, unpack_of_infinite hn hf]
  rcases finite_cases hd.finite with ⟨hz, _⟩ | ⟨_, _, _, _, _, hud⟩
  · exact absurd hz hd.magnitude
  · rw [hud, hd.sign]
    cases isNegative x <;> rfl

theorem rank_of_infinite {x : Float} (hn : x.isNaN = false) (hf : x.isFinite = false) :
    rank x = infiniteMagnitude ∨ rank x = -(infiniteMagnitude : Int) := by
  rw [rank_eq hn, magnitude_of_infinite hn hf]
  cases isNegative x
  · exact Or.inl rfl
  · exact Or.inr rfl

theorem rank_of_isFinite {x : Float} (h : x.isFinite = true) :
    -(infiniteMagnitude : Int) < rank x ∧ rank x < infiniteMagnitude := by
  have hm := magnitude_lt h
  rw [rank_eq (isNaN_of_isFinite h)]
  unfold signed
  split <;> omega

/-- Between the infinities doubles are finite. -/
theorem isFinite_of_rank {x : Float} (hnum : x.isNaN = false) (hlow : -(infiniteMagnitude : Int) < rank x)
    (hhigh : rank x < infiniteMagnitude) : x.isFinite = true := by
  by_contra hf
  have hinf := rank_of_infinite hnum (Bool.eq_false_iff.2 hf)
  omega

/-! ### Keeping the order -/

/-- An operation on numbers that is monotone on finite doubles and keeps infinities is monotone. -/
theorem le_of_monotone_finite {f g : Float → Float} {x x' : Float} (h : x ≤ x')
    (hfinite : x.isFinite = true → x'.isFinite = true → f x ≤ g x')
    (hnan : x.isFinite = true → (f x).isNaN = false)
    (hnan' : x'.isFinite = true → (g x').isNaN = false)
    (hinf : x.isFinite = false → f x = x) (hinf' : x'.isFinite = false → g x' = x') :
    f x ≤ g x' := by
  obtain ⟨hn, hn', hrank⟩ := le_iff.1 h
  cases hf : x.isFinite with
  | true =>
      cases hf' : x'.isFinite with
      | true => exact hfinite hf hf'
      | false =>
          -- above a finite double there is no infinity but the positive one
          rw [hinf' hf']
          have hbound := (rank_le_infinite (hnan hf)).2
          have hlow := (rank_of_isFinite hf).1
          rcases rank_of_infinite hn' hf' with htop | hbottom
          · exact le_iff.2 ⟨hnan hf, hn', by omega⟩
          · omega
  | false =>
      rw [hinf hf]
      rcases rank_of_infinite hn hf with htop | hbottom
      · cases hf' : x'.isFinite with
        | true =>
            have := (rank_of_isFinite hf').2
            omega
        | false =>
            rw [hinf' hf']
            exact h
      · cases hf' : x'.isFinite with
        | true =>
            have := (rank_le_infinite (hnan' hf')).1
            exact le_iff.2 ⟨hn, hnan' hf', by omega⟩
        | false =>
            rw [hinf' hf']
            exact h

/-- Sums keep the order, as long as what is added is finite. -/
theorem add_le_add {x x' y y' : Float} (hx : x ≤ x') (hy : y ≤ y') (hfin : y.isFinite = true)
    (hfin' : y'.isFinite = true) : x + y ≤ x' + y' := by
  obtain ⟨hn, hn', -⟩ := le_iff.1 hx
  refine le_of_monotone_finite (f := fun x => x + y) (g := fun x' => x' + y') hx ?_
    (fun hf => isNaN_add hf hfin) (fun hf' => isNaN_add hf' hfin')
    (fun hf => infinite_add hn hf hfin) (fun hf' => infinite_add hn' hf' hfin')
  intro hf hf'
  refine le_iff.2 ⟨isNaN_add hf hfin, isNaN_add hf' hfin', ?_⟩
  rw [rank_add hf hfin, rank_add hf' hfin']
  have hunits := signedUnits_mono hf hf' (le_iff.1 hx).2.2
  have hunits' := signedUnits_mono hfin hfin' (le_iff.1 hy).2.2
  exact nearestRank_mono 1 (by omega)

/-- Dividing by one positive double keeps the order. -/
theorem div_le_div_right {x x' d : Float} (h : x ≤ x') (hd : Positive d) : x / d ≤ x' / d := by
  obtain ⟨hn, hn', hrank⟩ := le_iff.1 h
  refine le_of_monotone_finite (f := fun x => x / d) (g := fun x' => x' / d) h ?_
    (fun hf => isNaN_div hf hd) (fun hf' => isNaN_div hf' hd)
    (fun hf => infinite_div hn hf hd) (fun hf' => infinite_div hn' hf' hd)
  intro hf hf'
  refine le_iff.2 ⟨isNaN_div hf hd, isNaN_div hf' hd, ?_⟩
  rw [rank_div hf hd, rank_div hf' hd]
  exact nearestRank_mono _ (mul_le_mul_of_nonneg_right (signedUnits_mono hf hf' hrank)
    (Int.natCast_nonneg _))

/-! ### Zeros and counts -/

/-- Negative zero is neutral: the sum shows even the sign of a zero. -/
theorem negative_zero_add (x : Float) : -0.0 + x = x := by
  have hzero : (-0.0 : Float).isFinite = true := by decide
  have hsign : isNegative (-0.0 : Float) = true := by decide
  have hunits : signedUnits (-0.0 : Float) = 0 := signedUnits_eq_zero (by decide)
  cases hn : x.isNaN with
  | true =>
      have hunpack : x.toModel.unpack = .notANumber := by
        rw [isNaN_eq, decide_eq_true_eq] at hn
        rw [unpack_eq, unpacked, if_pos hn]
      apply eq_of_isNaN _ hn
      rw [add_eq_pack, hunpack]
      rfl
  | false =>
      cases hf : x.isFinite with
      | true => rw [add_eq hzero hf, hsign, hunits, zero_add, Bool.true_and, ofUnits_signedUnits hf]
      | false =>
          refine Eq.trans ?_ (ofModel_pack_unpack hn)
          rw [add_eq_pack, unpack_of_infinite hn hf]
          rfl

/-- A count is a number. -/
theorem isNaN_ofNat (n : Nat) : (Float.ofNat n).isNaN = false := by
  rw [ofNat_eq]
  exact isNaN_ofMagnitude _ (nearestMagnitude_le _ _)

/-- Larger counts are larger doubles, or the same after rounding. -/
theorem ofNat_le_ofNat {n n' : Nat} (h : n ≤ n') : Float.ofNat n ≤ Float.ofNat n' := by
  refine le_iff.2 ⟨isNaN_ofNat n, isNaN_ofNat n', ?_⟩
  rw [ofNat_eq, ofNat_eq, rank_ofMagnitude _ (nearestMagnitude_le _ _),
    rank_ofMagnitude _ (nearestMagnitude_le _ _)]
  exact Int.ofNat_le.2 (nearestMagnitude_mono_left 1 (Nat.mul_le_mul_right _ h))

/-- A count that is not zero and not astronomic is a positive double. -/
theorem positive_ofNat {n : Nat} (h0 : n ≠ 0) (h : n ≤ 2 ^ 65) : Positive (Float.ofNat n) := by
  have hlt := nearestMagnitude_natCast_lt h
  have hle : unitsOf (1022 * 2 ^ 52 + 2 ^ 52) * 1 ≤ n * unitsInOne := by
    rw [unitsOf_one, Nat.mul_one]
    exact Nat.le_mul_of_pos_left _ (Nat.pos_of_ne_zero h0)
  have hone := nearestMagnitude_mono_left 1 hle
  rw [nearestMagnitude_unitsOf (by decide) (by decide)] at hone
  rw [ofNat_eq]
  refine ⟨isFinite_ofMagnitude false hlt, isNegative_ofMagnitude false hlt.le, ?_⟩
  rw [magnitude_ofMagnitude false hlt.le]
  omega

end EvalCharts.Double
