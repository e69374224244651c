/-
Module: EvalCharts.Proofs.Double.Margin
Purpose: Differences, and what is left of a margin of one half after rounding. Below `2 ^ 52` a half makes a
  difference, from `2 ^ 53` on and for infinities it is lost, and what it makes a difference to stays
  finite.
Main exports: sub_eq_add, lt_add_half, sub_half_lt, not_lt_add_half, not_sub_half_lt, isFinite_add_half,
  isFinite_sub_half
-/
import EvalCharts.Proofs.Double.Accuracy

namespace EvalCharts.Double

open Float.Model Float.Model.UnpackedFloat

/-! ### Differences -/

theorem unpacked_sub_eq_add_neg (a b : UnpackedFloat) :
    UnpackedFloat.sub Format.binary64 a b = UnpackedFloat.add Format.binary64 a b.neg := by
  cases a with
  | notANumber => cases b <;> rfl
  | infinity sign => cases b <;> rfl
  | zero sign => cases b <;> rfl
  | finite sign m e hm =>
      cases b with
      | finite sign' m' e' hm' =>
          have happly : ∀ n, (-sign').apply n = -sign'.apply n := by
            intro n
            cases sign' <;> simp [Sign.apply]
          simp only [UnpackedFloat.sub, UnpackedFloat.add, UnpackedFloat.neg, happly, sub_eq_add_neg]
      | _ => rfl

theorem neg_unpacked (negative : Bool) (m : Nat) :
    (unpacked negative m).neg = unpacked (!negative) m := by
  have hsign : -signOf negative = signOf !negative := by cases negative <;> rfl
  unfold unpacked
  split
  · rfl
  · split
    · rw [UnpackedFloat.neg, hsign]
    · split <;> rw [UnpackedFloat.neg, hsign]

/-- Taking a double away is adding the one with the other sign. -/
theorem sub_eq_add {y y' : Float} (hsign : isNegative y' = !isNegative y)
    (hmagnitude : magnitude y' = magnitude y) (x : Float) : x - y = x + y' := by
  have hsub : x - y = Float.ofModel (Float.Model.pack
      (UnpackedFloat.sub Format.binary64 x.toModel.unpack y.toModel.unpack)) := rfl
  have hneg : y.toModel.unpack.neg = y'.toModel.unpack := by
    rw [unpack_eq, unpack_eq, neg_unpacked, hsign, hmagnitude]
  rw [hsub, add_eq_pack, unpacked_sub_eq_add_neg, hneg]

theorem sub_half (x : Float) : x - 0.5 = x + -0.5 :=
  sub_eq_add (by decide) (by decide) x

theorem rank_add_half_congr {x x' : Float} (h : rank x = rank x') : rank (x + 0.5) = rank (x' + 0.5) :=
  rank_add_congr h rfl

theorem rank_sub_half_congr {x x' : Float} (h : rank x = rank x') : rank (x - 0.5) = rank (x' - 0.5) := by
  rw [sub_half, sub_half]
  exact rank_add_congr h rfl

/-! ### Lost margins -/

/-- Less than half a step is lost. -/
theorem nearestMagnitude_add {m e : Nat} (hm : m ≤ infiniteMagnitude) (hfit : 2 ^ 52 ≤ significand m)
    (he : 2 * e < 2 ^ scale m) : nearestMagnitude (unitsOf m + e) 1 = m := by
  have hlt := significand_lt m
  have hdiv : (unitsOf m + e) / 2 ^ scale m = significand m := by
    rw [unitsOf_eq, Nat.mul_comm, Nat.mul_add_div (Nat.two_pow_pos _), Nat.div_eq_of_lt (by omega)]
    rfl
  have hmod : (unitsOf m + e) % 2 ^ scale m = e := by
    rw [unitsOf_eq, Nat.mul_comm, Nat.mul_add_mod, Nat.mod_eq_of_lt (by omega)]
  have hscale : quotientScale (unitsOf m + e) 1 = scale m := by
    have hlog : (unitsOf m + e).log2 = 52 + scale m := by
      have hsig : (significand m).log2 = 52 := (Nat.log2_eq_iff (by omega)).2 ⟨hfit, hlt⟩
      rw [← hdiv, log2_div_two_pow] at hsig
      omega
    unfold quotientScale
    rw [Nat.div_one, hlog, Nat.add_sub_cancel_left]
  rw [nearestMagnitude_eq, hscale, Nat.one_mul, roundHalfEven, hmod, if_pos (Or.inl he), hdiv,
    scale_mul_add_significand, Nat.min_eq_left hm]

/-- The units of a half, and of its negation. -/
theorem two_mul_units_half : 2 * units 0.5 = unitsInOne := by
  obtain ⟨k, hk⟩ : ∃ k, k = 1021 := ⟨1021, rfl⟩
  have hmagnitude : magnitude 0.5 = k * 2 ^ 52 + 2 ^ 52 := by
    subst hk
    decide
  have hone := unitsInOne_eq_two_pow (k := 52 + k + 1) (by omega)
  rw [hone, units, hmagnitude, unitsOf_carry (by decide) (Or.inr (le_refl _)), ← Nat.pow_add,
    Nat.mul_comm, ← Nat.pow_succ]

theorem signedUnits_half : signedUnits 0.5 = units 0.5 ∧ signedUnits (-0.5) = -(units 0.5 : Int) := by
  have hpositive : isNegative 0.5 = false := by decide
  have hnegative : isNegative (-0.5) = true := by decide
  have hmagnitude : magnitude (-0.5) = magnitude 0.5 := by decide
  refine ⟨?_, ?_⟩
  · rw [signedUnits, hpositive, signed, if_neg Bool.false_ne_true]
  · rw [signedUnits, hnegative, signed, if_pos rfl, units, hmagnitude, units]

/-- Adding a half to a magnitude of at least `2 ^ 53` leaves it. -/
theorem nearestMagnitude_add_half {m : Nat} (hm : m ≤ infiniteMagnitude)
    (hfar : 2 ^ 53 * unitsInOne ≤ unitsOf m) : nearestMagnitude (unitsOf m + units 0.5) 1 = m := by
  have hlt := significand_lt m
  have hhalf := two_mul_units_half
  have hstep : unitsInOne < 2 ^ scale m := by
    by_contra hle
    have hmul := Nat.mul_le_mul_left (significand m) (not_lt.1 hle)
    have hmul' := Nat.mul_lt_mul_of_pos_right hlt unitsInOne_pos
    rw [unitsOf_eq] at hfar
    omega
  have hfit : 2 ^ 52 ≤ significand m := by
    rcases scale_eq_zero_or_le m with hzero | hle
    · rw [hzero, Nat.pow_zero] at hstep
      exact absurd unitsInOne_pos (by omega)
    · exact hle
  exact nearestMagnitude_add hm hfit (by omega)

theorem nearestRank_natCast (n d : Nat) : nearestRank n d = nearestMagnitude n d := by
  rw [nearestRank, Int.natAbs_natCast, decide_eq_false (by omega), signed, if_neg Bool.false_ne_true]

/-- Rounding treats both signs alike. -/
theorem nearestRank_neg (s : Int) {d : Nat} (hd : 0 < d) : nearestRank (-s) d = -nearestRank s d := by
  unfold nearestRank signed
  rw [Int.natAbs_neg]
  rcases Int.lt_trichotomy s 0 with hs | rfl | hs
  · simp [hs, hs.not_gt]
  · simp [nearestMagnitude_zero hd]
  · simp [hs, hs.not_gt]

theorem rank_add_half {x : Float} (hx : x.isFinite = true)
    (hfar : 2 ^ 53 * unitsInOne ≤ signedUnits x) : rank (x + 0.5) = rank x := by
  have hunits : signedUnits x = units x := by
    have := natAbs_signedUnits x
    omega
  have hm := magnitude_lt hx
  have hself := nearestMagnitude_unitsOf (m := magnitude x) (d := 1) hm.le (by decide)
  have hfar' : 2 ^ 53 * unitsInOne ≤ units x := by omega
  rw [Nat.mul_one] at hself
  rw [rank_add hx (by decide), rank_eq_nearestRank hx, hunits, signedUnits_half.1, ← Int.natCast_add,
    nearestRank_natCast, nearestRank_natCast, units, nearestMagnitude_add_half hm.le hfar', hself]

theorem rank_add_neg_half {x : Float} (hx : x.isFinite = true)
    (hfar : signedUnits x ≤ -(2 ^ 53 * unitsInOne : Int)) : rank (x + -0.5) = rank x := by
  have hunits : signedUnits x = -(units x : Int) := by
    have := natAbs_signedUnits x
    omega
  have hm := magnitude_lt hx
  have hself := nearestMagnitude_unitsOf (m := magnitude x) (d := 1) hm.le (by decide)
  have hfar' : 2 ^ 53 * unitsInOne ≤ units x := by omega
  rw [Nat.mul_one] at hself
  rw [rank_add hx (by decide), rank_eq_nearestRank hx, hunits, signedUnits_half.2, ← Int.neg_add,
    ← Int.natCast_add, nearestRank_neg _ (by decide), nearestRank_neg _ (by decide), nearestRank_natCast,
    nearestRank_natCast, units, nearestMagnitude_add_half hm.le hfar', hself]

theorem signedUnits_literal {x y : Float} {n : Nat} (hn : n ≤ 2 ^ 53) (hx : x = Float.ofNat n)
    (hsign : isNegative y = true) (hmagnitude : magnitude y = magnitude x) :
    signedUnits x = n * unitsInOne ∧ signedUnits y = -(n * unitsInOne : Int) := by
  obtain ⟨-, hunits⟩ := units_ofNat hn
  have hnat := natAbs_signedUnits x
  have hunitsOf : units x = n * unitsInOne := by
    rw [← hnat, hx, hunits, ← Int.natCast_mul, Int.natAbs_natCast]
  refine ⟨by rw [hx, hunits], ?_⟩
  rw [signedUnits, hsign, signed, if_pos rfl, units, hmagnitude, ← units, hunitsOf, Int.natCast_mul]

theorem signedUnits_bound :
    signedUnits 9007199254740992.0 = 2 ^ 53 * unitsInOne ∧
      signedUnits (-9007199254740992.0) = -(2 ^ 53 * unitsInOne : Int) :=
  signedUnits_literal (n := 2 ^ 53) (le_refl _) (by decide) (by decide) (by decide)

/-- From `2 ^ 53` on a half is lost. -/
theorem not_lt_add_half {x : Float} (h : 9007199254740992.0 ≤ x) : ¬x < x + 0.5 := by
  intro hlt
  obtain ⟨-, hnum, hle⟩ := le_iff.1 h
  obtain ⟨-, -, hrank⟩ := lt_iff.1 hlt
  have hsame : rank (x + 0.5) = rank x := by
    cases hf : x.isFinite with
    | false => rw [infinite_add hnum hf (by decide)]
    | true =>
        have hbound := signedUnits_mono (x := 9007199254740992.0) (by decide) hf hle
        rw [signedUnits_bound.1] at hbound
        exact rank_add_half hf hbound
  omega

theorem not_sub_half_lt {x : Float} (h : x ≤ -9007199254740992.0) : ¬x - 0.5 < x := by
  intro hlt
  obtain ⟨hnum, -, hle⟩ := le_iff.1 h
  obtain ⟨-, -, hrank⟩ := lt_iff.1 hlt
  have hsame : rank (x - 0.5) = rank x := by
    rw [sub_half]
    cases hf : x.isFinite with
    | false => rw [infinite_add hnum hf (by decide)]
    | true =>
        have hbound := signedUnits_mono hf (by decide) hle
        rw [signedUnits_bound.2] at hbound
        exact rank_add_neg_half hf hbound
  omega

/-! ### Margins that are kept -/

/-- A moderate sum is finite. -/
theorem isFinite_add_of_units {x y : Float} (hx : x.isFinite = true) (hy : y.isFinite = true)
    (h : (signedUnits x + signedUnits y).natAbs ≤ 2 ^ 52 * unitsInOne) : (x + y).isFinite = true := by
  have hbinade := unitsOf_binade (k := 1074) (a := 52) rfl
  have hself := nearestMagnitude_unitsOf (m := 1074 * 2 ^ 52 + 2 ^ 52) (d := 1) (by decide) (by decide)
  rw [hbinade, Nat.mul_one] at hself
  have hmono := nearestMagnitude_mono_left 1 h
  rw [hself] at hmono
  rw [add_eq hx hy, isFinite_eq, magnitude_ofUnits, decide_eq_true_eq]
  exact lt_of_le_of_lt hmono (by decide)

/-- Up to `2 ^ 52 - 1` a half survives rounding, if not exactly. -/
theorem add_half_error {x y : Float} (hx : x.isFinite = true)
    (hnear : units x ≤ (2 ^ 52 - 1) * unitsInOne) (hy : y.isFinite = true)
    (hhalf : units y = units 0.5) :
    (x + y).isFinite = true ∧
      (signedUnits (x + y) - (signedUnits x + signedUnits y)).natAbs < units 0.5 := by
  have htwo := two_mul_units_half
  have hpos := unitsInOne_pos
  have hux := natAbs_signedUnits x
  have huy := natAbs_signedUnits y
  have hfin : (x + y).isFinite = true := isFinite_add_of_units hx hy (by omega)
  obtain ⟨-, herror⟩ := add_error hx hy hfin
  exact ⟨hfin, by omega⟩

theorem units_le_of_between {x : Float} (hlow : -4503599627370495.0 ≤ x)
    (hhigh : x ≤ 4503599627370495.0) :
    x.isFinite = true ∧ units x ≤ (2 ^ 52 - 1) * unitsInOne := by
  obtain ⟨-, hnum, hle⟩ := le_iff.1 hlow
  obtain ⟨-, -, hle'⟩ := le_iff.1 hhigh
  have hlowFinite := rank_of_isFinite (x := -4503599627370495.0) (by decide)
  have hhighFinite := rank_of_isFinite (x := 4503599627370495.0) (by decide)
  have hx : x.isFinite = true := isFinite_of_rank hnum (by omega) (by omega)
  obtain ⟨hunits, hunits'⟩ := signedUnits_literal (x := 4503599627370495.0) (y := -4503599627370495.0)
    (n := 2 ^ 52 - 1) (by decide) (by decide) (by decide) (by decide)
  have hmono := signedUnits_mono (by decide) hx hle
  have hmono' := signedUnits_mono hx (by decide) hle'
  have hnat := natAbs_signedUnits x
  refine ⟨hx, ?_⟩
  omega

theorem lt_of_signedUnits_lt {x y : Float} (hx : x.isFinite = true) (hy : y.isFinite = true)
    (h : signedUnits x < signedUnits y) : x < y := by
  refine lt_iff.2 ⟨isNaN_of_isFinite hx, isNaN_of_isFinite hy, ?_⟩
  by_contra hle
  have := signedUnits_mono hy hx (not_lt.1 hle)
  omega

theorem lt_add_half {x : Float} (hlow : -4503599627370495.0 ≤ x) (hhigh : x ≤ 4503599627370495.0) :
    x < x + 0.5 := by
  obtain ⟨hx, hunits⟩ := units_le_of_between hlow hhigh
  obtain ⟨hfin, herror⟩ := add_half_error hx hunits (y := 0.5) (by decide) rfl
  rw [signedUnits_half.1] at herror
  exact lt_of_signedUnits_lt hx hfin (by omega)

theorem sub_half_lt {x : Float} (hlow : -4503599627370495.0 ≤ x) (hhigh : x ≤ 4503599627370495.0) :
    x - 0.5 < x := by
  obtain ⟨hx, hunits⟩ := units_le_of_between hlow hhigh
  obtain ⟨hfin, herror⟩ := add_half_error hx hunits (y := -0.5) (by decide) (by
    have hmagnitude : magnitude (-0.5) = magnitude 0.5 := by decide
    rw [units, hmagnitude, units])
  rw [signedUnits_half.2] at herror
  rw [sub_half]
  exact lt_of_signedUnits_lt hfin hx (by omega)

/-! ### Margins that are kept are finite -/

/-- Where a half makes a difference nothing is infinite. -/
theorem isFinite_add_half {x : Float} (h : x < x + 0.5) :
    x.isFinite = true ∧ (x + 0.5).isFinite = true := by
  obtain ⟨hnum, hnum', hrank⟩ := lt_iff.1 h
  have hx : x.isFinite = true := by
    by_contra hf
    rw [infinite_add hnum (Bool.eq_false_iff.2 hf) (by decide)] at hrank
    exact lt_irrefl _ hrank
  have hbelow : x ≤ 9007199254740992.0 := by
    have hfar := mt not_lt_add_half (not_not_intro h)
    rw [le_iff] at hfar ⊢
    exact ⟨hnum, by decide, by_contra fun hle => hfar ⟨by decide, hnum, by omega⟩⟩
  have hhalf : (0.5 : Float) ≤ 0.5 := by decide
  have hle := add_le_add hbelow hhalf (by decide) (by decide)
  have hsum := (le_iff.1 hle).2.2
  have hbound := rank_of_isFinite (x := 9007199254740992.0 + 0.5) (by decide)
  exact ⟨hx, isFinite_of_rank hnum' (by have := rank_of_isFinite hx; omega) (by omega)⟩

theorem isFinite_sub_half {x : Float} (h : x - 0.5 < x) :
    x.isFinite = true ∧ (x - 0.5).isFinite = true := by
  obtain ⟨hnum', hnum, hrank⟩ := lt_iff.1 h
  have hx : x.isFinite = true := by
    by_contra hf
    rw [sub_half, infinite_add hnum (Bool.eq_false_iff.2 hf) (by decide)] at hrank
    exact lt_irrefl _ hrank
  have habove : -9007199254740992.0 ≤ x := by
    have hfar := mt not_sub_half_lt (not_not_intro h)
    rw [le_iff] at hfar ⊢
    exact ⟨by decide, hnum, by_contra fun hle => hfar ⟨hnum, by decide, by omega⟩⟩
  have hhalf : (-0.5 : Float) ≤ -0.5 := by decide
  have hle := add_le_add habove hhalf (by decide) (by decide)
  have hsum := (le_iff.1 hle).2.2
  have hbound := rank_of_isFinite (x := -9007199254740992.0 + -0.5) (by decide)
  rw [← sub_half x] at hsum
  exact ⟨hx, isFinite_of_rank hnum' (by omega) (by have := rank_of_isFinite hx; omega)⟩

end EvalCharts.Double
