/-
Module: EvalCharts.Proofs.Chart.Ticks
Purpose: Where an axis with slots is labelled. The search for the finest step that fits as many labels as
  there are slots ends at one: every larger step leads to no more labels, and the next smaller one to too
  many. Hence just the middles of the slots are labelled.
Main exports: remainder_isHalves, labelCount_refined, finestStep_eq_unit, multiples_eq, ticks?_slots
-/
import EvalCharts.Chart.Ticks
import EvalCharts.Proofs.Double.Logarithm
import EvalCharts.Proofs.Double.Parts

namespace EvalCharts

open Double (IsHalves)

/-! ### Multiples of a step -/

/-- Halves are never taken for rounding errors. -/
theorem not_abs_lt_tolerance {x : Float} {a : Int} (h : IsHalves x a) (ha : a ≠ 0) : ¬x.abs < tolerance := by
  intro hlt
  have hle : 0.5 ≤ x.abs := (Double.isHalves_half.le_iff h.abs).2 (by omega)
  have hsmall : tolerance < 0.5 := by decide
  have hrank := (Double.lt_iff.1 hlt).2.2
  have hrank' := (Double.le_iff.1 hle).2.2
  have hrank'' := (Double.lt_iff.1 hsmall).2.2
  omega

/-- The remainder of halves is that of whole numbers. -/
theorem remainder_isHalves {x step : Float} {a : Int} {b : Nat} (hx : IsHalves x a) (hstep : IsHalves step b)
    (hb : 0 < b) (hb' : b ≤ 2 ^ 53) (ha : a.natAbs < 2 ^ 53) (hm : (a / b * b).natAbs ≤ 2 ^ 53) :
    IsHalves (remainder x step) (a % b) := by
  have hrest : a - a / b * b = a % b := by rw [Int.emod_def, mul_comm]
  have hnonneg := Int.emod_nonneg a (Int.natCast_pos.2 hb).ne'
  have hlt := Int.emod_lt_of_pos a (Int.natCast_pos.2 hb)
  have hfloor : IsHalves (Double.floor (x / step)) (2 * (a / b)) :=
    IsHalves.floor_div (c := 1) (by rwa [Nat.cast_one, mul_one]) (by rwa [Nat.mul_one]) hb Nat.one_pos hb' ha
  have hexcess := hx.sub (hfloor.mul hstep hm) (by omega)
  rw [hrest] at hexcess
  have hdifference := hexcess.sub hstep (by omega)
  unfold remainder
  simp only [if_neg (not_abs_lt_tolerance hdifference (by omega))]
  exact hexcess

theorem labelCount_of_isHalves {x : Float} {k : Nat} (h : IsHalves x (2 * k)) (hk : k < 2 ^ 64) :
    labelCount x = k := by
  rw [labelCount, Double.toInt_of_signedUnits h.finite (Double.isHalves_two_mul_iff.1 h).2 (by omega)
    (by omega)]
  exact Int.toNat_natCast k

/-- A number of labels is at least a whole number that is below it before rounding. -/
theorem le_labelCount_round {x : Float} {k : Nat} (hk : k ≤ 2 ^ 53) (h : Float.ofNat k ≤ x) :
    k ≤ labelCount (Double.round x) := by
  have hle : (k : Int) ≤ Double.toInt 0 (2 ^ 64 - 1) (Double.round x) := Double.le_toInt_round hk (by omega) h
  rw [labelCount]
  omega

/-- Up to the last coordinate a whole step has fewer positive multiples than there are slots. -/
theorem multiples_lt {n s : Nat} (hn : 0 < n) (hs : 0 < s) : (2 * n - 1) / (2 * s) < n := by
  have hfew : (2 * n - 1) / (2 * s) ≤ (2 * n - 1) / 2 := Nat.div_le_div_left (by omega) (by decide)
  omega

section Slots

variable {low high : Float} {n : Nat} (hlow : IsHalves low (-1)) (hhigh : IsHalves high (2 * n - 1))
  (hn : 0 < n) (hn' : n ≤ 2 ^ 52)

/-! ### Whole steps -/

include hlow in
/-- The first multiple of a whole step is zero. -/
theorem firstMultiple_isHalves {step : Float} {s : Nat} (hstep : IsHalves step ((2 * s : Nat) : Int))
    (hs : 0 < s) (hs' : s ≤ 2 ^ 52) : IsHalves (firstMultiple low step) 0 := by
  have hdiv : (-1 : Int) / ((2 * s : Nat) : Int) = -1 := by
    rw [Int.ediv_eq_neg_one_of_neg_of_le] <;> omega
  have hmod : (-1 : Int) % ((2 * s : Nat) : Int) = 2 * s - 1 := by
    rw [Int.emod_def, hdiv]
    push_cast
    ring
  have hremainder := remainder_isHalves hlow hstep (by omega) (by omega) (by decide) (by rw [hdiv]; omega)
  rw [hmod] at hremainder
  have hmultiple := hlow.sub hremainder (by omega)
  have hbelow : low - remainder low step < low := (hmultiple.lt_iff hlow).2 (by omega)
  have hfirst := hmultiple.add hstep (by omega)
  unfold firstMultiple
  simp only [if_pos hbelow]
  convert hfirst using 1
  push_cast
  ring

include hhigh hn hn' in
/-- The last multiple of a step. -/
theorem lastMultiple_isHalves {step : Float} {b : Nat} (hstep : IsHalves step b) (hb : 0 < b)
    (hb' : b ≤ 2 ^ 53) :
    IsHalves (high - remainder high step) (((2 * n - 1) / b * b : Nat) : Int) := by
  have hvalue : (2 * n - 1 : Int) = ((2 * n - 1 : Nat) : Int) := by omega
  have hle := Nat.div_mul_le_self (2 * n - 1) b
  have hmod := Nat.mod_add_div' (2 * n - 1) b
  rw [hvalue] at hhigh
  have hremainder := remainder_isHalves hhigh hstep hb hb' (by omega) (by
    rw [← Int.natCast_ediv, ← Nat.cast_mul]
    omega)
  rw [← Int.natCast_emod] at hremainder
  convert hhigh.sub hremainder (by omega) using 1
  omega

include hlow hhigh hn hn' in
/-- With a whole step that is a part of a power, the number of labels is exact. -/
theorem labelCount_refined {power part finer : Float} {p s : Nat}
    (hpower : IsHalves power ((p * (2 * s) : Nat) : Int)) (hpart : IsHalves part (2 * p))
    (hp : p = 2 ∨ p = 5 ∨ p = 10) (hfiner : IsHalves finer ((2 * s : Nat) : Int)) (hs : 0 < s)
    (hs' : s ≤ 2 ^ 52) :
    labelCount (Double.round
      (1.0 + (high - remainder high finer - firstMultiple low finer) / power * part)) =
      1 + (2 * n - 1) / (2 * s) := by
  have hfew := multiples_lt hn hs
  have hlast := lastMultiple_isHalves hhigh hn hn' hfiner (by omega) (by omega)
  have hle := Nat.div_mul_le_self (2 * n - 1) (2 * s)
  have hdistance := hlast.sub (firstMultiple_isHalves hlow hfiner hs hs') (by omega)
  rw [sub_zero] at hdistance
  generalize (2 * n - 1) / (2 * s) = k at *
  have hcount := hdistance.div_mul hpower hpart (by omega) (by omega) hp
  have hsum := Double.isHalves_one.add hcount (by omega)
  rw [← mul_add, ← Nat.cast_add] at hsum
  rw [hsum.round_eq, labelCount_of_isHalves hsum (by omega)]

include hlow hhigh hn hn' in
/-- A whole part of a power leads to no more labels than there are slots. -/
theorem refine_part {power part : Float} {p s : Nat} (hpower : IsHalves power ((p * (2 * s) : Nat) : Int))
    (hpart : IsHalves part (2 * p)) (hp : p = 2 ∨ p = 5 ∨ p = 10) (hs : 0 < s) (hs' : s ≤ 2 ^ 52)
    (parts : List Float) (size : Float) :
    refine low high n power (part :: parts) size = refine low high n power parts (power / part) := by
  have hfiner := IsHalves.div_exact (a := s) (c := 2 * p) (hpower.cast (by push_cast; ring))
    (hpart.cast (by push_cast; ring)) (by omega) (by omega)
  have hcount := labelCount_refined hlow hhigh hn hn' hpower hpart hp (hfiner.cast (by push_cast; ring)) hs hs'
  have hfew := multiples_lt hn hs
  rw [refine]
  simp only [hcount]
  rw [if_neg (by omega)]

include hlow hhigh hn hn' in
/-- A power of ten that is not one can be divided further. -/
theorem refine_power {power : Float} {m : Nat} (hpower : IsHalves power ((10 * (2 * m) : Nat) : Int))
    (hm : 0 < m) (hm' : 10 * m ≤ 2 ^ 52) :
    refine low high n power [2.0, 5.0, 10.0] power = (power / 10.0, true) := by
  have hhalf : IsHalves power ((2 * (2 * (5 * m)) : Nat) : Int) := hpower.cast (by push_cast; ring)
  have hfifth : IsHalves power ((5 * (2 * (2 * m)) : Nat) : Int) := hpower.cast (by push_cast; ring)
  have hfive : IsHalves 5.0 (2 * (5 : Nat)) := Double.isHalves_literal (by decide) (by decide)
  rw [refine_part hlow hhigh hn hn' hhalf Double.isHalves_two (Or.inl rfl) (by omega) (by omega),
    refine_part hlow hhigh hn hn' hfifth hfive (Or.inr (Or.inl rfl)) (by omega) (by omega),
    refine_part hlow hhigh hn hn' hpower Double.isHalves_ten (Or.inr (Or.inr rfl)) hm (by omega), refine]

/-! ### Half a step -/

include hlow hhigh hn hn' in
/-- Dividing one by two leads to more labels than there are slots. -/
theorem refine_one : refine low high n 1.0 [2.0, 5.0, 10.0] 1.0 = (1.0, false) := by
  have hdiv : (1.0 / 2.0 : Float) = 0.5 := by decide +kernel
  have hhalf : IsHalves 0.5 ((1 : Nat) : Int) := Double.isHalves_half.cast Nat.cast_one.symm
  have hone := Double.isHalves_one
  have htwo := Double.isHalves_two
  have hmultiple := hlow.sub (remainder_isHalves hlow hhalf (by decide) (by decide) (by decide) (by decide))
    (by decide)
  have hbelow : ¬low - remainder low 0.5 < low := by
    rw [hmultiple.lt_iff hlow]
    decide
  have hfirst : IsHalves (firstMultiple low 0.5) (-1) := by
    unfold firstMultiple
    simp only [if_neg hbelow]
    exact hmultiple
  have hlast := lastMultiple_isHalves hhigh hn hn' hhalf (by decide) (by decide)
  rw [Nat.div_one, Nat.mul_one] at hlast
  have hquotient := IsHalves.div_exact (a := n) (c := 2)
    ((hlast.sub hfirst (by omega)).cast (by omega)) (hone.cast (by decide)) (by decide) (by omega)
  have hnonneg := (Double.isHalves_zero.le_iff hquotient).2 (by omega)
  have htwice := Double.le_mul_of_one_le hnonneg hquotient.finite (htwo.positive (by decide)) (by
    rw [htwo.natAbs_units, ← Double.two_mul_units_half]
    exact Nat.mul_le_mul_right _ (by decide))
  have hmore := Double.add_le_add htwice (Double.le_of_rank_le hone.isNaN hone.isNaN le_rfl) hone.finite
    hone.finite
  have hnext := (Double.rank_add_congr (hquotient.rank_eq (Double.isHalves_ofNat (by omega))) rfl).trans
    (Double.rank_ofNat_add_one (n := n) (by omega))
  have hcount := le_labelCount_round (k := n + 1) (by omega) (Double.le_congr hnext rfl hmore)
  rw [Double.add_swap] at hcount
  rw [refine]
  simp only [hdiv, if_pos (Nat.lt_of_succ_le hcount)]

/-! ### The search -/

include hlow hhigh hn hn' in
/-- From any power of ten the search goes down to one. -/
theorem finestStep_eq_unit {e fuel : Nat} (hfuel : e < fuel) {size : Float}
    (hsize : IsHalves size ((2 * 10 ^ e : Nat) : Int)) (he : 10 ^ e ≤ 2 ^ 52) :
    finestStep low high n fuel ⟨size, size / 10.0⟩ = ⟨1.0, 1.0 / 10.0⟩ := by
  induction e generalizing fuel size with
  | zero =>
      obtain ⟨fuel, rfl⟩ := Nat.exists_eq_succ_of_ne_zero (Nat.ne_of_gt hfuel)
      have hone : size = 1.0 := hsize.eq Double.isHalves_one (by decide)
      rw [hone, finestStep]
      simp only [refine_one hlow hhigh hn hn']
  | succ e ih =>
      obtain ⟨fuel, rfl⟩ := Nat.exists_eq_succ_of_ne_zero (Nat.ne_of_gt (Nat.zero_lt_of_lt hfuel))
      rw [Nat.pow_succ] at hsize he
      have hrefine := refine_power hlow hhigh hn hn' (m := 10 ^ e) (hsize.cast (by push_cast; ring))
        (Nat.pow_pos (by decide)) (by omega)
      have hdiv := IsHalves.div_exact (a := (10 ^ e : Nat)) (c := 20) (hsize.cast (by push_cast; ring))
        (Double.isHalves_ten.cast (by decide)) (by decide) (by omega)
      rw [finestStep]
      simp only [hrefine]
      exact ih (by omega) (hdiv.cast (by push_cast; ring)) (by omega)

/-- The largest power of ten that is not above a whole distance. -/
theorem largestPower_eq {distance : Float} (hdistance : IsHalves distance (2 * n)) (hn : 0 < n)
    (hn' : n ≤ 2 ^ 52) :
    ∃ k < 16, 10 ^ k ≤ n ∧ n < 10 ^ (k + 1) ∧ largestPower distance = Float.ofNat (10 ^ k) := by
  have hone := Double.unitsInOne_pos
  obtain ⟨k, hcount, hle, hlt⟩ := Double.digitCount_bounds hn
  have hunits : Double.units distance = n * Double.unitsInOne := by
    rw [← Double.natAbs_signedUnits, (Double.isHalves_two_mul_iff.1 hdistance).2, Double.natAbs_mul_natCast,
      Int.natAbs_natCast]
  have hdecade : Double.decade (Double.units distance) = k := by
    rw [Double.decade, hunits, if_pos (Nat.le_mul_of_pos_left _ hn), Nat.mul_div_cancel _ hone, hcount,
      Nat.cast_succ, add_sub_cancel_right]
  have hsmall : k < 16 := (Nat.pow_lt_pow_iff_right (by decide)).1 ((hle.trans hn').trans_lt (by decide))
  have hnat : (k : Int).toNat = k ∧ (-(k : Int)).toNat = 0 := by omega
  refine ⟨k, hsmall, hle, hlt, ?_⟩
  rw [largestPower, hdecade, Double.Decimal.toDouble, Double.Decimal.magnitude, Double.ofNat_eq]
  simp only [if_neg Nat.one_ne_zero]
  rw [if_neg (by omega), if_neg (by omega), hnat.1, hnat.2, Nat.pow_zero, Nat.one_mul]

include hlow hhigh hn hn' in
/-- The search starts from a power of ten. -/
theorem coarsestStep_eq :
    ∃ e size, e < 16 ∧ 10 ^ e ≤ 2 ^ 52 ∧ IsHalves size ((2 * 10 ^ e : Nat) : Int) ∧
      coarsestStep low high n = ⟨size, size / 10.0⟩ := by
  have hdistance : IsHalves (high - low) (2 * n) := (hhigh.sub hlow (by omega)).cast (by ring)
  obtain ⟨k, hsmall, hle, hlt, hpower⟩ := largestPower_eq hdistance hn hn'
  have hsize : IsHalves (Float.ofNat (10 ^ k)) _ := Double.isHalves_ofNat (hle.trans (by omega))
  have hfloor := IsHalves.floor_div (a := n) (b := 10 ^ k) (c := 2) (hdistance.cast (by ring))
    (hsize.cast (by push_cast; ring)) (Nat.pow_pos (by decide)) (by decide) (hle.trans (by omega)) (by omega)
  rw [← Int.natCast_ediv] at hfloor
  have hcount := labelCount_of_isHalves hfloor ((Nat.div_le_self _ _).trans_lt (by omega))
  rw [coarsestStep, hpower]
  simp only [hcount]
  rcases Nat.eq_zero_or_pos k with rfl | hk
  · refine ⟨1, 1.0 * 10.0, by decide, by decide, ?_, ?_⟩
    · have hten : (1.0 * 10.0 : Float) = Float.ofNat 10 := by decide +kernel
      exact Double.isHalves_literal hten (by decide)
    · have hgrain : Float.ofNat (10 ^ 0) / 10.0 * 10.0 = 1.0 * 10.0 / 10.0 := by decide +kernel
      have hone : Float.ofNat (10 ^ 0) = 1.0 := by decide
      rw [if_pos (by rw [Nat.pow_zero, Nat.div_one]; omega), hgrain, hone]
  · have hten : 10 ^ 1 ≤ 10 ^ k := Nat.pow_le_pow_right (by decide) hk
    have hfew : n / 10 ^ k ≤ n / 10 := Nat.div_le_div_left hten (by decide)
    refine ⟨k, _, hsmall, hle.trans hn', hsize.cast (by push_cast; ring), ?_⟩
    rw [if_neg (by omega)]

end Slots

/-! ### The labels -/

/-- A distance that is not negative is not negative on the scale of the grain either. -/
theorem not_isBelow {i : Nat} (hi : i ≤ 2 ^ 52) :
    ¬Double.round (Float.ofNat i / (1.0 / 10.0)) * (1.0 / 10.0) < 0.0 := by
  have hgrain : Double.Positive (1.0 / 10.0) := ⟨by decide +kernel, by decide +kernel, by decide +kernel⟩
  have hi' := Double.isHalves_ofNat (n := i) (by omega)
  have hlow := Double.div_le_div_right ((Double.isHalves_zero.le_iff hi').2 (by omega)) hgrain
  have hhigh := Double.div_le_div_right (Double.ofNat_le_ofNat hi) hgrain
  have hfinite := Double.isFinite_of_le_of_le hlow hhigh (by decide +kernel) (by decide +kernel)
  have hnonneg := Double.le_congr (Double.rank_zero_div hgrain) rfl hlow
  obtain ⟨hfinite', hround⟩ := Double.nonneg_round hfinite hnonneg
  have hproduct := Double.mul_le_mul_right hround (by decide) hfinite' hgrain
  have hzero : Double.rank (0.0 * (1.0 / 10.0)) = Double.rank 0.0 := by decide +kernel
  intro hlt
  have hle := (Double.le_iff.1 hproduct).2.2
  have hlt' := (Double.lt_iff.1 hlt).2.2
  omega

/-- The multiples of one are listed one after another. -/
theorem multiples_eq {last : Float} {n : Nat} (hlast : IsHalves last (2 * n - 2)) (hn : n ≤ 2 ^ 52)
    {i count fuel : Nat} (hcount : i + count = n) (hfuel : count < fuel) :
    multiples 0.0 last ⟨1.0, 1.0 / 10.0⟩ fuel (Float.ofNat i) = (List.range' i count).map Float.ofNat := by
  induction count generalizing i fuel with
  | zero =>
      obtain ⟨fuel, rfl⟩ := Nat.exists_eq_succ_of_ne_zero (Nat.ne_of_gt hfuel)
      have hi := Double.isHalves_ofNat (n := i) (by omega)
      have hrest := (hlast.sub hi (by omega)).sub Double.isHalves_zero (by omega)
      have hbeyond : ¬-tolerance ≤ last - Float.ofNat i - 0.0 := by
        intro hle
        have hhalf := (hrest.le_iff Double.isHalves_neg_half).2 (by omega)
        exact absurd (Double.le_of_le_of_le hle hhalf) (by decide)
      rw [multiples, if_neg hbeyond]
      rfl
  | succ count ih =>
      obtain ⟨fuel, rfl⟩ := Nat.exists_eq_succ_of_ne_zero (Nat.ne_of_gt (Nat.zero_lt_of_lt hfuel))
      have hi := Double.isHalves_ofNat (n := i) (by omega)
      have hrest := (hlast.sub hi (by omega)).sub Double.isHalves_zero (by omega)
      have hwithin : -tolerance ≤ last - Float.ofNat i - 0.0 := by
        have hnonneg := (Double.isHalves_zero.le_iff hrest).2 (by omega)
        exact Double.le_of_le_of_le (by decide) hnonneg
      have hnext : Float.ofNat i + 1.0 = Float.ofNat (i + 1) := by
        refine (hi.add Double.isHalves_one (by omega)).eq ((Double.isHalves_ofNat (by omega)).cast ?_) (by omega)
        push_cast
        ring
      rw [multiples, if_pos hwithin]
      simp only [if_neg (not_isBelow (i := i) (by omega))]
      rw [Double.add_zero_eq (Double.ofNat_ne_negative_zero i), hnext, ih (by omega) (by omega),
        List.range'_succ, List.map_cons]

theorem isHalves_low : IsHalves (0.0 - 0.5) (-1) :=
  (Double.isHalves_zero.sub Double.isHalves_half (by decide)).cast (by decide)

/-- An axis with slots that is labelled at most as often as it has slots is labelled at the middle of each. -/
theorem ticks?_slots {high : Float} {n : Nat} (hhigh : IsHalves high (2 * n - 1)) (hn : 0 < n)
    (hn' : n ≤ 2 ^ 52) : ticks? ⟨0.0 - 0.5, high⟩ n = some ((List.range n).map Float.ofNat) := by
  have hlow := isHalves_low
  have hlt : (0.0 - 0.5 : Float) < high := (hlow.lt_iff hhigh).2 (by omega)
  have hnlt : ¬high < 0.0 - 0.5 := by
    rw [hhigh.lt_iff hlow]
    omega
  obtain ⟨e, size, he, hpow, hsize, hcoarsest⟩ := coarsestStep_eq hlow hhigh hn hn'
  have hfuel : e < 700 := by omega
  have hfinest := finestStep_eq_unit hlow hhigh hn hn' hfuel hsize hpow
  have hlast : IsHalves (high - remainder high 1.0) (2 * n - 2) :=
    (lastMultiple_isHalves hhigh hn hn' (b := 2) Double.isHalves_one (by decide) (by decide)).cast (by omega)
  have hfirst : firstMultiple (0.0 - 0.5) 1.0 = 0.0 := by decide +kernel
  have hbase : Double.floor (0.0 / (1.0 / 10.0)) * (1.0 / 10.0) = 0.0 := by decide +kernel
  have hstart : (0.0 - 0.0 : Float) = Float.ofNat 0 := by decide
  have hdifferent := not_abs_lt_tolerance (hlow.sub hhigh (by omega)) (by omega)
  unfold ticks?
  simp only [Double.minimum, Double.maximum, hlow.isNaN, hhigh.isNaN, Bool.and_self, Bool.false_eq_true, if_false,
    if_neg hnlt, if_pos hlt, if_neg hdifferent, hcoarsest, hfinest, hfirst, hbase, hstart]
  rw [multiples_eq hlast hn' (Nat.zero_add n) (by omega), List.range_eq_range']

end EvalCharts
