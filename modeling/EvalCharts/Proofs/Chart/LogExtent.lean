/-
Module: EvalCharts.Proofs.Chart.LogExtent
Purpose: Whether a logarithmic axis has an extent. It goes from one power of ten to a larger one, and both
  have to be reached by multiplication: a bottom below `1e-308` is lost, because it is the reciprocal of an
  infinity, and a top above `1e308` is infinite. In between the axis is as it should be.
Main exports: Interval.IsLogarithmic, isLogarithmic_powers, yRange_of_bounds, logAxis_extent
-/
import EvalCharts.Proofs.Chart.LogAxis

namespace EvalCharts

/-- An extent that a logarithmic axis can have: it starts above zero and ends at a larger finite number. -/
structure Interval.IsLogarithmic (range : Interval) : Prop where
  low_pos : 0.0 < range.low
  low_lt_high : range.low < range.high
  high_finite : range.high.isFinite = true

/-- Two powers of ten are an extent just if the lower one is not lost and the upper one is not infinite. -/
theorem isLogarithmic_powers {e e' : Int} (hlt : e < e') :
    Interval.IsLogarithmic ⟨Double.powerOfTen e, Double.powerOfTen e'⟩ ↔ -308 ≤ e ∧ e' ≤ 308 := by
  constructor
  · rintro ⟨hpos, -, hfinite⟩
    have hhigh := Double.isFinite_powerOfTen_iff.1 hfinite
    exact ⟨(Double.powerOfTen_pos_iff (by omega)).1 hpos, hhigh⟩
  · rintro ⟨hlow, hhigh⟩
    exact ⟨(Double.powerOfTen_pos_iff (by omega)).2 hlow, Double.powerOfTen_lt_powerOfTen hlow hlt hhigh,
      Double.isFinite_powerOfTen_iff.2 hhigh⟩

/-! ### Charts that show something -/

section Shown

variable {view : View} (hscale : view.kind.scale = .log) {least greatest : Float}
  (hleast : view.Shows least) (hgreatest : view.Shows greatest)
  (hbounds : ∀ y, view.Shows y → least ≤ y ∧ y ≤ greatest)

include hscale hleast hgreatest hbounds

/-- The vertical axis is decided by the least and the greatest value that is shown. -/
theorem yRange_of_bounds :
    (Frame.ofView view).yRange =
      ⟨Double.powerOfTen ⌊Double.toReal (Double.log10 least - 1e-9)⌋,
        Double.powerOfTen ⌈Double.toReal (Double.log10 greatest)⌉⟩ := by
  obtain ⟨least', greatest', hleast', hgreatest', hbounds', hrange⟩ := yRange_eq hscale hleast
  have hlow : least = least' := by
    refine Double.eq_of_sameKey_of_pos hleast.2.2 (Double.sameKey_iff_rank.2 (le_antisymm ?_ ?_))
    · exact (Double.le_iff.1 (hbounds _ hleast').1).2.2
    · exact (Double.le_iff.1 (hbounds' _ hleast).1).2.2
  have hhigh : greatest = greatest' := by
    refine Double.eq_of_sameKey_of_pos hgreatest.2.2 (Double.sameKey_iff_rank.2 (le_antisymm ?_ ?_))
    · exact (Double.le_iff.1 (hbounds' _ hgreatest).2).2.2
    · exact (Double.le_iff.1 (hbounds _ hgreatest').2).2.2
  rw [hrange, hlow, hhigh]

theorem isLogarithmic_iff_exponents :
    (Frame.ofView view).yRange.IsLogarithmic ↔
      -308 ≤ ⌊Double.toReal (Double.log10 least - 1e-9)⌋ ∧
        ⌈Double.toReal (Double.log10 greatest)⌉ ≤ 308 := by
  rw [yRange_of_bounds hscale hleast hgreatest hbounds]
  exact isLogarithmic_powers (exponents_lt hleast.2.1 hleast.2.2 hgreatest.2.1 hgreatest.2.2
    (hbounds _ hgreatest).1)

end Shown

theorem toReal_308 : Double.toReal 308.0 = 308 ∧ Double.toReal (-308.0) = -308 := by
  obtain ⟨hunits, hunits'⟩ := Double.signedUnits_literal (x := 308.0) (y := -308.0) (n := 308)
    (by decide) (by decide) (by decide) (by decide)
  rw [← neg_mul] at hunits'
  rw [Double.toReal_eq_of_signedUnits (n := 308) hunits, Double.toReal_eq_of_signedUnits (n := -308) hunits']
  exact ⟨Int.cast_ofNat _, by norm_num⟩

/-- The two logarithms decide on the extent as they stand, before they are rounded. -/
theorem exponents_iff {least greatest : Float} (hleast : least.isFinite = true) (hpos : 0.0 < least)
    (hgreatest : greatest.isFinite = true) (hpos' : 0.0 < greatest) :
    (-308 ≤ ⌊Double.toReal (Double.log10 least - 1e-9)⌋ ↔ -308.0 ≤ Double.log10 least - 1e-9) ∧
      (⌈Double.toReal (Double.log10 greatest)⌉ ≤ 308 ↔ Double.log10 greatest ≤ 308.0) := by
  obtain ⟨hnudge, -, -⟩ := Double.log10_sub_nudge hleast hpos
  obtain ⟨hlog, -⟩ := Double.log10_error hgreatest hpos'
  obtain ⟨htop, hbottom⟩ := toReal_308
  rw [Int.le_floor, Int.ceil_le, ← Double.toReal_le_iff (by decide) hnudge,
    ← Double.toReal_le_iff hlog (by decide), htop, hbottom]
  exact ⟨by norm_num, by norm_num⟩

/-! ### Values far from the ends, and beyond them -/

/-- A value that is a little above a power of ten keeps that exponent at the bottom. -/
theorem le_floor_of_above {x : Float} {e : Int} (hx : x.isFinite = true) (hpos : 0.0 < x)
    (h : 10 ^ e * (1 + 1 / 10 ^ 7) ≤ Double.toReal x) :
    e ≤ ⌊Double.toReal (Double.log10 x - 1e-9)⌋ := by
  obtain ⟨-, herror⟩ := Double.log10_error hx hpos
  obtain ⟨-, hlow, -⟩ := Double.log10_sub_nudge hx hpos
  rw [Int.le_floor]
  by_contra hbelow
  rw [abs_le] at herror
  have hlogb : Real.logb 10 (Double.toReal x) ≤ e + 1 / 2 ^ 27 := by linarith
  have hle := Double.le_mul_of_logb (Double.toReal_pos hx hpos) (by norm_num) (by norm_num) hlogb
  have hpow : (0 : ℝ) < 10 ^ e := by positivity
  linarith

/-- A value that is clearly above a power of ten has a larger exponent at the top. -/
theorem lt_ceil_of_above {x : Float} {e : Int} (hx : x.isFinite = true) (hpos : 0.0 < x)
    (h : 10 ^ e * (1 + 1 / 10 ^ 11) ≤ Double.toReal x) :
    e < ⌈Double.toReal (Double.log10 x)⌉ := by
  obtain ⟨-, herror⟩ := Double.log10_error hx hpos
  rw [Int.lt_ceil]
  by_contra hbelow
  rw [abs_le] at herror
  have hlogb : Real.logb 10 (Double.toReal x) ≤ e + 1 / 2 ^ 42 := by linarith
  have hle := Double.le_mul_of_logb (Double.toReal_pos hx hpos) (by norm_num) (by norm_num) hlogb
  have hpow : (0 : ℝ) < 10 ^ e := by positivity
  linarith

/-- A value up to a power of ten has a smaller exponent at the bottom. -/
theorem floor_lt_of_le {x : Float} {e : Int} (hx : x.isFinite = true) (hpos : 0.0 < x)
    (he : e.natAbs ≤ 2 ^ 53) (h : Double.toReal x ≤ 10 ^ e) :
    ⌊Double.toReal (Double.log10 x - 1e-9)⌋ < e := by
  obtain ⟨-, -, hhigh⟩ := Double.log10_sub_nudge hx hpos
  have hle := Double.log10_le hx hpos he h
  rw [Int.floor_lt]
  linarith

/-! ### The extent -/

theorem yRange_of_nothing {view : View} (hscale : view.kind.scale = .log) (h : ∀ y, ¬view.Shows y) :
    (Frame.ofView view).yRange = ⟨1.0, 10.0⟩ := by
  have hnil : view.values.filter (fun value => 0.0 < value) = [] :=
    List.eq_nil_iff_forall_not_mem.2 fun y hy => h y (mem_positive_values.1 hy)
  rw [Frame.ofView, hscale, Scale.range, hnil]

/-- The extent of a logarithmic axis. If nothing can be shown it is one decade. Otherwise it is as it should be
    just if the logarithm of the least value, after the step down, is at least -308 and that of the
    greatest value is at most 308, as they are for all values clearly above `1e-308` and up to `1e308`. A
    value up to `1e-308` moves the bottom to zero, and one clearly above `1e308` moves the top to
    infinity. -/
theorem logAxis_extent {view : View} (hscale : view.kind.scale = .log) :
    let range := (Frame.ofView view).yRange
    ((∀ y, ¬view.Shows y) → range = ⟨1.0, 10.0⟩ ∧ range.IsLogarithmic) ∧
      (∀ least greatest, view.Shows least → view.Shows greatest →
        (∀ y, view.Shows y → least ≤ y ∧ y ≤ greatest) →
        (range.IsLogarithmic ↔ -308.0 ≤ Double.log10 least - 1e-9 ∧ Double.log10 greatest ≤ 308.0)) ∧
      ((∀ y, view.Shows y → 10 ^ (-308 : Int) * (1 + 1 / 10 ^ 7) ≤ Double.toReal y ∧
          Double.toReal y ≤ 10 ^ (308 : Int)) → range.IsLogarithmic) ∧
      (∀ y, view.Shows y → Double.toReal y ≤ 10 ^ (-308 : Int) → range.low = 0.0) ∧
      ∀ y, view.Shows y → 10 ^ (308 : Int) * (1 + 1 / 10 ^ 11) ≤ Double.toReal y →
        range.high = Double.ofMagnitude false Double.infiniteMagnitude := by
  intro range
  refine ⟨fun hnothing => ?_, fun least greatest hleast hgreatest hbounds => ?_, fun hmoderate => ?_,
    fun y hy hsmall => ?_, fun y hy hlarge => ?_⟩
  · have hrange : range = ⟨1.0, 10.0⟩ := yRange_of_nothing hscale hnothing
    rw [hrange]
    exact ⟨rfl, by decide, by decide, by decide⟩
  · obtain ⟨hlow, hhigh⟩ := exponents_iff hleast.2.1 hleast.2.2 hgreatest.2.1 hgreatest.2.2
    rw [← hlow, ← hhigh]
    exact isLogarithmic_iff_exponents hscale hleast hgreatest hbounds
  · by_cases hexists : ∃ y, view.Shows y
    · obtain ⟨y, hy⟩ := hexists
      obtain ⟨least, greatest, hleast, hgreatest, hbounds, -⟩ := yRange_eq hscale hy
      refine (isLogarithmic_iff_exponents hscale hleast hgreatest hbounds).2 ⟨?_, ?_⟩
      · exact le_floor_of_above hleast.2.1 hleast.2.2 (hmoderate _ hleast).1
      · rw [Int.ceil_le]
        exact Double.log10_le hgreatest.2.1 hgreatest.2.2 (by decide) (hmoderate _ hgreatest).2
    · have hrange : range = ⟨1.0, 10.0⟩ := yRange_of_nothing hscale (not_exists.1 hexists)
      rw [hrange]
      exact ⟨by decide, by decide, by decide⟩
  · obtain ⟨least, greatest, hleast, hgreatest, hbounds, hrange⟩ := yRange_eq hscale hy
    have hle := (Double.toReal_le_iff hleast.2.1 hy.2.1).2 (hbounds _ hy).1
    have hlost := floor_lt_of_le hleast.2.1 hleast.2.2 (by decide) (hle.trans hsmall)
    change (Frame.ofView view).yRange.low = 0.0
    rw [hrange]
    exact Double.powerOfTen_of_lt hlost
  · obtain ⟨least, greatest, hleast, hgreatest, hbounds, hrange⟩ := yRange_eq hscale hy
    have hle := (Double.toReal_le_iff hy.2.1 hgreatest.2.1).2 (hbounds _ hy).2
    have hbeyond := lt_ceil_of_above hgreatest.2.1 hgreatest.2.2 (hlarge.trans hle)
    change (Frame.ofView view).yRange.high = _
    rw [hrange]
    exact Double.powerOfTen_of_gt hbeyond

theorem logAxis_extent_mixedCounts : (Frame.ofView mixedCounts).yRange.IsLogarithmic := by
  have hscale : mixedCounts.kind.scale = .log := rfl
  have hshows : ∀ y, mixedCounts.Shows y → y = 1000.0 ∨ y = 4500.0 := by
    rintro y ⟨⟨series, hseries, point, hpoint, rfl⟩, -, hpos⟩
    simp only [mixedCounts, List.mem_cons, List.not_mem_nil, or_false] at hseries
    rcases hseries with rfl | rfl
    · simp only [List.mem_cons, List.not_mem_nil, or_false] at hpoint
      exact hpoint.imp (congrArg Prod.snd) (congrArg Prod.snd)
    · rw [List.mem_singleton.1 hpoint] at hpos
      exact absurd hpos (by decide)
  have hleast : mixedCounts.Shows 1000.0 :=
    ⟨⟨_, List.mem_cons_self, (2.0, 1000.0), List.mem_cons_self, rfl⟩, by decide, by decide⟩
  have hgreatest : mixedCounts.Shows 4500.0 :=
    ⟨⟨_, List.mem_cons_self, (4.0, 4500.0), List.mem_cons_of_mem _ List.mem_cons_self, rfl⟩,
      by decide, by decide⟩
  refine ((logAxis_extent hscale).2.1 _ _ hleast hgreatest fun y hy => ?_).2 (by decide +kernel)
  rcases hshows y hy with rfl | rfl
  · exact ⟨by decide, by decide⟩
  · exact ⟨by decide, by decide⟩

/-- The axis ends at infinity, although its only value is finite. -/
theorem frame_hugeCount :
    ∃ dataset, (singleCount "1.5e308").load "k" = .ok dataset ∧
      let view := ViewKind.pruning.compute Config.initial dataset
      view.kind.scale = .log ∧ (Frame.ofView view).yRange.high.isFinite = false ∧
        ¬(Frame.ofView view).yRange.IsLogarithmic := by
  have hframe : ((singleCount "1.5e308").load "k").map (fun dataset =>
      (Frame.ofView (ViewKind.pruning.compute Config.initial dataset)).yRange.high.isFinite) =
      .ok false := by
    decide +kernel
  cases hload : (singleCount "1.5e308").load "k" with
  | error failure =>
      rw [hload] at hframe
      cases hframe
  | ok dataset =>
      rw [hload] at hframe
      have hinfinite := Except.ok.inj hframe
      refine ⟨dataset, rfl, rfl, hinfinite, fun hvalid => ?_⟩
      exact Bool.false_ne_true (hinfinite.symm.trans hvalid.high_finite)

end EvalCharts
