/-
Module: EvalCharts.Proofs.Chart.LogAxis
Purpose: Whether a logarithmic axis fits the values of its chart. It starts at a power of ten that is
  strictly below all of them, so every bar has a length. It ends at a power of ten that reaches all of them,
  except for values that are above that power by so little that their logarithms are rounded to its exponent,
  and for values so small that the power is rounded to zero.
Main exports: View.Shows, logRange_eq, yRange_eq, logAxis_bottom, logAxis_top
-/
import EvalCharts.Chart.Drawing
import EvalCharts.Proofs.Aggregation
import EvalCharts.Proofs.Chart.Categories
import EvalCharts.Proofs.Double.Decades
import EvalCharts.Proofs.Loading
import EvalCharts.Proofs.Table.Append
import EvalCharts.View.Compute

namespace EvalCharts

/-- A value that a logarithmic axis is for: that of a point, if it is finite and positive. -/
def View.Shows (view : View) (y : Float) : Prop :=
  (∃ series ∈ view.series, ∃ point ∈ series.points, point.2 = y) ∧ y.isFinite = true ∧ 0.0 < y

theorem mem_positive_values {view : View} {y : Float} :
    y ∈ view.values.filter (fun value => 0.0 < value) ↔ view.Shows y := by
  rw [List.mem_filter, mem_values, decide_eq_true_eq, and_assoc, View.Shows]

/-! ### The least and the greatest value -/

theorem minimum_bounds {x y : Float} (hx : x.isNaN = false) (hy : y.isNaN = false) :
    (Double.minimum x y = x ∨ Double.minimum x y = y) ∧ Double.minimum x y ≤ x ∧
      Double.minimum x y ≤ y := by
  unfold Double.minimum
  rw [hx, hy, if_neg Bool.false_ne_true, if_neg Bool.false_ne_true]
  by_cases hlt : y < x
  · rw [if_pos hlt]
    exact ⟨Or.inr rfl, Double.le_of_lt hlt, Double.le_of_rank_le hy hy (le_refl _)⟩
  · rw [if_neg hlt]
    exact ⟨Or.inl rfl, Double.le_of_rank_le hx hx (le_refl _), Double.le_of_not_lt hy hx hlt⟩

theorem foldl_minimum {first : Float} {rest : List Float}
    (h : ∀ value ∈ first :: rest, value.isNaN = false) :
    rest.foldl Double.minimum first ∈ first :: rest ∧
      ∀ value ∈ first :: rest, rest.foldl Double.minimum first ≤ value := by
  induction rest generalizing first with
  | nil =>
      refine ⟨List.mem_cons_self, fun value hvalue => ?_⟩
      rw [List.mem_singleton.1 hvalue]
      exact Double.le_of_rank_le (h _ List.mem_cons_self) (h _ List.mem_cons_self) (le_refl _)
  | cons next rest ih =>
      have hfirst := h first List.mem_cons_self
      have hnext := h next (List.mem_cons_of_mem _ List.mem_cons_self)
      have hrest : ∀ value ∈ rest, value.isNaN = false := fun value hvalue =>
        h value (List.mem_cons_of_mem _ (List.mem_cons_of_mem _ hvalue))
      obtain ⟨hchoice, hle, hle'⟩ := minimum_bounds hfirst hnext
      have hsmaller : ∀ value ∈ Double.minimum first next :: rest, value.isNaN = false :=
        List.forall_mem_cons.2 ⟨Double.isNaN_minimum hfirst next, hrest⟩
      obtain ⟨hmem, hleast⟩ := ih hsmaller
      rw [List.forall_mem_cons] at hleast
      rw [List.foldl_cons, List.forall_mem_cons, List.forall_mem_cons]
      refine ⟨?_, Double.le_of_le_of_le hleast.1 hle, Double.le_of_le_of_le hleast.1 hle', hleast.2⟩
      rcases List.mem_cons.1 hmem with hhead | hmem
      · rw [hhead]
        rcases hchoice with hchoice | hchoice <;> rw [hchoice]
        · exact List.mem_cons_self
        · exact List.mem_cons_of_mem _ List.mem_cons_self
      · exact List.mem_cons_of_mem _ (List.mem_cons_of_mem _ hmem)

/-! ### The two exponents -/

theorem exponentOf_floor {x : Float} (hx : x.isFinite = true) (hlow : -2000 ≤ Double.toReal x)
    (hhigh : Double.toReal x ≤ 2000) : exponentOf (Double.floor x) = ⌊Double.toReal x⌋ := by
  obtain ⟨hfinite, hunits⟩ := Double.signedUnits_floor hx
  apply Double.toInt_of_signedUnits hfinite hunits
  · rw [Int.le_floor]
    push_cast
    linarith
  · rw [← Int.lt_add_one_iff, Int.floor_lt]
    push_cast
    linarith

theorem exponentOf_ceil {x : Float} (hx : x.isFinite = true) (hlow : -2000 ≤ Double.toReal x)
    (hhigh : Double.toReal x ≤ 2000) : exponentOf (Double.ceil x) = ⌈Double.toReal x⌉ := by
  obtain ⟨hfinite, hunits⟩ := Double.signedUnits_ceil hx
  apply Double.toInt_of_signedUnits hfinite hunits
  · rw [← Int.sub_one_lt_iff, Int.lt_ceil]
    push_cast
    linarith
  · rw [Int.ceil_le]
    push_cast
    linarith

/-- An axis never has to be extended to a whole decade: the step down takes its bottom below the exponent of
    its top. -/
theorem maximum_ceil_floor {x y : Float} (hx : x.isFinite = true) (hy : y.isFinite = true)
    (hlt : ⌊Double.toReal x⌋ < ⌈Double.toReal y⌉) :
    Double.maximum (Double.ceil y) (Double.floor x + 1.0) = Double.ceil y := by
  obtain ⟨hfloor, hunits⟩ := Double.signedUnits_floor hx
  obtain ⟨hceil, hunits'⟩ := Double.signedUnits_ceil hy
  have hone : (1.0 : Float).isFinite = true := by decide
  have hnotLt : ¬Double.ceil y < Double.floor x + 1.0 := by
    intro hbelow
    have hrank := (Double.lt_iff.1 hbelow).2.2
    rw [Double.rank_eq_nearestRank hceil, Double.rank_add hfloor hone, hunits, hunits',
      Double.signedUnits_one, ← add_mul] at hrank
    have hmono := Double.nearestRank_mono 1
      (mul_le_mul_of_nonneg_right (Int.add_one_le_of_lt hlt) (Int.natCast_nonneg Double.unitsInOne))
    exact absurd hrank hmono.not_gt
  rw [Double.maximum, Double.isNaN_of_isFinite hceil, if_neg Bool.false_ne_true,
    Double.isNaN_add hfloor hone, if_neg Bool.false_ne_true, if_neg hnotLt]

/-- The step down takes the exponent at the bottom of an axis below the one at its top. -/
theorem exponents_lt {least greatest : Float} (hleast : least.isFinite = true) (hpos : 0.0 < least)
    (hgreatest : greatest.isFinite = true) (hpos' : 0.0 < greatest) (hle : least ≤ greatest) :
    ⌊Double.toReal (Double.log10 least - 1e-9)⌋ < ⌈Double.toReal (Double.log10 greatest)⌉ := by
  obtain ⟨-, herror⟩ := Double.log10_error hleast hpos
  obtain ⟨-, herror'⟩ := Double.log10_error hgreatest hpos'
  obtain ⟨-, -, hhigh⟩ := Double.log10_sub_nudge hleast hpos
  have hmono := Double.logb_ten_mono (Double.toReal_pos hleast hpos)
    ((Double.toReal_le_iff hleast hgreatest).2 hle)
  rw [abs_le] at herror herror'
  rw [Int.lt_ceil]
  linarith [Int.floor_le (Double.toReal (Double.log10 least - 1e-9))]

/-- A logarithmic axis goes from one power of ten to another. The exponents are the logarithm of the least
    value, less a billionth and rounded down, and that of the greatest value, rounded up. -/
theorem logRange_eq {least greatest : Float} (hleast : least.isFinite = true) (hpos : 0.0 < least)
    (hgreatest : greatest.isFinite = true) (hpos' : 0.0 < greatest) (hle : least ≤ greatest) :
    logRange least greatest =
      ⟨Double.powerOfTen ⌊Double.toReal (Double.log10 least - 1e-9)⌋,
        Double.powerOfTen ⌈Double.toReal (Double.log10 greatest)⌉⟩ := by
  obtain ⟨-, herror⟩ := Double.log10_error hleast hpos
  obtain ⟨hlog, herror'⟩ := Double.log10_error hgreatest hpos'
  obtain ⟨hnudge, hlow, hhigh⟩ := Double.log10_sub_nudge hleast hpos
  have hbound := Double.abs_logb_le hleast hpos
  have hbound' := Double.abs_logb_le hgreatest hpos'
  have hlt := exponents_lt hleast hpos hgreatest hpos' hle
  rw [abs_le] at herror herror' hbound hbound'
  rw [logRange, maximum_ceil_floor hnudge hlog hlt, exponentOf_floor hnudge (by linarith) (by linarith),
    exponentOf_ceil hlog (by linarith) (by linarith)]

/-- The vertical axis of a logarithmic chart that shows something, by its least and its greatest value. -/
theorem yRange_eq {view : View} (hscale : view.kind.scale = .log) {y : Float} (hy : view.Shows y) :
    ∃ least greatest, view.Shows least ∧ view.Shows greatest ∧
      (∀ z, view.Shows z → least ≤ z ∧ z ≤ greatest) ∧
      (Frame.ofView view).yRange =
        ⟨Double.powerOfTen ⌊Double.toReal (Double.log10 least - 1e-9)⌋,
          Double.powerOfTen ⌈Double.toReal (Double.log10 greatest)⌉⟩ := by
  have hrange : (Frame.ofView view).yRange = Scale.log.range view.values := by
    rw [Frame.ofView, hscale]
  have hmem : ∀ z, z ∈ view.values.filter (fun value => 0.0 < value) ↔ view.Shows z := fun _ =>
    mem_positive_values
  rw [hrange, Scale.range]
  cases hvalues : view.values.filter fun value => 0.0 < value with
  | nil =>
      rw [← hmem y, hvalues] at hy
      exact absurd hy List.not_mem_nil
  | cons first rest =>
      rw [hvalues] at hmem
      have hnum : ∀ value ∈ first :: rest, value.isNaN = false := fun value hvalue =>
        Double.isNaN_of_isFinite ((hmem value).1 hvalue).2.1
      obtain ⟨hleast, hlow⟩ := foldl_minimum hnum
      obtain ⟨hgreatest, hhigh⟩ := foldl_maximum hnum
      obtain ⟨hshows, hfinite, hpos⟩ := (hmem _).1 hleast
      obtain ⟨hshows', hfinite', hpos'⟩ := (hmem _).1 hgreatest
      exact ⟨_, _, ⟨hshows, hfinite, hpos⟩, ⟨hshows', hfinite', hpos'⟩,
        fun z hz => ⟨hlow z ((hmem z).2 hz), hhigh z ((hmem z).2 hz)⟩,
        logRange_eq hfinite hpos hfinite' hpos' (hlow _ hgreatest)⟩

/-! ### The bottom -/

/-- The bottom of a logarithmic axis, at which the bars of its chart begin, is strictly below every value
    that is finite and positive, be it a power of ten or the least of all doubles. -/
theorem logAxis_bottom {view : View} (hscale : view.kind.scale = .log) :
    ∀ series ∈ view.series, ∀ point ∈ series.points, point.2.isFinite = true → 0.0 < point.2 →
      (Frame.ofView view).yRange.low < point.2 ∧
        (Frame.ofView view).baseline view.kind.scale = (Frame.ofView view).yRange.low := by
  intro series hseries point hpoint hfinite hpos
  have hshows : view.Shows point.2 := ⟨⟨series, hseries, point, hpoint, rfl⟩, hfinite, hpos⟩
  obtain ⟨least, greatest, ⟨-, hfiniteLeast, hposLeast⟩, -, hbounds, hrange⟩ := yRange_eq hscale hshows
  refine ⟨?_, by rw [Frame.baseline, if_pos hscale]⟩
  obtain ⟨-, herror⟩ := Double.log10_error hfiniteLeast hposLeast
  obtain ⟨-, -, hhigh⟩ := Double.log10_sub_nudge hfiniteLeast hposLeast
  have hbelow : Double.powerOfTen ⌊Double.toReal (Double.log10 least - 1e-9)⌋ < least := by
    apply Double.powerOfTen_lt hfiniteLeast hposLeast
    rw [abs_le] at herror
    linarith [Int.floor_le (Double.toReal (Double.log10 least - 1e-9))]
  rw [hrange]
  exact Double.lt_of_lt_of_rank_le hbelow (Double.isNaN_of_isFinite hfinite)
    (Double.le_iff.1 (hbounds _ hshows).1).2.2

/-- A power of ten, a number between two of them, and nothing. -/
def mixedCounts : View :=
  ⟨.pruning, [⟨"All", [(2.0, 1000.0), (4.0, 4500.0)]⟩, ⟨"Computed", [(6.0, 0.0)]⟩]⟩

theorem logAxis_bottom_mixedCounts :
    (Frame.ofView mixedCounts).yRange.low < 1000.0 ∧
      (Frame.ofView mixedCounts).baseline .log = (Frame.ofView mixedCounts).yRange.low := by
  have hscale : mixedCounts.kind.scale = .log := rfl
  exact logAxis_bottom hscale ⟨"All", [(2.0, 1000.0), (4.0, 4500.0)]⟩ List.mem_cons_self
    (2.0, 1000.0) List.mem_cons_self (by decide) (by decide)

/-! ### The top -/

/-- The exponent at the top of a logarithmic axis, up to what the logarithm is rounded by. -/
theorem yRange_high_eq {view : View} (hscale : view.kind.scale = .log) {y : Float} (hy : view.Shows y) :
    ∃ greatest, view.Shows greatest ∧ (∀ z, view.Shows z → Double.toReal z ≤ Double.toReal greatest) ∧
      (∀ z, view.Shows z → Real.logb 10 (Double.toReal z) ≤
        ⌈Double.toReal (Double.log10 greatest)⌉ + 1 / 2 ^ 42) ∧
      (Frame.ofView view).yRange.high = Double.powerOfTen ⌈Double.toReal (Double.log10 greatest)⌉ := by
  obtain ⟨_, greatest, -, hgreatest, hbounds, hrange⟩ := yRange_eq hscale hy
  have ⟨_, hfinite, hpos⟩ := hgreatest
  have hle : ∀ z, view.Shows z → Double.toReal z ≤ Double.toReal greatest := fun z hz =>
    (Double.toReal_le_iff hz.2.1 hfinite).2 (hbounds z hz).2
  refine ⟨greatest, hgreatest, hle, ?_, by rw [hrange]⟩
  intro z hz
  obtain ⟨-, herror⟩ := Double.log10_error hfinite hpos
  have hmono := Double.logb_ten_mono (Double.toReal_pos hz.2.1 hz.2.2) (hle z hz)
  rw [abs_le] at herror
  linarith [Int.le_ceil (Double.toReal (Double.log10 greatest))]

theorem top_reaches {view : View} (hscale : view.kind.scale = .log) {y : Float} (hy : view.Shows y) :
    y ≤ (Frame.ofView view).yRange.high ∨
      (∃ n : Int, (Frame.ofView view).yRange.high = Double.powerOfTen n ∧
        |Double.toReal y - 10 ^ n| ≤ 10 ^ n / 10 ^ 11 ∧ (0 ≤ n → n ≤ 22 → 10 ^ n < Double.toReal y)) ∨
      ∀ z, view.Shows z → Double.toReal z ≤ 10 ^ (-309 : Int) * (1 + 1 / 10 ^ 11) := by
  obtain ⟨greatest, -, -, hlogb, htop⟩ := yRange_high_eq hscale hy
  rw [htop]
  generalize ⌈Double.toReal (Double.log10 greatest)⌉ = n at hlogb ⊢
  rcases lt_or_ge n (-308) with hsmall | hlarge
  · -- there is no power of ten with this exponent among the doubles
    refine Or.inr (Or.inr fun z hz => ?_)
    obtain ⟨e, he⟩ : ∃ e : Int, e = -309 := ⟨-309, rfl⟩
    have hcast : (n : ℝ) ≤ e := Int.cast_le.2 (by omega)
    have hbound := Double.le_mul_of_logb (e := e) (δ := 1 / 2 ^ 42) (Double.toReal_pos hz.2.1 hz.2.2)
      (by norm_num) (by norm_num) (by linarith [hlogb z hz])
    rw [← he]
    refine hbound.trans (mul_le_mul_of_nonneg_left ?_ (by positivity))
    norm_num
  · rcases Double.le_powerOfTen_or_near hy.2.1 hy.2.2 hlarge (hlogb y hy) with hreach | hnear
    · exact Or.inl hreach
    · rw [or_iff_not_imp_left]
      refine fun hbeyond => Or.inl ⟨n, rfl, hnear, fun hnonneg hexact => ?_⟩
      obtain ⟨k, rfl⟩ : ∃ k : Nat, n = k := ⟨n.toNat, by omega⟩
      rw [zpow_natCast, ← Double.toReal_powerOfTen_exact (by omega), ← not_le,
        Double.toReal_le_iff hy.2.1 (Double.isFinite_powerOfTen (by omega))]
      exact hbeyond

theorem top_misses_above {view : View} (hscale : view.kind.scale = .log) {y : Float} (hy : view.Shows y)
    {n : Nat} (hpos : 0 < n) (hn : n ≤ 22) (habove : 10 ^ n < Double.toReal y)
    (hall : ∀ z, view.Shows z → Double.toReal z ≤ 10 ^ n * (1 + 1 / 2 ^ 52)) :
    (Frame.ofView view).yRange.high = Double.powerOfTen n ∧ (Frame.ofView view).yRange.high < y := by
  obtain ⟨greatest, hgreatest, -, hlogb, htop⟩ := yRange_high_eq hscale hy
  have hle : ⌈Double.toReal (Double.log10 greatest)⌉ ≤ n := by
    rw [Int.ceil_le, Int.cast_natCast]
    exact Double.log10_le_of_just_above hgreatest.2.1 hgreatest.2.2 hpos hn (hall _ hgreatest)
  have hge : (n : Int) ≤ ⌈Double.toReal (Double.log10 greatest)⌉ := by
    have hmono := Double.logb_ten_mono (by positivity) habove.le
    rw [Double.logb_ten_pow] at hmono
    have hcast : ((n - 1 : Int) : ℝ) < ⌈Double.toReal (Double.log10 greatest)⌉ := by
      push_cast
      linarith [hlogb y hy]
    have := Int.cast_lt.1 hcast
    omega
  rw [htop, le_antisymm hle hge]
  refine ⟨rfl, ?_⟩
  rw [← Double.toReal_lt_iff (Double.isFinite_powerOfTen (by omega)) hy.2.1,
    Double.toReal_powerOfTen_exact hn]
  exact habove

theorem top_misses_below {view : View} (hscale : view.kind.scale = .log) {y : Float} (hy : view.Shows y)
    (hall : ∀ z, view.Shows z → Double.toReal z ≤ 10 ^ (-309 : Int)) :
    (Frame.ofView view).yRange.high = 0.0 ∧ (Frame.ofView view).yRange.high < y := by
  obtain ⟨greatest, hgreatest, -, -, htop⟩ := yRange_high_eq hscale hy
  have hle : ⌈Double.toReal (Double.log10 greatest)⌉ ≤ -309 := by
    rw [Int.ceil_le]
    exact Double.log10_le hgreatest.2.1 hgreatest.2.2 (by decide) (hall _ hgreatest)
  rw [htop, Double.powerOfTen_of_lt (by omega)]
  exact ⟨rfl, hy.2.2⟩

/-- The top of a logarithmic axis reaches a value, or it is a power of ten that is short of the value by a
    tiny part, or all values are so small that there is no such power. The second happens whenever the
    greatest value is above a small power of ten by as little as a double can be, and the third whenever all
    values are that small. -/
theorem logAxis_top {view : View} (hscale : view.kind.scale = .log) {y : Float} (hy : view.Shows y) :
    let top := (Frame.ofView view).yRange.high
    (y ≤ top ∨
      (∃ n : Int, top = Double.powerOfTen n ∧ |Double.toReal y - 10 ^ n| ≤ 10 ^ n / 10 ^ 11 ∧
        (0 ≤ n → n ≤ 22 → 10 ^ n < Double.toReal y)) ∨
      ∀ z, view.Shows z → Double.toReal z ≤ 10 ^ (-309 : Int) * (1 + 1 / 10 ^ 11)) ∧
    (∀ n : Nat, 0 < n → n ≤ 22 → 10 ^ n < Double.toReal y →
      (∀ z, view.Shows z → Double.toReal z ≤ 10 ^ n * (1 + 1 / 2 ^ 52)) →
      top = Double.powerOfTen n ∧ top < y) ∧
    ((∀ z, view.Shows z → Double.toReal z ≤ 10 ^ (-309 : Int)) → top = 0.0 ∧ top < y) :=
  ⟨top_reaches hscale hy, fun _ => top_misses_above hscale hy, top_misses_below hscale hy⟩

theorem logAxis_top_mixedCounts : 4500.0 ≤ (Frame.ofView mixedCounts).yRange.high := by
  have hshows : mixedCounts.Shows 4500.0 :=
    ⟨⟨_, List.mem_cons_self, (4.0, 4500.0), List.mem_cons_of_mem _ List.mem_cons_self, rfl⟩,
      by decide, by decide⟩
  have hlit : (4500.0 : Float) = Float.ofNat 4500 := by decide
  have hvalue : Double.toReal 4500.0 = 4500 := by
    rw [hlit, Double.toReal_ofNat (by decide), Nat.cast_ofNat]
  have hscale : mixedCounts.kind.scale = .log := rfl
  rcases (logAxis_top hscale hshows).1 with hreach | ⟨n, -, hnear, -⟩ | hsmall
  · exact hreach
  · rw [hvalue, abs_le] at hnear
    rcases le_or_gt n 3 with hlow | hhigh
    · have hpow : (10 : ℝ) ^ n ≤ 10 ^ (3 : Int) := zpow_le_zpow_right₀ (by norm_num) hlow
      norm_num at hpow
      linarith
    · have hpow : (10 : ℝ) ^ (4 : Int) ≤ 10 ^ n := zpow_le_zpow_right₀ (by norm_num) hhigh
      norm_num at hpow
      linarith
  · have hle := hsmall _ hshows
    have hpow : (10 : ℝ) ^ (-309 : Int) ≤ 10 ^ (0 : Int) := zpow_le_zpow_right₀ (by norm_num) (by decide)
    rw [hvalue] at hle
    rw [zpow_zero] at hpow
    generalize (10 : ℝ) ^ (-309 : Int) = small at hle hpow
    norm_num at hle
    linarith

/-- A results file with one run of interest, of the given number of candidate mappings. -/
def singleCount (count : String) : Tree :=
  ⟨[(["k"], .file (Table.fullHeader ++
    Utf8.encode ("1;1;0.9;0.4;1;5;0.6;3;3;2;0.5;" ++ count ++ ";0;0;0;0;0\n").toList))]⟩

/-- The axis ends at a thousand, although there is a value above it. -/
theorem frame_justAboveThousand :
    ∃ dataset, (singleCount "1000.0000000000001").load "k" = .ok dataset ∧
      let view := ViewKind.pruning.compute Config.initial dataset
      view.kind.scale = .log ∧ view.Shows 1000.0000000000001 ∧
        (Frame.ofView view).yRange = ⟨100.0, 1000.0⟩ ∧
        ¬1000.0000000000001 ≤ (Frame.ofView view).yRange.high := by
  have hframe : ((singleCount "1000.0000000000001").load "k").map (fun dataset =>
      (ViewKind.pruning.compute Config.initial dataset,
        (Frame.ofView (ViewKind.pruning.compute Config.initial dataset)).yRange)) =
      .ok (⟨.pruning, [⟨"All", [(2.0, 1000.0000000000001)]⟩, ⟨"Distinct", [(2.0, 0.0)]⟩,
        ⟨"Computed", [(2.0, 0.0)]⟩]⟩, ⟨100.0, 1000.0⟩) := by
    decide +kernel
  cases hload : (singleCount "1000.0000000000001").load "k" with
  | error failure =>
      rw [hload] at hframe
      cases hframe
  | ok dataset =>
      rw [hload] at hframe
      obtain ⟨hview, hrange⟩ := Prod.mk.inj (Except.ok.inj hframe)
      refine ⟨dataset, rfl, ?_⟩
      intro view
      rw [hrange]
      refine ⟨rfl, ⟨?_, by decide, by decide⟩, rfl, by decide⟩
      rw [show view = _ from hview]
      exact ⟨_, List.mem_cons_self, _, List.mem_cons_self, rfl⟩

end EvalCharts
