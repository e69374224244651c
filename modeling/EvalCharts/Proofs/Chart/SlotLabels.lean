/-
Module: EvalCharts.Proofs.Chart.SlotLabels
Purpose: The labels of a chart with bars. Every category is labelled once, at the middle of its own slot, and
  the labels stand in the order of the categories.
Main exports: xRange_bars, linearPixel_slots, xLabels_bars, draw_bars_labels
-/
import EvalCharts.Chart.Drawing
import EvalCharts.Proofs.Chart.Slots
import EvalCharts.Proofs.Chart.Ticks
import EvalCharts.Proofs.Double.RoundTrip

namespace EvalCharts

open Double (IsHalves)

/-! ### The extent of all slots -/

theorem xRange_bars {view : View} (hlayout : view.kind.layout = .bars)
    (hne : (Frame.ofView view).categories ≠ []) :
    (Frame.ofView view).xRange =
      ⟨0.0 - 0.5, Float.ofNat (Frame.ofView view).categories.length - 0.5⟩ := by
  have hpos := List.length_pos_iff.2 hne
  have hmax : max (Frame.ofView view).categories.length 1 = (Frame.ofView view).categories.length := by omega
  have hrange : (Frame.ofView view).xRange =
      ⟨0.0 - 0.5, Float.ofNat (max (Frame.ofView view).categories.length 1) - 0.5⟩ := by
    rw [Frame.ofView, hlayout]
    rfl
  rw [hrange, hmax]

theorem isHalves_high {n : Nat} (hn : n ≤ 2 ^ 52) : IsHalves (Float.ofNat n - 0.5) (2 * n - 1) :=
  (Double.isHalves_ofNat (by omega)).sub Double.isHalves_half (by omega)

/-- Half a slot is a double up to `2 ^ 52`, and no double is worth half a slot beyond that. -/
theorem toReal_high_iff {n : Nat} :
    Double.toReal (Float.ofNat n - 0.5) = n - 1 / 2 ↔ n ≤ 2 ^ 52 := by
  constructor
  · intro hvalue
    have hone := Double.unitsInOne_pos
    have hunits : 2 * Double.signedUnits (Float.ofNat n - 0.5) = (2 * n - 1) * Double.unitsInOne := by
      rw [Double.toReal, div_eq_iff Double.unitsInOne_cast_pos.ne'] at hvalue
      have hcast : (2 : ℝ) * Double.signedUnits (Float.ofNat n - 0.5) = (2 * n - 1) * Double.unitsInOne := by
        rw [hvalue]
        ring
      exact_mod_cast hcast
    have habs : 2 * Double.units (Float.ofNat n - 0.5) = (2 * n - 1 : Int).natAbs * Double.unitsInOne := by
      rw [← Double.natAbs_signedUnits, ← Double.natAbs_mul_natCast, ← hunits, Int.natAbs_mul]
      rfl
    obtain ⟨k, hk⟩ : ∃ k, k = 1074 := ⟨1074, rfl⟩
    rcases Double.unitsOf_on_grid (Double.magnitude (Float.ofNat n - 0.5)) k with ⟨c, hc⟩ | hlt
    · -- a whole number is not worth a half
      rw [← Double.unitsInOne_eq_two_pow hk, ← Double.units] at hc
      rw [hc, ← Nat.mul_assoc] at habs
      have heven := Nat.eq_of_mul_eq_mul_right hone habs
      omega
    · rw [← Double.unitsInOne_eq_two_pow hk, ← Double.units] at hlt
      have hbelow : (2 * n - 1 : Int).natAbs * Double.unitsInOne < 2 ^ 53 * Double.unitsInOne := by
        rw [← habs]
        linarith
      have hsize := Nat.lt_of_mul_lt_mul_right hbelow
      omega
  · intro hn
    rw [(Double.isHalves_iff_toReal.1 (isHalves_high hn)).2]
    push_cast
    ring

/-! ### Pixels of the horizontal axis -/

theorem pixel_horizontal (frame : Frame) (scale : Scale) (x : Float) :
    (Plane.ofFrame frame scale).horizontal.pixel x =
      Axis.linearPixel Plane.left (Plane.right - 1) frame.xRange.low frame.xRange.high x := by
  simp only [Axis.pixel, Plane.ofFrame, Bool.false_eq_true, if_false]

/-- How many pixels a coordinate is away from the left end of the axis, before this is rounded down. -/
def advance (share : Float) : Float :=
  329.0 * share + 1e-3

theorem isFinite_of_unit {share : Float} (h : 0.0 ≤ share) (h' : share ≤ 1.0) : share.isFinite = true :=
  Double.isFinite_of_le_of_le h h' (by decide) (by decide)

theorem advance_mono {share share' : Float} (h : 0.0 ≤ share) (hle : share ≤ share') (h' : share' ≤ 1.0) :
    advance share ≤ advance share' := by
  have hfinite := isFinite_of_unit h (Double.le_of_le_of_le hle h')
  have hfinite' := isFinite_of_unit (Double.le_of_le_of_le h hle) h'
  have hlength : Double.Positive 329.0 := ⟨by decide, by decide, by decide⟩
  have hproduct := Double.mul_le_mul_right hle hfinite hfinite' hlength
  rw [Double.mul_swap hfinite hlength.finite, Double.mul_swap hfinite' hlength.finite] at hproduct
  exact Double.add_le_add hproduct (by decide) (by decide) (by decide)

/-- Nothing on the axis is farther away than the last pixel. -/
theorem floor_advance_bounds {share : Float} (h : 0.0 ≤ share) (h' : share ≤ 1.0) :
    (advance share).isFinite = true ∧ 0 ≤ ⌊Double.toReal (advance share)⌋ ∧
      ⌊Double.toReal (advance share)⌋ < 330 := by
  have hlow := advance_mono (by decide) h h'
  have hhigh := advance_mono h h' (by decide)
  have hfinite := Double.isFinite_of_le_of_le hlow hhigh (by decide +kernel) (by decide +kernel)
  have hnonneg : 0.0 ≤ advance share := Double.le_of_le_of_le (by decide +kernel) hlow
  have hlast : advance 1.0 < 330.0 := by decide +kernel
  have hbelow : advance share < 330.0 :=
    Double.lt_of_rank_le_of_lt (Double.isNaN_of_isFinite hfinite) (Double.le_iff.1 hhigh).2.2 hlast
  have hend := (Double.isHalves_iff_toReal.1
    (Double.isHalves_literal (x := 330.0) (n := 330) (by decide) (by decide))).2
  rw [← Double.toReal_le_iff (by decide) hfinite, Double.toReal, Double.signedUnits_eq_zero (by decide),
    Int.cast_zero, zero_div] at hnonneg
  rw [← Double.toReal_lt_iff hfinite (by decide), hend] at hbelow
  refine ⟨hfinite, Int.floor_nonneg.2 hnonneg, Int.floor_lt.2 ?_⟩
  push_cast at hbelow ⊢
  linarith

section Slots

variable {low high : Float} {n : Nat} (hlow : IsHalves low (-1)) (hhigh : IsHalves high (2 * n - 1))
  (hn : 0 < n) (hn' : n ≤ 2 ^ 52)

include hlow hhigh hn hn'

/-- The share of the axis that is left of a coordinate on it. -/
theorem share_bounds {x : Float} {a : Int} (hx : IsHalves x a) (ha : -1 ≤ a) (ha' : a ≤ 2 * n - 1) :
    0.0 ≤ (x - low) / (high - low) ∧ (x - low) / (high - low) ≤ 1.0 := by
  have hdistance := hx.sub hlow (by omega)
  have hextent := hhigh.sub hlow (by omega)
  have hpos := hextent.positive (by omega)
  have hlower := Double.div_le_div_right ((Double.isHalves_zero.le_iff hdistance).2 (by omega)) hpos
  have hupper := Double.div_le_div_right ((hdistance.le_iff hextent).2 (by omega)) hpos
  exact ⟨Double.le_congr (Double.rank_zero_div hpos) rfl hlower,
    Double.le_congr rfl (Double.rank_div_self hpos) hupper⟩

/-- The pixel of a coordinate on the axis. -/
theorem linearPixel_slots {x : Float} {a : Int} (hx : IsHalves x a) (ha : -1 ≤ a) (ha' : a ≤ 2 * n - 1) :
    Axis.linearPixel Plane.left (Plane.right - 1) low high x =
      Plane.left + ⌊Double.toReal (advance ((x - low) / (high - low)))⌋ := by
  obtain ⟨hnonneg, hone⟩ := share_bounds hlow hhigh hn hn' hx ha ha'
  obtain ⟨hfinite, hfloor, hfloor'⟩ := floor_advance_bounds hnonneg hone
  have hdifferent : (high == low) = false := by
    rw [Bool.eq_false_iff, ne_eq, Double.beq_iff]
    rintro ⟨-, -, hrank⟩
    exact absurd ((hlow.lt_iff hhigh).2 (by omega)) fun hlt => (Double.lt_iff.1 hlt).2.2.ne hrank.symm
  have hshare := Double.isInf_of_isFinite (isFinite_of_unit hnonneg hone)
  have hlength : Float.ofInt (Plane.right - 1 - Plane.left) = 329.0 := by decide
  have horder : Plane.left < Plane.right - 1 := by decide
  unfold Axis.linearPixel
  simp only [hdifferent, Bool.false_eq_true, if_false, hshare, hlength, if_pos horder]
  rw [toPixel, ← advance, Double.toInt_floor hfinite (by omega) (by omega)]

/-- All coordinates on the axis have pixels inside the chart. -/
theorem linearPixel_bounds {x : Float} {a : Int} (hx : IsHalves x a) (ha : -1 ≤ a) (ha' : a ≤ 2 * n - 1) :
    Plane.left ≤ Axis.linearPixel Plane.left (Plane.right - 1) low high x ∧
      Axis.linearPixel Plane.left (Plane.right - 1) low high x < Plane.right := by
  obtain ⟨hnonneg, hone⟩ := share_bounds hlow hhigh hn hn' hx ha ha'
  obtain ⟨-, hfloor, hfloor'⟩ := floor_advance_bounds hnonneg hone
  have hright : Plane.right = Plane.left + 330 := rfl
  rw [linearPixel_slots hlow hhigh hn hn' hx ha ha']
  omega

/-- Pixels stand in the order of the coordinates. -/
theorem linearPixel_mono {x x' : Float} {a a' : Int} (hx : IsHalves x a) (hx' : IsHalves x' a') (ha : -1 ≤ a)
    (hle : a ≤ a') (ha' : a' ≤ 2 * n - 1) :
    Axis.linearPixel Plane.left (Plane.right - 1) low high x ≤
      Axis.linearPixel Plane.left (Plane.right - 1) low high x' := by
  obtain ⟨hnonneg, hone⟩ := share_bounds hlow hhigh hn hn' hx ha (hle.trans ha')
  obtain ⟨hnonneg', hone'⟩ := share_bounds hlow hhigh hn hn' hx' (ha.trans hle) ha'
  have hpos := (hhigh.sub hlow (by omega)).positive (by omega)
  have hshare := Double.div_le_div_right
    (((hx.sub hlow (by omega)).le_iff (hx'.sub hlow (by omega))).2 (by omega)) hpos
  have hadvance := advance_mono hnonneg hshare hone'
  rw [linearPixel_slots hlow hhigh hn hn' hx ha (hle.trans ha'),
    linearPixel_slots hlow hhigh hn hn' hx' (ha.trans hle) ha']
  have hfloor := Int.floor_mono ((Double.toReal_le_iff (floor_advance_bounds hnonneg hone).1
    (floor_advance_bounds hnonneg' hone').1).2 hadvance)
  omega

end Slots

/-! ### Labels -/

/-- The label at the middle of a slot is its category. -/
theorem labelAt_slot {view : View} {i : Nat} {category : Float} (hi : i ≤ 2 ^ 53)
    (hcategory : (Frame.ofView view).categories[i]? = some category) :
    (Frame.ofView view).labelAt .bars (Float.ofNat i) = Double.text category := by
  rw [Frame.labelAt, categoryAt?_of_isHalves (Double.isHalves_ofNat hi), hcategory]
  rfl

theorem text_ne_empty (x : Float) : Double.text x ≠ "" := by
  intro hempty
  have hnil := congrArg String.toList hempty
  rw [Double.text, String.toList_ofList] at hnil
  have hread := Double.read_write x
  rw [hnil] at hread
  cases hread

section Bars

variable {view : View} (hlayout : view.kind.layout = .bars) (hne : (Frame.ofView view).categories ≠ [])
  (hlength : (Frame.ofView view).categories.length ≤ 2 ^ 52)

include hlayout hne hlength

/-- A chart with bars is labelled at the middles of its slots. -/
theorem ticks?_bars :
    ticks? (Frame.ofView view).xRange ((Frame.ofView view).labelLimit .bars) =
      some ((List.range (Frame.ofView view).categories.length).map Float.ofNat) := by
  have hpos := List.length_pos_iff.2 hne
  have hlimit : (Frame.ofView view).labelLimit .bars = (Frame.ofView view).categories.length := by
    rw [Frame.labelLimit]
    omega
  rw [xRange_bars hlayout hne, hlimit]
  exact ticks?_slots (isHalves_high hlength) hpos hlength

/-- The middles of the slots stand on the axis, in their order. -/
theorem pixel_bars {i j : Nat} (hij : i ≤ j) (hj : j < (Frame.ofView view).categories.length) (scale : Scale) :
    let axis := (Plane.ofFrame (Frame.ofView view) scale).horizontal
    Plane.left ≤ axis.pixel (Float.ofNat i) ∧ axis.pixel (Float.ofNat i) ≤ axis.pixel (Float.ofNat j) ∧
      axis.pixel (Float.ofNat j) < Plane.right := by
  intro axis
  have hpixel : ∀ x, axis.pixel x = Axis.linearPixel Plane.left (Plane.right - 1)
      (0.0 - 0.5) (Float.ofNat (Frame.ofView view).categories.length - 0.5) x := by
    intro x
    rw [pixel_horizontal, xRange_bars hlayout hne]
  have hpos := List.length_pos_iff.2 hne
  have hhigh := isHalves_high hlength
  have hi := Double.isHalves_ofNat (n := i) (by omega)
  have hj' := Double.isHalves_ofNat (n := j) (by omega)
  have hfirst := linearPixel_bounds isHalves_low hhigh hpos hlength hi (by omega) (by omega)
  have hlast := linearPixel_bounds isHalves_low hhigh hpos hlength hj' (by omega) (by omega)
  rw [hpixel, hpixel]
  exact ⟨hfirst.1, linearPixel_mono isHalves_low hhigh hpos hlength hi hj' (by omega) (by omega) (by omega),
    hlast.2⟩

/-- Every category is a label, at the middle of its slot. -/
theorem xLabels_bars (scale : Scale) :
    let plane := Plane.ofFrame (Frame.ofView view) scale
    (Frame.ofView view).xLabels? plane .bars =
      some ((Frame.ofView view).categories.zipIdx.map fun (category, slot) =>
        (plane.horizontal.pixel (Float.ofNat slot), Double.text category)) := by
  intro plane
  have hlabels : ((List.range (Frame.ofView view).categories.length).map Float.ofNat).map (fun x =>
      (plane.horizontal.pixel x, (Frame.ofView view).labelAt .bars x)) =
      (Frame.ofView view).categories.zipIdx.map fun (category, slot) =>
        (plane.horizontal.pixel (Float.ofNat slot), Double.text category) := by
    apply List.ext_getElem
    · simp only [List.length_map, List.length_range, List.length_zipIdx]
    · intro i hi hi'
      have hlt : i < (Frame.ofView view).categories.length := by
        rwa [List.length_map, List.length_zipIdx] at hi'
      simp only [List.getElem_map, List.getElem_range, List.getElem_zipIdx, Nat.zero_add,
        labelAt_slot (i := i) (by omega) (List.getElem?_eq_getElem hlt)]
  rw [Frame.xLabels?, ticks?_bars hlayout hne hlength, Option.map_some, hlabels, List.filter_eq_self.2]
  intro label hlabel
  obtain ⟨entry, hentry, rfl⟩ := List.mem_map.1 hlabel
  have hslot := List.snd_lt_of_mem_zipIdx hentry
  obtain ⟨hleft, -, hright⟩ := pixel_bars hlayout hne hlength le_rfl (by omega) scale
  exact Bool.and_eq_true_iff.2 ⟨decide_eq_true hleft, decide_eq_true hright⟩

/-- The labels stand in the order of the slots. -/
theorem labels_ascending (scale : Scale) :
    let plane := Plane.ofFrame (Frame.ofView view) scale
    (((Frame.ofView view).categories.zipIdx.map fun (category, slot) =>
      (plane.horizontal.pixel (Float.ofNat slot), Double.text category)).map Prod.fst).Pairwise (· ≤ ·) := by
  intro plane
  rw [List.map_map, List.pairwise_map, List.pairwise_iff_getElem]
  intro i j hi hj hij
  rw [List.length_zipIdx] at hi hj
  rw [List.getElem_zipIdx, List.getElem_zipIdx, Nat.zero_add, Nat.zero_add]
  exact (pixel_bars hlayout hne hlength hij.le hj scale).2.1

end Bars

/-- A chart is drawn as soon as its labels are known. -/
theorem draw?_of_xLabels {view : View} {labels : List (Int × String)}
    (h : (Frame.ofView view).xLabels? (Plane.ofFrame (Frame.ofView view) view.kind.scale) view.kind.layout =
      some labels) : ∃ chart, view.draw? = some chart ∧ chart.xLabels = labels := by
  rw [View.draw?, h]
  exact ⟨_, rfl, rfl⟩

/-- Each category of a chart with bars is labelled exactly once, at the middle of its own slot, and nothing
    else is labelled. That needs the axis to reach half a slot beyond the last middle, as it does for all
    numbers of categories up to `2 ^ 52`, beyond which no double is worth a half. -/
theorem draw_bars_labels {view : View} (hlayout : view.kind.layout = .bars)
    (hne : (Frame.ofView view).categories ≠ []) :
    let frame := Frame.ofView view
    let axis := (Plane.ofFrame frame view.kind.scale).horizontal
    Double.toReal frame.xRange.low = -1 / 2 ∧
      (Double.toReal frame.xRange.high = frame.categories.length - 1 / 2 ↔
        frame.categories.length ≤ 2 ^ 52) ∧
      (Double.toReal frame.xRange.high = frame.categories.length - 1 / 2 →
        ticks? frame.xRange (frame.labelLimit view.kind.layout) =
            some ((List.range frame.categories.length).map Float.ofNat) ∧
          (∀ entry ∈ frame.categories.zipIdx, entry.1.isNaN = false → frame.slot? entry.1 = some entry.2) ∧
          ∃ chart, view.draw? = some chart ∧
            chart.xLabels = (frame.categories.zipIdx.map fun (category, slot) =>
              (axis.pixel (Float.ofNat slot), Double.text category)) ∧
            (∀ label ∈ chart.xLabels, label.2 ≠ "") ∧
            (chart.xLabels.map Prod.fst).Pairwise (· ≤ ·)) := by
  intro frame axis
  have hhigh : Double.toReal frame.xRange.high = frame.categories.length - 1 / 2 ↔
      frame.categories.length ≤ 2 ^ 52 := by
    rw [xRange_bars hlayout hne]
    exact toReal_high_iff
  refine ⟨?_, hhigh, ?_⟩
  · rw [xRange_bars hlayout hne, (Double.isHalves_iff_toReal.1 isHalves_low).2]
    norm_num
  intro hrange
  have hlength := hhigh.1 hrange
  refine ⟨?_, ?_, ?_⟩
  · rw [hlayout]
    exact ticks?_bars hlayout hne hlength
  · intro entry hentry hnum
    refine slot?_eq_some_iff.2 ⟨entry.1, List.mem_zipIdx_iff_getElem?.1 hentry, ?_⟩
    exact Double.beq_iff.2 ⟨hnum, hnum, rfl⟩
  · have hlabels := xLabels_bars hlayout hne hlength view.kind.scale
    rw [← hlayout] at hlabels
    obtain ⟨chart, hchart, hxLabels⟩ := draw?_of_xLabels hlabels
    refine ⟨chart, hchart, hxLabels, ?_, ?_⟩
    · intro label hlabel
      rw [hxLabels] at hlabel
      obtain ⟨entry, -, rfl⟩ := List.mem_map.1 hlabel
      exact text_ne_empty _
    · rw [hxLabels]
      exact labels_ascending hlayout hne hlength view.kind.scale

/-- A chart of twelve windows, for which the search starts from a step of ten. -/
def twelveWindows : View :=
  ⟨.topKSimilarity, [⟨"SynThr = 6", (List.range' 1 12).map fun k => (Float.ofNat k, 0.5)⟩]⟩

theorem draw_bars_labels_twelve :
    twelveWindows.kind.layout = .bars ∧
      ∃ chart, twelveWindows.draw? = some chart ∧
        chart.xLabels.map Prod.snd = ["1", "2", "3", "4", "5", "6", "7", "8", "9", "10", "11", "12"] := by
  have hlayout : twelveWindows.kind.layout = .bars := rfl
  have hcategories : (Frame.ofView twelveWindows).categories = (List.range' 1 12).map Float.ofNat := by
    decide +kernel
  obtain ⟨-, hhigh, hlabels⟩ := draw_bars_labels hlayout (by rw [hcategories]; decide)
  obtain ⟨-, -, chart, hdraw, hxLabels, -⟩ := hlabels (hhigh.2 (by rw [hcategories]; decide))
  refine ⟨hlayout, chart, hdraw, ?_⟩
  rw [hxLabels, List.map_map]
  change List.map (Double.text ∘ Prod.fst) _ = _
  rw [← List.map_map, List.zipIdx_map_fst, hcategories]
  decide +kernel

end EvalCharts
