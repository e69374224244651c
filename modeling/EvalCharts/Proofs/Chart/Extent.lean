/-
Module: EvalCharts.Proofs.Chart.Extent
Purpose: Whether the horizontal axis of a line chart fits the points. It ends half a rank beyond the least
  and the greatest candidate rank, which is beyond them only as long as the half is not lost to rounding.
Main exports: Frame.Fits, xRange_lines, HasMargin, fits_iff, frame_similarityByK
-/
import EvalCharts.Proofs.Chart.Categories
import EvalCharts.Proofs.Double.Margin
import EvalCharts.Proofs.Loading
import EvalCharts.Proofs.Table.Append
import EvalCharts.Proofs.View.MeanCurves
import EvalCharts.Proofs.View.TopK

namespace EvalCharts

/-- The horizontal axis is finite and not empty, and all points of the view lie within it. -/
structure Frame.Fits (frame : Frame) (view : View) : Prop where
  low_finite : frame.xRange.low.isFinite = true
  high_finite : frame.xRange.high.isFinite = true
  low_lt_high : frame.xRange.low < frame.xRange.high
  inside : ∀ series ∈ view.series, ∀ point ∈ series.points,
    frame.xRange.low < point.1 ∧ point.1 < frame.xRange.high

/-! ### The first and the last category -/

theorem rank_head_le {categories : List Float} (h : (categories.map Double.rank).Pairwise (· < ·))
    {first category : Float} (hfirst : categories.head? = some first) (hmem : category ∈ categories) :
    Double.rank first ≤ Double.rank category := by
  cases categories with
  | nil => cases hfirst
  | cons head rest =>
      obtain rfl : head = first := Option.some.inj hfirst
      rcases List.mem_cons.1 hmem with rfl | hrest
      · exact le_refl _
      · exact ((List.pairwise_cons.1 h).1 _ (List.mem_map_of_mem hrest)).le

theorem rank_le_getLast {categories : List Float} (h : (categories.map Double.rank).Pairwise (· < ·))
    {last category : Float} (hlast : categories.getLast? = some last) (hmem : category ∈ categories) :
    Double.rank category ≤ Double.rank last := by
  obtain ⟨front, rfl⟩ := List.getLast?_eq_some_iff.1 hlast
  rw [List.map_append, List.pairwise_append] at h
  rcases List.mem_append.1 hmem with hfront | hsingle
  · exact (h.2.2 _ (List.mem_map_of_mem hfront) _ List.mem_cons_self).le
  · rw [List.mem_singleton.1 hsingle]

/-- The extent of the axis under a line chart, from its least and its greatest coordinate. -/
theorem xRange_lines {view : View} (hlayout : view.kind.layout = .lines) (hne : view.points ≠ []) :
    ∃ first ∈ view.points, ∃ last ∈ view.points,
      (Frame.ofView view).xRange = ⟨first.1 - 0.5, last.1 + 0.5⟩ ∧
      ∀ point ∈ view.points,
        Double.rank first.1 ≤ Double.rank point.1 ∧ Double.rank point.1 ≤ Double.rank last.1 := by
  obtain ⟨point, hpoint⟩ := List.exists_mem_of_ne_nil _ hne
  obtain ⟨category, hcategory, -⟩ := exists_category hpoint
  have hcategories := List.ne_nil_of_mem hcategory
  obtain ⟨low, hlow⟩ := Option.ne_none_iff_exists'.1 (mt List.head?_eq_none_iff.1 hcategories)
  obtain ⟨high, hhigh⟩ := Option.ne_none_iff_exists'.1 (mt List.getLast?_eq_none_iff.1 hcategories)
  obtain ⟨first, hfirst, rfl⟩ := exists_point_of_category (List.mem_of_mem_head? hlow)
  obtain ⟨last, hlast, rfl⟩ := exists_point_of_category (List.mem_of_getLast? hhigh)
  refine ⟨first, hfirst, last, hlast, ?_, ?_⟩
  · rw [Frame.ofView, hlayout, Layout.range, hlow, hhigh]
  · intro point hpoint
    obtain ⟨category, hmem, hrank⟩ := exists_category hpoint
    rw [← hrank]
    exact ⟨rank_head_le (categories_ascending view) hlow hmem,
      rank_le_getLast (categories_ascending view) hhigh hmem⟩

/-! ### Axes that fit -/

theorem fits_of_xRange {view : View} {range : Interval} (hrange : (Frame.ofView view).xRange = range)
    (hlow : range.low.isFinite = true) (hhigh : range.high.isFinite = true) (hlt : range.low < range.high)
    (hinside : ∀ point ∈ view.points, range.low < point.1 ∧ point.1 < range.high) :
    (Frame.ofView view).Fits view := by
  subst hrange
  exact ⟨hlow, hhigh, hlt, fun series hseries point hpoint =>
    hinside point (mem_points.2 ⟨series, hseries, hpoint⟩)⟩

theorem exists_least {α : Type} (place : α → Int) {members : List α} (hne : members ≠ []) :
    ∃ least ∈ members, ∀ member ∈ members, place least ≤ place member := by
  obtain ⟨least, hleast⟩ := Option.ne_none_iff_exists'.1 (mt (List.argmin_eq_none (f := place)).1 hne)
  exact ⟨least, List.argmin_mem hleast, fun member hmember => List.le_of_mem_argmin hmember hleast⟩

/-- Some members have a least and a greatest coordinate, to both of which a half makes a difference. -/
def HasMargin {α : Type} (coordinate : α → Float) (members : List α) : Prop :=
  ∃ least ∈ members, ∃ greatest ∈ members,
    (∀ member ∈ members,
      coordinate least ≤ coordinate member ∧ coordinate member ≤ coordinate greatest) ∧
    coordinate least - 0.5 < coordinate least ∧ coordinate greatest < coordinate greatest + 0.5

/-- A margin depends on the places of the coordinates alone. -/
theorem HasMargin.congr {α β : Type} {coordinate : α → Float} {coordinate' : β → Float}
    {members : List α} {members' : List β}
    (hsame : ∀ p, (∃ member ∈ members, Double.rank (coordinate member) = p) ↔
      ∃ member ∈ members', Double.rank (coordinate' member) = p)
    (h : HasMargin coordinate members) : HasMargin coordinate' members' := by
  obtain ⟨least, hleast, greatest, hgreatest, hbounds, hlow, hhigh⟩ := h
  obtain ⟨least', hleast', hrankLow⟩ := (hsame _).1 ⟨least, hleast, rfl⟩
  obtain ⟨greatest', hgreatest', hrankHigh⟩ := (hsame _).1 ⟨greatest, hgreatest, rfl⟩
  refine ⟨least', hleast', greatest', hgreatest', ?_, ?_, ?_⟩
  · intro member' hmember'
    obtain ⟨member, hmember, hrank⟩ := (hsame _).2 ⟨member', hmember', rfl⟩
    obtain ⟨hle, hle'⟩ := hbounds member hmember
    exact ⟨Double.le_congr hrankLow.symm hrank hle, Double.le_congr hrank hrankHigh.symm hle'⟩
  · exact Double.lt_congr (Double.rank_sub_half_congr hrankLow.symm) hrankLow.symm hlow
  · exact Double.lt_congr hrankHigh.symm (Double.rank_add_half_congr hrankHigh.symm) hhigh

theorem fits_of_points_eq_nil {view : View} (hlayout : view.kind.layout = .lines)
    (hnil : view.points = []) : (Frame.ofView view).Fits view := by
  have hcategories : view.categories = [] := by
    rw [View.categories, hnil]
    rfl
  have hrange : (Frame.ofView view).xRange = ⟨0.0, 1.0⟩ := by
    rw [Frame.ofView, hlayout, hcategories]
    rfl
  refine fits_of_xRange hrange (by decide) (by decide) (by decide) ?_
  intro point hpoint
  exact absurd (hnil ▸ hpoint) List.not_mem_nil

/-- Points that stand inside the axis can be compared with its two ends, so the first and the last
    category are their bounds. -/
theorem hasMargin_of_fits {view : View} (hlayout : view.kind.layout = .lines)
    (hne : view.points ≠ []) (hfits : (Frame.ofView view).Fits view) :
    HasMargin Prod.fst view.points := by
  obtain ⟨first, hfirst, last, hlast, hrange, hbetween⟩ := xRange_lines hlayout hne
  have hinside : ∀ point ∈ view.points, first.1 - 0.5 < point.1 ∧ point.1 < last.1 + 0.5 := by
    intro point hpoint
    obtain ⟨series, hseries, hmem⟩ := mem_points.1 hpoint
    have := hfits.inside series hseries point hmem
    rwa [hrange] at this
  have hnum := fun point hpoint => (Double.lt_iff.1 (hinside point hpoint).1).2.1
  refine ⟨first, hfirst, last, hlast, ?_, (hinside first hfirst).1, (hinside last hlast).2⟩
  intro point hpoint
  exact ⟨Double.le_of_rank_le (hnum first hfirst) (hnum point hpoint) (hbetween point hpoint).1,
    Double.le_of_rank_le (hnum point hpoint) (hnum last hlast) (hbetween point hpoint).2⟩

theorem fits_of_hasMargin {view : View} (hlayout : view.kind.layout = .lines)
    (hne : view.points ≠ []) (hmargin : HasMargin Prod.fst view.points) :
    (Frame.ofView view).Fits view := by
  obtain ⟨first, hfirst, last, hlast, hrange, hbetween⟩ := xRange_lines hlayout hne
  obtain ⟨least, hleast, greatest, hgreatest, hbounds, hlow, hhigh⟩ := hmargin
  -- the least coordinate is the first category, and the greatest one the last
  have hrankLow : Double.rank least.1 = Double.rank first.1 :=
    le_antisymm (Double.le_iff.1 (hbounds first hfirst).1).2.2 (hbetween least hleast).1
  have hrankHigh : Double.rank greatest.1 = Double.rank last.1 :=
    le_antisymm (hbetween greatest hgreatest).2 (Double.le_iff.1 (hbounds last hlast).2).2.2
  have hlow' := Double.lt_congr (Double.rank_sub_half_congr hrankLow) hrankLow hlow
  have hhigh' := Double.lt_congr hrankHigh (Double.rank_add_half_congr hrankHigh) hhigh
  have hinside : ∀ point ∈ view.points, first.1 - 0.5 < point.1 ∧ point.1 < last.1 + 0.5 := by
    intro point hpoint
    have hnum := (Double.le_iff.1 (hbounds point hpoint).1).2.1
    exact ⟨Double.lt_of_lt_of_rank_le hlow' hnum (hbetween point hpoint).1,
      Double.lt_of_rank_le_of_lt hnum (hbetween point hpoint).2 hhigh'⟩
  have hends : first.1 - 0.5 < last.1 + 0.5 :=
    Double.lt_of_lt_of_rank_le (hinside last hlast).1 (Double.lt_iff.1 hhigh').2.1
      (Double.lt_iff.1 hhigh').2.2.le
  exact fits_of_xRange hrange (Double.isFinite_sub_half hlow').2 (Double.isFinite_add_half hhigh').2
    hends hinside

/-- The axis fits the points of a line chart just if a half makes a difference to the least and to the
    greatest coordinate, and all coordinates can be compared with them. -/
theorem fits_iff {view : View} (hlayout : view.kind.layout = .lines) :
    (Frame.ofView view).Fits view ↔
      view.points = [] ∨ HasMargin Prod.fst view.points := by
  by_cases hnil : view.points = []
  · exact iff_of_true (fits_of_points_eq_nil hlayout hnil) (Or.inl hnil)
  · rw [or_iff_right hnil]
    exact ⟨hasMargin_of_fits hlayout hnil, fits_of_hasMargin hlayout hnil⟩

/-! ### Candidate ranks -/

theorem points_similarityByK (config : Config) (dataset : Dataset) :
    (ViewKind.similarityByK.compute config dataset).points =
      meanCurve (fun run => run.get .k) (fun run => run.get .similarity)
        (baseRuns config.thresholds dataset.runs) := by
  rw [View.points, ViewKind.compute, similarityByK_eq, List.flatMap_singleton]

theorem frame_similarityByK_fits_iff (config : Config) (dataset : Dataset) :
    (Frame.ofView (ViewKind.similarityByK.compute config dataset)).Fits
        (ViewKind.similarityByK.compute config dataset) ↔
      baseRuns config.thresholds dataset.runs = [] ∨
        HasMargin (fun run => run.get .k) (baseRuns config.thresholds dataset.runs) := by
  have hkeys := (isMeanCurve_meanCurve (fun run => run.get .k) (fun run => run.get .similarity)
    (baseRuns config.thresholds dataset.runs)).keys
  rw [fits_iff rfl, points_similarityByK]
  refine or_congr ?_ ⟨HasMargin.congr hkeys, HasMargin.congr fun p => (hkeys p).symm⟩
  constructor
  · intro hnil
    by_contra hne
    obtain ⟨run, hrun⟩ := List.exists_mem_of_ne_nil _ hne
    obtain ⟨point, hpoint, -⟩ := (hkeys _).2 ⟨run, hrun, rfl⟩
    exact absurd (hnil ▸ hpoint) List.not_mem_nil
  · intro hnil
    simp [hnil, meanCurve, places]

/-- Moderate candidate ranks always have a margin. -/
theorem hasMargin_of_moderate {α : Type} {coordinate : α → Float} {members : List α} (hne : members ≠ [])
    (h : ∀ member ∈ members,
      -4503599627370495.0 ≤ coordinate member ∧ coordinate member ≤ 4503599627370495.0) :
    HasMargin coordinate members := by
  obtain ⟨least, hleast, hlow⟩ := exists_least (fun member => Double.rank (coordinate member)) hne
  obtain ⟨greatest, hgreatest, hhigh⟩ := exists_least (fun member => -Double.rank (coordinate member)) hne
  have hnum : ∀ member ∈ members, (coordinate member).isNaN = false := fun member hmember =>
    (Double.le_iff.1 (h member hmember).1).2.1
  refine ⟨least, hleast, greatest, hgreatest, ?_, ?_, ?_⟩
  · intro member hmember
    exact ⟨Double.le_of_rank_le (hnum _ hleast) (hnum _ hmember) (hlow member hmember),
      Double.le_of_rank_le (hnum _ hmember) (hnum _ hgreatest) (by have := hhigh member hmember; omega)⟩
  · exact Double.sub_half_lt (h _ hleast).1 (h _ hleast).2
  · exact Double.lt_add_half (h _ hgreatest).1 (h _ hgreatest).2

/-- A single extreme coordinate leaves no margin. -/
theorem not_hasMargin_of_extreme {α : Type} {coordinate : α → Float} {members : List α} {member : α}
    (hmember : member ∈ members)
    (h : (coordinate member).isFinite = false ∨ coordinate member ≤ -9007199254740992.0 ∨
      9007199254740992.0 ≤ coordinate member) :
    ¬HasMargin coordinate members := by
  rintro ⟨least, hleast, greatest, hgreatest, hbounds, hlow, hhigh⟩
  obtain ⟨hle, hle'⟩ := hbounds member hmember
  obtain ⟨hlowFinite, -⟩ := Double.isFinite_sub_half hlow
  obtain ⟨hhighFinite, -⟩ := Double.isFinite_add_half hhigh
  obtain ⟨hnum, hnum', hrank⟩ := Double.le_iff.1 hle
  obtain ⟨-, hnum'', hrank'⟩ := Double.le_iff.1 hle'
  rcases h with hinfinite | hfar | hfar
  · have hbelow := Double.rank_of_isFinite hlowFinite
    have habove := Double.rank_of_isFinite hhighFinite
    have hfinite := Double.isFinite_of_rank hnum' (by omega) (by omega)
    rw [hinfinite] at hfinite
    cases hfinite
  · obtain ⟨-, hbound, hrankFar⟩ := Double.le_iff.1 hfar
    exact Double.not_sub_half_lt (Double.le_of_rank_le hnum hbound (hrank.trans hrankFar)) hlow
  · obtain ⟨hbound, -, hrankFar⟩ := Double.le_iff.1 hfar
    exact Double.not_lt_add_half (Double.le_of_rank_le hbound hnum'' (hrankFar.trans hrank')) hhigh

/-- The horizontal axis of the mean similarities fits their candidate ranks just if a half makes a
    difference to the least and to the greatest of them. It does up to `2 ^ 52 - 1`, and it does not from
    `2 ^ 53` on, nor where a candidate rank is infinite or NaN. -/
theorem frame_similarityByK (config : Config) (dataset : Dataset) :
    let view := ViewKind.similarityByK.compute config dataset
    let runs := baseRuns config.thresholds dataset.runs
    ((Frame.ofView view).Fits view ↔ runs = [] ∨ HasMargin (fun run => run.get .k) runs) ∧
      ((∀ run ∈ runs, -4503599627370495.0 ≤ run.get .k ∧ run.get .k ≤ 4503599627370495.0) →
        (Frame.ofView view).Fits view) ∧
      ((∃ run ∈ runs, (run.get .k).isFinite = false ∨ run.get .k ≤ -9007199254740992.0 ∨
          9007199254740992.0 ≤ run.get .k) →
        ¬(Frame.ofView view).Fits view) := by
  intro view runs
  have hiff : (Frame.ofView view).Fits view ↔ runs = [] ∨ HasMargin (fun run => run.get .k) runs :=
    frame_similarityByK_fits_iff config dataset
  refine ⟨hiff, ?_, ?_⟩
  · intro hmoderate
    by_cases hnil : runs = []
    · exact hiff.2 (Or.inl hnil)
    · exact hiff.2 (Or.inr (@hasMargin_of_moderate Run (fun run => run.get .k) runs hnil hmoderate))
  · rintro ⟨run, hrun, hextreme⟩ hfits
    rcases hiff.1 hfits with hnil | hmargin
    · rw [hnil] at hrun
      exact absurd hrun List.not_mem_nil
    · exact @not_hasMargin_of_extreme Run (fun run => run.get .k) runs run hrun hextreme hmargin

theorem frame_similarityByK_steady :
    (Frame.ofView (ViewKind.similarityByK.compute twoWindows steadyCandidates)).Fits
      (ViewKind.similarityByK.compute twoWindows steadyCandidates) :=
  (frame_similarityByK twoWindows steadyCandidates).2.1 (by decide +kernel)

/-! ### A candidate rank that takes up a half -/

/-- A results file with one run of interest, of the given candidate rank. -/
def singleRank (rank : String) : Tree :=
  ⟨[(["k"], .file (Table.fullHeader ++
    Utf8.encode ("1;" ++ rank ++ ";0.9;0.4;1;5;0.6;3;3;0;0.5;0;0;0;0;0;0\n").toList))]⟩

/-- The axis has no extent, although there is a point. -/
theorem frame_farRank :
    ∃ dataset, (singleRank "10000000000000000").load "k" = .ok dataset ∧
      (Frame.ofView (ViewKind.similarityByK.compute Config.initial dataset)).xRange = ⟨1e16, 1e16⟩ ∧
      (ViewKind.similarityByK.compute Config.initial dataset).points = [(1e16, 0.5)] ∧
      ¬(Frame.ofView (ViewKind.similarityByK.compute Config.initial dataset)).Fits
        (ViewKind.similarityByK.compute Config.initial dataset) := by
  have hframe : ((singleRank "10000000000000000").load "k").map (fun dataset =>
      ((Frame.ofView (ViewKind.similarityByK.compute Config.initial dataset)).xRange,
        (ViewKind.similarityByK.compute Config.initial dataset).points)) =
      .ok (⟨1e16, 1e16⟩, [(1e16, 0.5)]) := by
    decide +kernel
  cases hload : (singleRank "10000000000000000").load "k" with
  | error failure =>
      rw [hload] at hframe
      cases hframe
  | ok dataset =>
      rw [hload] at hframe
      obtain ⟨hrange, hpoints⟩ := Prod.mk.inj (Except.ok.inj hframe)
      refine ⟨dataset, rfl, hrange, hpoints, ?_⟩
      intro hfits
      have hlt := hfits.low_lt_high
      rw [hrange] at hlt
      exact absurd hlt (by decide)

end EvalCharts
