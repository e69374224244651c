/-
Module: EvalCharts.Proofs.Chart.Slots
Purpose: Slots and categories are inverse to each other. The bars of a chart are placed by the slots of
  their coordinates and its labels by the categories at the middles of the slots; both find the same
  category, whichever of the equal coordinates it was taken from.
Main exports: slot?_eq_some_iff, categoryAt?_of_isHalves, Frame.HasSlots, frame_hasSlots
-/
import EvalCharts.Proofs.Aggregation
import EvalCharts.Proofs.Chart.Categories
import EvalCharts.Proofs.Double.Halves

namespace EvalCharts

/-! ### From coordinates to slots -/

/-- Categories that take one place have one index. -/
theorem index_unique {view : View} {i j : Nat} {category category' : Float}
    (hi : (Frame.ofView view).categories[i]? = some category)
    (hj : (Frame.ofView view).categories[j]? = some category')
    (hrank : Double.rank category = Double.rank category') : i = j := by
  have hnodup : (view.categories.map Double.rank).Nodup := (categories_ascending view).imp ne_of_lt
  have hlt := (List.getElem?_eq_some_iff.1 hi).1
  refine (List.getElem?_inj (by rwa [List.length_map]) hnodup).1 ?_
  rw [List.getElem?_map, List.getElem?_map]
  exact (congrArg (Option.map Double.rank) hi).trans
    ((congrArg some hrank).trans (congrArg (Option.map Double.rank) hj).symm)

/-- The slot of a coordinate is the only one whose category equals it. -/
theorem slot?_eq_some_iff {view : View} {x : Float} {i : Nat} :
    (Frame.ofView view).slot? x = some i ↔
      ∃ category, (Frame.ofView view).categories[i]? = some category ∧ (category == x) = true := by
  constructor
  · intro hslot
    obtain ⟨hlt, hequal, -⟩ := List.findIdx?_eq_some_iff_getElem.1 hslot
    exact ⟨_, List.getElem?_eq_getElem hlt, hequal⟩
  · rintro ⟨category, hcategory, hequal⟩
    cases hslot : (Frame.ofView view).slot? x with
    | none =>
        have hnone := List.findIdx?_eq_none_iff.1 hslot category (List.mem_of_getElem? hcategory)
        rw [hequal] at hnone
        cases hnone
    | some j =>
        obtain ⟨hlt, hequal', -⟩ := List.findIdx?_eq_some_iff_getElem.1 hslot
        have hrank := (Double.beq_iff.1 hequal').2.2.trans (Double.beq_iff.1 hequal).2.2.symm
        rw [index_unique (List.getElem?_eq_getElem hlt) hcategory hrank]

/-! ### From coordinates to categories -/

/-- There are fewer categories than there are indices. -/
theorem length_categories_lt (view : View) : (Frame.ofView view).categories.length < 2 ^ 64 := by
  have hlength := length_places_rank (fun point : Float × Float => point.1) view.points
  rwa [← categories_places, List.length_map] at hlength

/-- The category at the middle of a slot. -/
theorem categoryAt?_of_isHalves {view : View} {x : Float} {i : Nat} (hx : Double.IsHalves x (2 * i)) :
    (Frame.ofView view).categoryAt? x = (Frame.ofView view).categories[i]? := by
  have hlength := length_categories_lt view
  have hnonneg : ¬x < 0.0 := by
    rw [hx.lt_iff Double.isHalves_zero]
    omega
  have hclose : ¬(1e-6 : Float) < (0.0 : Float).abs := by decide
  rw [Frame.categoryAt?, hx.round_eq, Double.sub_self_eq hx.finite, if_neg (not_or.2 ⟨hclose, hnonneg⟩),
    Double.toInt_eq_clamp hx.finite (Double.isHalves_two_mul_iff.1 hx).2]
  by_cases hi : i < (Frame.ofView view).categories.length
  · congr 1
    omega
  · rw [List.getElem?_eq_none (by omega), List.getElem?_eq_none (by omega)]

theorem categoryAt?_of_toReal {view : View} {x : Float} {i : Nat} (hfinite : x.isFinite = true)
    (hx : Double.toReal x = i) :
    (Frame.ofView view).categoryAt? x = (Frame.ofView view).categories[i]? := by
  refine categoryAt?_of_isHalves (Double.isHalves_iff_toReal.2 ⟨hfinite, ?_⟩)
  rw [hx]
  push_cast
  ring

/-! ### Both ways -/

/-- The categories of a view, and what slots say about them. -/
structure Frame.HasSlots (frame : Frame) (view : View) : Prop where
  /-- Categories stand in strictly ascending order. -/
  ascending : frame.categories.Pairwise fun category category' =>
    Double.rank category < Double.rank category'
  /-- Categories are coordinates of points, and no coordinate is left out. -/
  coordinate : ∀ category ∈ frame.categories,
    ∃ series ∈ view.series, ∃ point ∈ series.points, point.1 = category
  complete : ∀ series ∈ view.series, ∀ point ∈ series.points,
    ∃ category ∈ frame.categories, Double.sameKey category point.1 = true
  /-- The category at a whole coordinate is the one with that index. -/
  categoryAt : ∀ (i : Nat) (x : Float), x.isFinite = true → Double.toReal x = i →
    frame.categoryAt? x = frame.categories[i]?
  /-- A coordinate that is a number has a slot. -/
  slot : ∀ series ∈ view.series, ∀ point ∈ series.points, point.1.isNaN = false →
    ∃ i, frame.slot? point.1 = some i
  /-- It is the only index of a category that equals the coordinate. -/
  unique : ∀ (i : Nat) (x : Float), frame.slot? x = some i ↔
    ∃ category, frame.categories[i]? = some category ∧ (category == x) = true
  /-- The category at the middle of the slot equals the coordinate. -/
  inverse : ∀ (i : Nat) (x middle : Float), frame.slot? x = some i → middle.isFinite = true →
    Double.toReal middle = i → ∃ category, frame.categoryAt? middle = some category ∧ (category == x) = true
  /-- Coordinates share a slot only if they are equal. -/
  distinct : ∀ (i : Nat) (x x' : Float), frame.slot? x = some i → frame.slot? x' = some i → (x == x') = true

/-- Slots and categories are inverse to each other, in every view. -/
theorem frame_hasSlots (view : View) : (Frame.ofView view).HasSlots view where
  ascending := List.pairwise_map.1 (categories_ascending view)
  coordinate category hcategory := by
    obtain ⟨point, hpoint, rfl⟩ := exists_point_of_category hcategory
    obtain ⟨series, hseries, hmem⟩ := mem_points.1 hpoint
    exact ⟨series, hseries, point, hmem, rfl⟩
  complete series hseries point hpoint := by
    obtain ⟨category, hcategory, hrank⟩ := exists_category (mem_points.2 ⟨series, hseries, hpoint⟩)
    exact ⟨category, hcategory, Double.sameKey_iff_rank.2 hrank⟩
  categoryAt i x hfinite hvalue := categoryAt?_of_toReal hfinite hvalue
  slot series hseries point hpoint hnum := by
    obtain ⟨i, category, hslot, -, -⟩ := slot?_of_mem (mem_points.2 ⟨series, hseries, hpoint⟩) hnum
    exact ⟨i, hslot⟩
  unique _ _ := slot?_eq_some_iff
  inverse i x middle hslot hfinite hvalue := by
    obtain ⟨category, hcategory, hequal⟩ := slot?_eq_some_iff.1 hslot
    exact ⟨category, (categoryAt?_of_toReal hfinite hvalue).trans hcategory, hequal⟩
  distinct i x x' hslot hslot' := by
    obtain ⟨category, hcategory, hequal⟩ := slot?_eq_some_iff.1 hslot
    obtain ⟨category', hcategory', hequal'⟩ := slot?_eq_some_iff.1 hslot'
    obtain rfl := Option.some.inj (hcategory.symm.trans hcategory')
    obtain ⟨-, hnum, hrank⟩ := Double.beq_iff.1 hequal
    obtain ⟨-, hnum', hrank'⟩ := Double.beq_iff.1 hequal'
    exact Double.beq_iff.2 ⟨hnum, hnum', hrank.symm.trans hrank'⟩

end EvalCharts
