/-
Module: EvalCharts.Proofs.Chart.Categories
Purpose: The categories of a coordinate system. They take the places of the horizontal coordinates of all
  points, each once and in ascending order, and each of them is such a coordinate. Hence every point whose
  coordinate is a number has a slot.
Main exports: mem_points, mem_values, categories_places, categories_ascending, exists_point_of_category,
  slot?_of_mem
-/
import EvalCharts.Proofs.Grouping
import EvalCharts.Proofs.Double.Order
import EvalCharts.Chart.Frame

namespace EvalCharts

theorem mem_points {view : View} {point : Float × Float} :
    point ∈ view.points ↔ ∃ series ∈ view.series, point ∈ series.points :=
  List.mem_flatMap

theorem mem_values {view : View} {y : Float} :
    y ∈ view.values ↔ (∃ series ∈ view.series, ∃ point ∈ series.points, point.2 = y) ∧ y.isFinite = true := by
  rw [View.values, List.mem_filter, List.mem_map]
  refine and_congr ⟨?_, ?_⟩ Iff.rfl
  · rintro ⟨point, hpoint, rfl⟩
    obtain ⟨series, hseries, hmem⟩ := mem_points.1 hpoint
    exact ⟨series, hseries, point, hmem, rfl⟩
  · rintro ⟨series, hseries, point, hmem, rfl⟩
    exact ⟨point, mem_points.2 ⟨series, hseries, hmem⟩, rfl⟩

/-! ### Placing one category -/

theorem mem_of_mem_placeCategory {category placed : Float} {categories : List Float}
    (h : placed ∈ placeCategory category categories) : placed = category ∨ placed ∈ categories := by
  induction categories with
  | nil => exact Or.inl (List.mem_singleton.1 h)
  | cons first rest ih =>
      unfold placeCategory at h
      split at h
      · exact List.mem_cons.1 h
      · split at h
        · rcases List.mem_cons.1 h with rfl | hmem
          · exact Or.inl rfl
          · exact Or.inr (List.mem_cons_of_mem _ hmem)
        · rcases List.mem_cons.1 h with rfl | hmem
          · exact Or.inr List.mem_cons_self
          · exact (ih hmem).imp_right (List.mem_cons_of_mem _)

/-- Just the place of the new category is taken in addition. -/
theorem mem_rank_placeCategory {category : Float} {categories : List Float} {p : Int} :
    p ∈ (placeCategory category categories).map Double.rank ↔
      p = Double.rank category ∨ p ∈ categories.map Double.rank := by
  induction categories with
  | nil => simp [placeCategory]
  | cons first rest ih =>
      unfold placeCategory
      split
      · simp
      · split
        · rename_i hsame
          have hrank : Double.rank category = Double.rank first := beq_iff_eq.1 hsame
          simp [hrank]
        · rw [List.map_cons, List.mem_cons, ih, List.map_cons, List.mem_cons]
          exact or_left_comm

theorem placeCategory_ascending {category : Float} {categories : List Float}
    (h : (categories.map Double.rank).Pairwise (· < ·)) :
    ((placeCategory category categories).map Double.rank).Pairwise (· < ·) := by
  induction categories with
  | nil => exact List.pairwise_singleton _ _
  | cons first rest ih =>
      obtain ⟨hhead, htail⟩ := List.pairwise_cons.1 h
      unfold placeCategory
      split
      · rename_i hlt
        refine List.pairwise_cons.2 ⟨?_, h⟩
        intro p hp
        rcases List.mem_cons.1 hp with rfl | hp
        · exact hlt
        · exact hlt.trans (hhead p hp)
      · split
        · rename_i hsame
          have hrank : Double.rank category = Double.rank first := beq_iff_eq.1 hsame
          rw [List.map_cons, hrank]
          exact h
        · rename_i hge hsame
          have hne : Double.rank first ≠ Double.rank category := by
            intro heq
            exact hsame (beq_iff_eq.2 heq.symm)
          refine List.pairwise_cons.2 ⟨?_, ih htail⟩
          intro p hp
          rcases mem_rank_placeCategory.1 hp with rfl | hp
          · exact lt_of_le_of_ne (not_lt.1 hge) hne
          · exact hhead p hp

/-! ### Placing all categories -/

/-- Placing the coordinates of some points, one after another. -/
theorem foldl_placeCategory (points : List (Float × Float)) :
    (points.foldl (fun categories point => placeCategory point.1 categories) []).map Double.rank =
      places (fun point : Float × Float => Double.rank point.1) points := by
  induction points using List.reverseRecOn with
  | nil => simp [places]
  | append_singleton points point ih =>
      rw [List.foldl_append]
      apply eq_places
      · apply placeCategory_ascending
        rw [ih]
        exact places_ascending _ _
      · intro p
        rw [List.foldl_cons, List.foldl_nil, mem_rank_placeCategory, ih, mem_places]
        simp only [List.mem_append, List.mem_singleton]
        grind

/-- The categories stand at the places of all horizontal coordinates. -/
theorem categories_places (view : View) :
    view.categories.map Double.rank =
      places (fun point : Float × Float => Double.rank point.1) view.points :=
  foldl_placeCategory view.points

theorem categories_ascending (view : View) : (view.categories.map Double.rank).Pairwise (· < ·) := by
  rw [categories_places]
  exact places_ascending _ _

/-- Categories are coordinates of points. -/
theorem exists_point_of_category {view : View} {category : Float} (h : category ∈ view.categories) :
    ∃ point ∈ view.points, point.1 = category := by
  unfold View.categories at h
  generalize view.points = points at h ⊢
  induction points using List.reverseRecOn with
  | nil => exact absurd h List.not_mem_nil
  | append_singleton points point ih =>
      rw [List.foldl_append] at h
      rcases mem_of_mem_placeCategory h with rfl | hmem
      · exact ⟨point, by simp, rfl⟩
      · obtain ⟨other, hother, heq⟩ := ih hmem
        exact ⟨other, List.mem_append_left _ hother, heq⟩

/-- The category of a point. -/
theorem exists_category {view : View} {point : Float × Float} (h : point ∈ view.points) :
    ∃ category ∈ view.categories, Double.rank category = Double.rank point.1 := by
  have hmem : Double.rank point.1 ∈ view.categories.map Double.rank := by
    rw [categories_places]
    exact mem_places.2 ⟨point, h, rfl⟩
  exact List.mem_map.1 hmem

/-! ### Slots -/

/-- A point whose coordinate is a number stands in the slot of its category. -/
theorem slot?_of_mem {view : View} {point : Float × Float} (h : point ∈ view.points)
    (hnum : point.1.isNaN = false) :
    ∃ slot category, (Frame.ofView view).slot? point.1 = some slot ∧
      (Frame.ofView view).categories[slot]? = some category ∧ (category == point.1) = true := by
  obtain ⟨category, hmem, hrank⟩ := exists_category h
  have hequal : (category == point.1) = true :=
    Double.beq_iff.2 ⟨(Double.isNaN_eq_of_rank_eq hrank).trans hnum, hnum, hrank⟩
  unfold Frame.slot?
  cases hslot : (Frame.ofView view).categories.findIdx? fun other => other == point.1 with
  | none => exact absurd hequal (by simpa using List.findIdx?_eq_none_iff.1 hslot category hmem)
  | some slot =>
      obtain ⟨hlt, hfound, -⟩ := List.findIdx?_eq_some_iff_getElem.1 hslot
      exact ⟨slot, _, rfl, List.getElem?_eq_getElem hlt, hfound⟩

end EvalCharts
