/-
Module: EvalCharts.Proofs.Chart.BarLayout
Purpose: Where bars stand if the numbers of the layout are exact. The bars of a slot are equal parts of the
  middle of it, from left to right in the order of the series, and a fifth of every slot stays empty, so
  that bars of different slots do not touch.
Main exports: Bars.left, Bars.right, Bars.left_eq, Bars.right_eq, Bars.Tiled, Bars.tiled
-/
import EvalCharts.Chart.Bars
import Mathlib

namespace EvalCharts.Bars

/-- The exact left end of the bar of a series in a slot. -/
def left (series index slot : Nat) : ℚ :=
  (span series index slot).1

/-- The exact right end of the bar of a series in a slot. -/
def right (series index slot : Nat) : ℚ :=
  (span series index slot).2

/-! ### The numbers of the layout -/

theorem count_eq (number : Nat) : (count number : ℚ) = number := by
  rw [count, ← Rat.ofScientific_eq_ofScientific, Rat.ofScientific_def, if_neg Bool.false_ne_true, Nat.pow_zero,
    Nat.mul_one]
  rfl

theorem groupWidth_eq : (groupWidth : ℚ) = 4 / 5 := by
  norm_num [groupWidth]

theorem width_eq {series : Nat} (hseries : 0 < series) : (width series : ℚ) = 4 / 5 / series := by
  rw [width, groupWidth_eq, count_eq, max_eq_left hseries]

theorem width_pos {series : Nat} (hseries : 0 < series) : 0 < (width series : ℚ) := by
  rw [width_eq hseries]
  exact div_pos (by norm_num) (Nat.cast_pos.2 hseries)

/-- The axis reaches half a slot beyond the first and the last middle. -/
theorem slotRange_eq {categories : Nat} (hcategories : 0 < categories) :
    slotRange categories = ((-1 / 2 : ℚ), (categories - 1 / 2 : ℚ)) := by
  rw [slotRange, count_eq, max_eq_left hcategories]
  norm_num

/-! ### The ends of bars -/

theorem left_eq (series index slot : Nat) :
    left series index slot = slot - 2 / 5 + index * width series := by
  have hhalf : (groupWidth / 2.0 : ℚ) = 2 / 5 := by
    rw [groupWidth_eq]
    norm_num
  rw [left, span, offset, hhalf, count_eq, count_eq]
  ring

/-- A bar ends where the next one would begin. -/
theorem right_eq (series index slot : Nat) : right series index slot = left series (index + 1) slot := by
  have hright : right series index slot = left series index slot + width series := rfl
  rw [hright, left_eq, left_eq]
  push_cast
  ring

theorem left_zero (series slot : Nat) : left series 0 slot = slot - 2 / 5 := by
  rw [left_eq, Nat.cast_zero, zero_mul, add_zero]

section Slot

variable {series : Nat} (hseries : 0 < series) (slot : Nat)

include hseries

theorem left_self : left series series slot = slot + 2 / 5 := by
  rw [left_eq, width_eq hseries, mul_div_cancel₀ _ (Nat.cast_pos.2 hseries).ne']
  ring

theorem left_strictMono : StrictMono fun index => left series index slot := by
  intro index index' hlt
  have hmul := mul_lt_mul_of_pos_right (Nat.cast_lt (α := ℚ).2 hlt) (width_pos hseries)
  simp only [left_eq]
  linarith

/-- Bars stand within the middle of their slot. -/
theorem bar_subset {index : Nat} (hindex : index < series) :
    Set.Icc (left series index slot) (right series index slot) ⊆ Set.Icc (slot - 2 / 5 : ℚ) (slot + 2 / 5) := by
  have hmono := (left_strictMono hseries slot).monotone
  rw [right_eq, ← left_zero series slot, ← left_self hseries slot]
  exact Set.Icc_subset_Icc (hmono (Nat.zero_le index)) (hmono hindex)

/-- The bars of a slot leave no gap. -/
theorem iUnion_bars (last : Nat) :
    ⋃ index < last + 1, Set.Icc (left series index slot) (right series index slot) =
      Set.Icc (left series 0 slot) (right series last slot) := by
  have hmono := (left_strictMono hseries slot).monotone
  induction last with
  | zero => simp
  | succ last ih =>
      rw [Set.biUnion_lt_succ, ih, right_eq, right_eq]
      exact Set.Icc_union_Icc_eq_Icc (hmono (Nat.zero_le _)) (hmono (Nat.le_succ _))

/-- The bars of a slot do not overlap. -/
theorem disjoint_bars {index index' : Nat} (hne : index ≠ index') :
    Disjoint (Set.Ioo (left series index slot) (right series index slot))
      (Set.Ioo (left series index' slot) (right series index' slot)) := by
  rw [right_eq, right_eq]
  exact (left_strictMono hseries slot).monotone.pairwise_disjoint_on_Ioo_succ hne

end Slot

/-- The middles of different slots do not touch. -/
theorem disjoint_slots {slot slot' : Nat} (hne : slot ≠ slot') :
    Disjoint (Set.Icc (slot - 2 / 5 : ℚ) (slot + 2 / 5)) (Set.Icc (slot' - 2 / 5 : ℚ) (slot' + 2 / 5)) := by
  wlog hlt : slot < slot' generalizing slot slot'
  · exact (this hne.symm (by omega)).symm
  have hstep : (slot : ℚ) + 1 ≤ slot' := by exact_mod_cast hlt
  rw [Set.disjoint_left]
  intro x hx hx'
  linarith [hx.2, hx'.1]

/-- The middle of a slot is a part of the axis. -/
theorem slot_subset {slot categories : Nat} (hslot : slot < categories) :
    Set.Icc (slot - 2 / 5 : ℚ) (slot + 2 / 5) ⊆ Set.Ioo (-1 / 2) (categories - 1 / 2) := by
  have hlow : (0 : ℚ) ≤ slot := Nat.cast_nonneg slot
  have hhigh : (slot : ℚ) + 1 ≤ categories := by exact_mod_cast hslot
  exact Set.Icc_subset_Ioo (by linarith) (by linarith)

/-! ### Tilings -/

/-- The bars of some series tile the slots of some categories. -/
structure Tiled (series categories : Nat) : Prop where
  /-- All bars have one width, and it is positive. -/
  positive : 0 < (width series : ℚ)
  equal : ∀ index slot, right series index slot - left series index slot = width series
  /-- In each slot the first bar begins two fifths left of the middle, every other one begins where the one
      before it ends, and the last one ends two fifths right of the middle. -/
  first : ∀ slot : Nat, left series 0 slot = slot - 2 / 5
  next : ∀ index slot, left series (index + 1) slot = right series index slot
  last : ∀ index slot : Nat, index + 1 = series → right series index slot = slot + 2 / 5
  /-- Together they cover what lies between. -/
  covered : ∀ slot : Nat, ⋃ index < series, Set.Icc (left series index slot) (right series index slot) =
    Set.Icc (slot - 2 / 5 : ℚ) (slot + 2 / 5)
  /-- No two bars overlap. -/
  disjoint : ∀ index slot index' slot', index < series → index' < series → (slot, index) ≠ (slot', index') →
    Disjoint (Set.Ioo (left series index slot) (right series index slot))
      (Set.Ioo (left series index' slot') (right series index' slot'))
  /-- Bars of different slots do not even touch. -/
  apart : ∀ index slot index' slot', index < series → index' < series → slot ≠ slot' →
    Disjoint (Set.Icc (left series index slot) (right series index slot))
      (Set.Icc (left series index' slot') (right series index' slot'))
  /-- The axis reaches half a slot beyond the first and the last middle, and all bars stand on it. -/
  range : slotRange categories = ((-1 / 2 : ℚ), (categories - 1 / 2 : ℚ))
  inside : ∀ index slot, index < series → slot < categories →
    Set.Icc (left series index slot) (right series index slot) ⊆ Set.Ioo (-1 / 2) (categories - 1 / 2)

/-- Whatever the numbers of series and categories are, the bars tile the slots. -/
theorem tiled {series categories : Nat} (hseries : 0 < series) (hcategories : 0 < categories) :
    Tiled series categories where
  positive := width_pos hseries
  equal index slot := add_sub_cancel_left (left series index slot) _
  first := left_zero series
  next index slot := (right_eq series index slot).symm
  last index slot hlast := by rw [right_eq, hlast, left_self hseries]
  covered slot := by
    obtain ⟨last, rfl⟩ : ∃ last, series = last + 1 := ⟨series - 1, by omega⟩
    rw [iUnion_bars hseries, left_zero, right_eq, left_self hseries]
  disjoint index slot index' slot' hindex hindex' hne := by
    by_cases hslot : slot = slot'
    · subst hslot
      exact disjoint_bars hseries slot fun hsame => hne (by rw [hsame])
    · exact (disjoint_slots hslot).mono
        (Set.Ioo_subset_Icc_self.trans (bar_subset hseries slot hindex))
        (Set.Ioo_subset_Icc_self.trans (bar_subset hseries slot' hindex'))
  apart index slot index' slot' hindex hindex' hne :=
    (disjoint_slots hne).mono (bar_subset hseries slot hindex) (bar_subset hseries slot' hindex')
  range := slotRange_eq hcategories
  inside index slot hindex hslot := (bar_subset hseries slot hindex).trans (slot_subset hslot)

theorem tiled_threeSeries : 0 < 3 ∧ 0 < 2 ∧ Tiled 3 2 :=
  ⟨by decide, by decide, tiled (by decide) (by decide)⟩

/-- The middle one of three bars in the second slot. -/
example : (left 3 1 1, right 3 1 1) = (13 / 15, 17 / 15) := by
  decide +kernel

end EvalCharts.Bars
