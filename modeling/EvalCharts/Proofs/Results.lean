/-
Module: EvalCharts.Proofs.Results
Purpose: When computations that can fail succeed: a sequence of steps if each step does, and a list of them
  if each of its members does. Renaming the failure changes neither.
Main exports: ok_bind_eq, bind_eq_ok_iff, pure_eq_ok_iff, mapError_eq_ok_iff, map_mapError, mapM_eq_ok_iff
-/
import Mathlib.Data.List.Forall2

namespace EvalCharts

variable {ε ε' α β : Type}

theorem ok_bind_eq (value : α) (next : α → Except ε β) : (Except.ok value >>= next) = next value := rfl

/-- A sequence of two steps succeeds if both do. -/
theorem bind_eq_ok_iff {result : Except ε α} {next : α → Except ε β} {value : β} :
    (result >>= next) = .ok value ↔ ∃ middle, result = .ok middle ∧ next middle = .ok value := by
  cases result <;> simp [bind, Except.bind]

theorem pure_eq_ok_iff {value value' : α} : (pure value : Except ε α) = .ok value' ↔ value = value' := by
  simp [pure, Except.pure]

theorem mapError_eq_ok_iff {result : Except ε α} {wrap : ε → ε'} {value : α} :
    result.mapError wrap = .ok value ↔ result = .ok value := by
  cases result <;> simp [Except.mapError]

theorem map_mapError (result : Except ε α) (wrap : ε → ε') (f : α → β) :
    (result.mapError wrap).map f = (result.map f).mapError wrap := by
  cases result <;> rfl

/-- A list is read if every member of it is, each into the member at its place. -/
theorem mapM_eq_ok_iff {read : α → Except ε β} {list : List α} {values : List β} :
    list.mapM read = .ok values ↔ List.Forall₂ (fun a b => read a = .ok b) list values := by
  induction list generalizing values with
  | nil =>
      rw [List.mapM_nil, List.forall₂_nil_left_iff, pure_eq_ok_iff]
      exact eq_comm
  | cons a list ih =>
      rw [List.mapM_cons, List.forall₂_cons_left_iff, bind_eq_ok_iff]
      simp only [bind_eq_ok_iff, pure_eq_ok_iff, ih]
      constructor
      · rintro ⟨b, hb, others, hothers, rfl⟩
        exact ⟨b, others, hb, hothers, rfl⟩
      · rintro ⟨b, others, hb, hothers, rfl⟩
        exact ⟨b, hb, others, hothers, rfl⟩

end EvalCharts
