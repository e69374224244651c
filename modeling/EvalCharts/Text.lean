/-
Module: EvalCharts.Text
Purpose: Cutting texts at a separator.
Main exports: Text.cut
-/

namespace EvalCharts.Text

/-- The pieces of a text between the places where a separator stands. There is one piece more than
    there are separators. -/
def cut (separator : Char) : List Char → List (List Char)
  | [] => [[]]
  | char :: text =>
    if char = separator then [] :: cut separator text
    else
      match cut separator text with
      | [] => [[char]]
      | piece :: pieces => (char :: piece) :: pieces

theorem cut_ne_nil (separator : Char) (text : List Char) : cut separator text ≠ [] := by
  cases text with
  | nil => simp [cut]
  | cons char text =>
    unfold cut
    split
    · simp
    · split <;> simp

theorem cut_of_not_mem {separator : Char} {text : List Char} (h : separator ∉ text) :
    cut separator text = [text] := by
  induction text with
  | nil => rfl
  | cons char text ih =>
    simp only [List.mem_cons, not_or] at h
    simp [cut, ih h.2, Ne.symm h.1]

/-- A piece without separators is cut off at the separator behind it. -/
theorem cut_append_cons {separator : Char} {piece : List Char} (h : separator ∉ piece)
    (rest : List Char) : cut separator (piece ++ separator :: rest) = piece :: cut separator rest := by
  induction piece with
  | nil => simp [cut]
  | cons char piece ih =>
    simp only [List.mem_cons, not_or] at h
    simp [cut, ih h.2, Ne.symm h.1]

end EvalCharts.Text
