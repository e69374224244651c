/-
Module: EvalCharts.Chart.Bars
Purpose: Where bars stand. Each category has a slot around a whole coordinate, and the bars of a slot
  stand side by side, one for each series. The layout is given for every kind of number, so that what
  is drawn with doubles can be compared with what exact numbers would give.
Main exports: Bars.count, Bars.slotRange, Bars.width, Bars.span
-/

namespace EvalCharts.Bars

variable {α : Type} [OfScientific α] [Add α] [Sub α] [Mul α] [Div α]

/-- A natural number among the numbers of the layout. -/
def count (number : Nat) : α :=
  OfScientific.ofScientific number false 0

/-- The part of a slot that is covered by bars. -/
def groupWidth : α := 0.8

/-- The extent of all slots. There is room for one even if there are none. -/
def slotRange (categories : Nat) : α × α :=
  (0.0 - 0.5, count (max categories 1) - 0.5)

/-- The width of a bar if every slot has room for a number of series. -/
def width (series : Nat) : α :=
  groupWidth / count (max series 1)

/-- Where the bars of a series begin, seen from the middle of their slots. -/
def offset (series index : Nat) : α :=
  count index * width series - groupWidth / 2.0

/-- The left and right end of the bar of a series in a slot. -/
def span (series index slot : Nat) : α × α :=
  let left := count slot + offset series index
  (left, left + width series)

end EvalCharts.Bars
