/-
Module: EvalCharts.Chart.Frame
Purpose: The coordinate system of a chart: the categories on its horizontal axis, and the extents of
  both axes.
Main exports: Interval, Frame, Frame.ofView, Frame.slot?, Frame.categoryAt?
-/
import EvalCharts.Chart.Bars
import EvalCharts.Double.Logarithm
import EvalCharts.Double.Power
import EvalCharts.Double.Whole
import EvalCharts.View.Basic

namespace EvalCharts

-- Powers of whole numbers are those of the core library, whichever other powers are in scope.
attribute [local instance (20000)] instPowNat

/-- The extent of an axis. -/
structure Interval where
  low : Float
  high : Float
deriving DecidableEq

/-- The coordinate system of a chart. -/
structure Frame where
  /-- The horizontal coordinates of all points, ascending and without repetitions. -/
  categories : List Float
  xRange : Interval
  yRange : Interval
deriving DecidableEq

/-- Put a category among ascending ones. It takes the place of one that is equal to it. -/
def placeCategory (category : Float) : List Float → List Float
  | [] => [category]
  | first :: rest =>
    if Double.rank category < Double.rank first then category :: first :: rest
    else if Double.sameKey category first then category :: rest
    else first :: placeCategory category rest

/-- The points of all series, series by series. -/
def View.points (view : View) : List (Float × Float) :=
  view.series.flatMap Series.points

/-- The categories of a view. -/
def View.categories (view : View) : List Float :=
  view.points.foldl (fun categories point => placeCategory point.1 categories) []

/-- The finite values of a view. -/
def View.values (view : View) : List Float :=
  (view.points.map Prod.snd).filter Float.isFinite

/-- The extent of the horizontal axis. Lines have their actual coordinates and a margin on both sides,
    bars stand in slots. -/
def Layout.range (layout : Layout) (categories : List Float) : Interval :=
  match layout with
  | .lines =>
    match categories.head?, categories.getLast? with
    | some first, some last => ⟨first - 0.5, last + 0.5⟩
    | _, _ => ⟨0.0, 1.0⟩
  | .bars =>
    let (low, high) := Bars.slotRange categories.length
    ⟨low, high⟩

/-- The exponent of a power of ten as an integer of 32 bits. -/
def exponentOf (x : Float) : Int :=
  Double.toInt (-(2 ^ (31 : Nat))) (2 ^ (31 : Nat) - 1) x

/-- The extent of a logarithmic axis for values between two positive ones, by powers of ten. Bars start
    at the bottom of the axis, so a power of ten must stay above it. -/
def logRange (least greatest : Float) : Interval :=
  let low := Double.floor (Double.log10 least - 1e-9)
  let high := Double.maximum (Double.ceil (Double.log10 greatest)) (low + 1.0)
  ⟨Double.powerOfTen (exponentOf low), Double.powerOfTen (exponentOf high)⟩

/-- The extent of the vertical axis for some finite values. -/
def Scale.range (scale : Scale) (values : List Float) : Interval :=
  match scale with
  | .unit => ⟨0.0, 1.0⟩
  | .linear =>
    let greatest := values.foldl Double.maximum 0.0
    ⟨0.0, if 0.0 < greatest then greatest * 1.1 else 1.0⟩
  | .log =>
    match values.filter fun value => 0.0 < value with
    | [] => ⟨1.0, 10.0⟩
    | first :: rest => logRange (rest.foldl Double.minimum first) (rest.foldl Double.maximum first)

namespace Frame

/-- A coordinate system for all points of a view. -/
def ofView (view : View) : Frame :=
  let categories := view.categories
  ⟨categories, view.kind.layout.range categories, view.kind.scale.range view.values⟩

/-- The slot in which a category stands. -/
def slot? (frame : Frame) (category : Float) : Option Nat :=
  frame.categories.findIdx? fun other => other == category

/-- The category whose slot has its middle at a coordinate, up to a small tolerance. A NaN is taken for
    the middle of the first slot. -/
def categoryAt? (frame : Frame) (x : Float) : Option Float :=
  let nearest := Double.round x
  if 1e-6 < (x - nearest).abs ∨ nearest < 0.0 then none
  else frame.categories[(Double.toInt 0 (2 ^ (64 : Nat) - 1) nearest).toNat]?

end Frame

end EvalCharts
