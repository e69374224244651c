/-
Module: EvalCharts.Chart.Drawing
Purpose: Drawing a view: the marks of its series, the labels of its categories and its legend, all in
  pixels.
Main exports: Colour, Mark, LegendEntry, Chart, View.drawnSeries, View.draw?
-/
import EvalCharts.Chart.Axis
import EvalCharts.Chart.Ticks

namespace EvalCharts

/-- A colour by its red, green and blue parts. -/
structure Colour where
  red : UInt8
  green : UInt8
  blue : UInt8
deriving DecidableEq, Repr

namespace Colour

/-- Two hexadecimal digits. -/
def partText (part : UInt8) : List Char :=
  let digit (value : Nat) : Char := ("0123456789ABCDEF".toList[value]?).getD '0'
  [digit (part.toNat / 16), digit (part.toNat % 16)]

/-- A colour as it is written in drawings. -/
def text (colour : Colour) : String :=
  String.ofList ('#' :: partText colour.red ++ partText colour.green ++ partText colour.blue)

/-- The colours of successive series, over and over again. -/
def palette : List Colour :=
  [⟨0, 0, 0⟩, ⟨128, 128, 128⟩, ⟨169, 169, 169⟩]

/-- The colour of the series with an index. -/
def ofIndex (index : Nat) : Colour :=
  (palette[index % palette.length]?).getD ⟨0, 0, 0⟩

end Colour

/-- Something that is drawn for a series. -/
inductive Mark where
  /-- A filled rectangle, by its upper left corner. -/
  | rectangle (x y width height : Int) (colour : Colour)
  | circle (x y radius : Int) (colour : Colour)
  | line (points : List (Int × Int)) (colour : Colour)
deriving DecidableEq, Repr

/-- The sign of a series in the legend. -/
inductive Sample where
  | box (width height : Nat)
  | stroke (length : Nat)
deriving DecidableEq, Repr

/-- A line of the legend. -/
structure LegendEntry where
  label : String
  sample : Sample
  colour : Colour
deriving DecidableEq, Repr

/-- A drawn view. -/
structure Chart where
  width : Nat
  height : Nat
  xTitle : String
  yTitle : String
  /-- Where the horizontal axis is labelled, and with what. -/
  xLabels : List (Int × String)
  marks : List Mark
  legend : List LegendEntry
deriving DecidableEq, Repr

/-- Whether a point can be drawn: its value must be finite, and positive on a logarithmic axis. -/
def Scale.shows (scale : Scale) (point : Float × Float) : Bool :=
  point.2.isFinite && (scale ≠ .log || 0.0 < point.2)

/-- The series of a view that have something to show, with the points that are shown, and with the
    index that decides on colour and place. -/
def View.drawnSeries (view : View) : List (Series × Nat) :=
  let shown := view.series.map fun series =>
    { series with points := series.points.filter view.kind.scale.shows }
  shown.zipIdx.filter fun (series, _) => !series.points.isEmpty

/-- The label of a category axis at a coordinate. Lines are labelled where they are at whole
    coordinates, bars under the middle of their slots. -/
def Frame.labelAt (frame : Frame) (layout : Layout) (x : Float) : String :=
  match layout with
  | .lines => if Double.isWhole x then Double.text x else ""
  | .bars => ((frame.categoryAt? x).map Double.text).getD ""

/-- The largest number of labels on the horizontal axis. -/
def Frame.labelLimit (frame : Frame) : Layout → Nat
  | .lines => 11
  | .bars => max frame.categories.length 1

/-- The value at which bars begin. -/
def Frame.baseline (frame : Frame) (scale : Scale) : Float :=
  if scale = .log then frame.yRange.low else 0.0

/-- The rectangle between two corners. -/
def Mark.between (first second : Int × Int) (colour : Colour) : Mark :=
  .rectangle (min first.1 second.1) (min first.2 second.2) (first.1 - second.1).natAbs
    (first.2 - second.2).natAbs colour

/-- A line with a circle at each of its points. -/
def lineMarks (plane : Plane) (points : List (Float × Float)) (colour : Colour) : List Mark :=
  let pixels := points.map fun (x, y) => plane.point x y
  pixels.map (fun (x, y) => .circle x y 3 colour) ++ [.line pixels colour]

/-- The bar of a point, from the baseline to its value. There is no slot for a NaN. -/
def barMark? (frame : Frame) (plane : Plane) (baseline : Float) (series index : Nat)
    (point : Float × Float) : Option Mark :=
  (frame.slot? point.1).map fun slot =>
    let (left, right) := Bars.span series index slot
    .between (plane.point left baseline) (plane.point right point.2) (.ofIndex index)

/-- The marks of a series. -/
def View.seriesMarks (view : View) (frame : Frame) (plane : Plane) (series : Series × Nat) :
    List Mark :=
  match view.kind.layout with
  | .lines => lineMarks plane series.1.points (.ofIndex series.2)
  | .bars =>
    let baseline := frame.baseline view.kind.scale
    series.1.points.filterMap (barMark? frame plane baseline view.series.length series.2)

/-- The sign of the series in the legend. -/
def Layout.sample : Layout → Sample
  | .lines => .stroke 15
  | .bars => .box 10 8

/-- The labels of the horizontal axis that lie within the chart. -/
def Frame.xLabels? (frame : Frame) (plane : Plane) (layout : Layout) : Option (List (Int × String)) :=
  (ticks? frame.xRange (frame.labelLimit layout)).map fun ticks =>
    (ticks.map fun x => (plane.horizontal.pixel x, frame.labelAt layout x)).filter fun (pixel, _) =>
      Plane.left ≤ pixel && pixel < Plane.right

/-- Draw a view. There is no drawing if the horizontal axis has no extent. -/
def View.draw? (view : View) : Option Chart :=
  let frame := Frame.ofView view
  let plane := Plane.ofFrame frame view.kind.scale
  let layout := view.kind.layout
  (frame.xLabels? plane layout).map fun xLabels =>
    { width := 400
      height := 300
      xTitle := view.kind.xTitle
      yTitle := view.kind.yTitle
      xLabels := xLabels
      marks := view.drawnSeries.flatMap (view.seriesMarks frame plane)
      legend := view.drawnSeries.map fun (series, index) =>
        ⟨series.label, layout.sample, .ofIndex index⟩ }

end EvalCharts
