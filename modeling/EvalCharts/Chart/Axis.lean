/-
Module: EvalCharts.Chart.Axis
Purpose: From coordinates to pixels. A chart is a square of pixels between its axes, and each axis maps
  an interval of coordinates to a row or a column of them.
Main exports: Axis, Axis.pixel, Plane, Plane.point
-/
import EvalCharts.Chart.Frame

namespace EvalCharts

-- Powers of whole numbers are those of the core library, whichever other powers are in scope.
attribute [local instance (20000)] instPowNat

/-- An axis from a first to a last pixel. The pixels of a vertical axis count downwards. -/
structure Axis where
  interval : Interval
  first : Int
  last : Int
  /-- Whether equal ratios, and not equal differences, take equal space. -/
  logarithmic : Bool
deriving DecidableEq

/-- The integer part of a double in 32 bits. -/
def toPixel (x : Float) : Int :=
  Double.toInt (-(2 ^ (31 : Nat))) (2 ^ (31 : Nat) - 1) x

namespace Axis

/-- Map a coordinate linearly. The result is rounded towards the first pixel, with a small tolerance;
    an interval of a single coordinate stands in the middle. -/
def linearPixel (first last : Int) (low high x : Float) : Int :=
  if high == low then (last - first).tdiv 2
  else
    let share := (x - low) / (high - low)
    let length := Float.ofInt (last - first)
    if share.isInf then if 0.0 < share then last else first
    else if first < last then first + toPixel (Double.floor (length * share + 1e-3))
    else first + toPixel (Double.ceil (length * share - 1e-3))

/-- The pixel of a coordinate. A logarithmic axis that begins at zero begins a little above it. -/
def pixel (axis : Axis) (x : Float) : Int :=
  let ⟨low, high⟩ := axis.interval
  if axis.logarithmic then
    let low := if low == 0.0 then high * 1e-5 else low
    linearPixel axis.first axis.last (Double.ln low) (Double.ln high) (Double.ln x)
  else linearPixel axis.first axis.last low high x

end Axis

/-- The two axes of a chart. -/
structure Plane where
  horizontal : Axis
  vertical : Axis
deriving DecidableEq

namespace Plane

/-- The pixels between the axes of every chart, with one more on the right and at the bottom. -/
def left : Int := 60
def right : Int := 390
def top : Int := 10
def bottom : Int := 255

/-- The axes of a coordinate system. -/
def ofFrame (frame : Frame) (scale : Scale) : Plane where
  horizontal := ⟨frame.xRange, left, right - 1, false⟩
  vertical := ⟨frame.yRange, bottom - 1, top, scale == .log⟩

/-- The pixel of a point. What lies outside is moved to the edge. -/
def point (plane : Plane) (x y : Float) : Int × Int :=
  (max left (min right (plane.horizontal.pixel x)), max top (min bottom (plane.vertical.pixel y)))

end Plane

end EvalCharts
