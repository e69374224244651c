/-
Module: EvalCharts.Chart.Svg
Purpose: Drawn views as SVG texts.
Main exports: Chart.svg
-/
import EvalCharts.Chart.Drawing

namespace EvalCharts.Svg

/-- A character inside a text or an attribute. -/
def escape (char : Char) : String :=
  match char with
  | '&' => "&amp;"
  | '<' => "&lt;"
  | '>' => "&gt;"
  | '"' => "&quot;"
  | other => String.singleton other

/-- An attribute of an element. -/
def assign (entry : String × String) : String :=
  " " ++ entry.1 ++ "=\"" ++ String.join (entry.2.toList.map escape) ++ "\""

/-- An element without content. -/
def leaf (name : String) (attributes : List (String × String)) : String :=
  "<" ++ name ++ String.join (attributes.map assign) ++ "/>\n"

/-- A text with its anchor at a pixel. -/
def label (x y : Int) (content : String) : String :=
  "<text" ++ String.join ([("x", toString x), ("y", toString y)].map assign) ++ ">"
    ++ String.join (content.toList.map escape) ++ "</text>\n"

/-- The pixels of a line. -/
def pointList (points : List (Int × Int)) : String :=
  " ".intercalate (points.map fun (x, y) => toString x ++ "," ++ toString y)

/-- A mark as an element. -/
def ofMark : Mark → String
  | .rectangle x y width height colour =>
    leaf "rect"
      [("x", toString x), ("y", toString y), ("width", toString width), ("height", toString height),
        ("fill", colour.text)]
  | .circle x y radius colour =>
    leaf "circle"
      [("cx", toString x), ("cy", toString y), ("r", toString radius), ("fill", "none"),
        ("stroke", colour.text)]
  | .line points colour =>
    leaf "polyline" [("points", pointList points), ("fill", "none"), ("stroke", colour.text)]

/-- The distance between lines of the legend. -/
def lineHeight : Int := 15

/-- A line of the legend, with its sign in front of the label. -/
def ofLegendEntry (entry : LegendEntry × Nat) : String :=
  let x : Int := 300
  let y : Int := 125 + lineHeight * entry.2
  let colour := entry.1.colour
  let sign :=
    match entry.1.sample with
    | .box width height => ofMark (.rectangle x (y - 4) width height colour)
    | .stroke length => ofMark (.line [(x, y), (x + length, y)] colour)
  sign ++ label (x + 20) (y + 4) entry.1.label

end Svg

/-- The SVG text of a chart. -/
def Chart.svg (chart : Chart) : String :=
  let size := [("width", toString chart.width), ("height", toString chart.height)]
  "<svg xmlns=\"http://www.w3.org/2000/svg\"" ++ String.join (size.map Svg.assign) ++ ">\n"
    ++ Svg.leaf "rect" (size ++ [("fill", "#FFFFFF")])
    ++ Svg.label 225 290 chart.xTitle
    ++ Svg.label 15 132 chart.yTitle
    ++ String.join (chart.xLabels.map fun (x, text) => Svg.label x 268 text)
    ++ String.join (chart.marks.map Svg.ofMark)
    ++ String.join (chart.legend.zipIdx.map Svg.ofLegendEntry)
    ++ "</svg>\n"

end EvalCharts
