import EvalCharts.Main
import EvalCharts.Progress
import EvalCharts.Proofs.Chart.BarDrawing
import EvalCharts.Proofs.Chart.BarLayout
import EvalCharts.Proofs.Chart.Extent
import EvalCharts.Proofs.Chart.LogExtent
import EvalCharts.Proofs.Chart.SlotLabels
import EvalCharts.Proofs.Chart.TimeAxis
import EvalCharts.Proofs.Chart.Tolerance
import EvalCharts.Proofs.Loading
import EvalCharts.Proofs.Progress.Calls
import EvalCharts.Proofs.Progress.Crew
import EvalCharts.Proofs.View.NgramCurves
import EvalCharts.Proofs.View.Reordering
import EvalCharts.Proofs.View.TopK
import EvalCharts.Proofs.View.Windows
import EvalCharts.Proofs.View.UnitRange
import EvalCharts.Proofs.View.Summary
import EvalCharts.Proofs.CommandLine.Values
import EvalCharts.Proofs.CommandLine.RoundTrip
import EvalCharts.Proofs.CommandLine.Literals
import EvalCharts.Proofs.Groups
import EvalCharts.Proofs.Candidates
import EvalCharts.Proofs.Filtering
