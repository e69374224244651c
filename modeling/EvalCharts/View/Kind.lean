/-
Module: EvalCharts.View.Kind
Purpose: The kinds of chart, and what each of them says about its file, its axes and its marks.
Main exports: ViewKind, ViewKind.fileStem, Layout, Scale
-/

namespace EvalCharts

/-- The kinds of chart that summarize an evaluation. -/
inductive ViewKind where
  /-- Mean similarity for each candidate rank. -/
  | similarityByK
  /-- Mean best similarity among the first k candidates. -/
  | topKSimilarity
  /-- Number of explored mappings, with and without pruning. -/
  | pruning
  /-- Total processing time. -/
  | timing
deriving DecidableEq, Repr

/-- How the series of a chart are drawn. -/
inductive Layout where
  /-- One line per series, with a marker at each point. -/
  | lines
  /-- One slot per category, with one bar per series in it. -/
  | bars
deriving DecidableEq, Repr

/-- How the vertical axis is scaled. -/
inductive Scale where
  /-- Linear from zero to one. -/
  | unit
  /-- Linear from zero to the largest value. -/
  | linear
  /-- Logarithmic over the range of the positive values. -/
  | log
deriving DecidableEq, Repr

namespace ViewKind

/-- Every kind, in the order of production. -/
def all : List ViewKind := [.similarityByK, .topKSimilarity, .pruning, .timing]

/-- The name of a kind in messages. -/
def name : ViewKind → String
  | .similarityByK => "SimilarityByK"
  | .topKSimilarity => "TopKSimilarity"
  | .pruning => "Pruning"
  | .timing => "Timing"

/-- The kind of a name. -/
def ofName? (name : String) : Option ViewKind :=
  all.find? fun kind => kind.name == name

/-- The name of the chart's file, without its extension. -/
def fileStem : ViewKind → String
  | .similarityByK => "similarity_avg"
  | .topKSimilarity => "similarity"
  | .pruning => "pruning"
  | .timing => "time"

/-- The title of the horizontal axis. -/
def xTitle : ViewKind → String
  | .similarityByK => "k"
  | .topKSimilarity => "k"
  | .pruning => "|M|"
  | .timing => "|M|"

/-- The title of the vertical axis. -/
def yTitle : ViewKind → String
  | .similarityByK => "Sim"
  | .topKSimilarity => "Sim"
  | .pruning => "Explored mappings"
  | .timing => "Time (s)"

/-- How the series of a kind are drawn. -/
def layout : ViewKind → Layout
  | .similarityByK => .lines
  | .topKSimilarity => .bars
  | .pruning => .bars
  | .timing => .bars

/-- How the vertical axis of a kind is scaled. -/
def scale : ViewKind → Scale
  | .similarityByK => .unit
  | .topKSimilarity => .unit
  | .pruning => .log
  | .timing => .linear

end ViewKind

end EvalCharts
