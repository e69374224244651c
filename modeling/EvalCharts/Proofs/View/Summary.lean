/-
Module: EvalCharts.Proofs.View.Summary
Purpose: The summary can be read back. A line is cut at its first tab and at its last two, so that tabs in
  a label do no harm, and the four parts name the point that the line reports. The text that the program
  prints can be cut into the lines again.
Main exports: cutFirst?, cutLast?, ListedPoint, listing, readLine?, readLine?_summaryLine, summary_eq_map,
  cut_printed, read_summary
-/
import EvalCharts.Text
import EvalCharts.View.Compute
import EvalCharts.Proofs.Double.RoundTrip

namespace EvalCharts

namespace Text

/-- What stands on either side of the first separator. -/
def cutFirst? (separator : Char) : List Char → Option (List Char × List Char)
  | [] => none
  | char :: text =>
    if char = separator then some ([], text)
    else (cutFirst? separator text).map fun (before, after) => (char :: before, after)

/-- What stands on either side of the last separator. -/
def cutLast? (separator : Char) (text : List Char) : Option (List Char × List Char) :=
  (cutFirst? separator text.reverse).map fun (after, before) => (before.reverse, after.reverse)

theorem cutFirst?_append {separator : Char} {before : List Char} (h : separator ∉ before)
    (after : List Char) : cutFirst? separator (before ++ separator :: after) = some (before, after) := by
  induction before with
  | nil => simp [cutFirst?]
  | cons char before ih =>
    simp only [List.mem_cons, not_or] at h
    simp [cutFirst?, ih h.2, Ne.symm h.1]

theorem cutLast?_append {separator : Char} {after : List Char} (h : separator ∉ after)
    (before : List Char) : cutLast? separator (before ++ separator :: after) = some (before, after) := by
  have hcut := cutFirst?_append (mt List.mem_reverse.1 h) before.reverse
  simp [cutLast?, hcut]

end Text

/-! ### Reading a line -/

/-- A point with the kind of the view and the label of the series that it belongs to. -/
structure ListedPoint where
  kind : ViewKind
  label : String
  x : Float
  y : Float
deriving DecidableEq

/-- The points of some views: view by view, series by series, and in the order of each series. -/
def listing (views : List View) : List ListedPoint :=
  views.flatMap fun view =>
    view.series.flatMap fun series =>
      series.points.map fun (x, y) => ⟨view.kind, series.label, x, y⟩

/-- The kind whose charts have a file stem. -/
def ViewKind.ofFileStem? (stem : List Char) : Option ViewKind :=
  all.find? fun kind => kind.fileStem.toList == stem

theorem ViewKind.ofFileStem?_fileStem (kind : ViewKind) :
    ofFileStem? kind.fileStem.toList = some kind := by
  cases kind <;> decide

/-- Read a line of the summary: the file stem in front of its first tab, the coordinates behind its last
    two tabs, and the label between them. -/
def readLine? (line : String) : Option ListedPoint := do
  let (stem, rest) ← Text.cutFirst? '\t' line.toList
  let (rest, y) ← Text.cutLast? '\t' rest
  let (label, x) ← Text.cutLast? '\t' rest
  let kind ← ViewKind.ofFileStem? stem
  return { kind, label := String.ofList label, x := ← (Double.read x).toOption,
           y := ← (Double.read y).toOption }

/-- The parts of a line, with tabs between them. -/
theorem toList_summaryLine (kind : ViewKind) (label : String) (point : Float × Float) :
    (summaryLine kind label point).toList =
      kind.fileStem.toList ++ '\t' ::
        ((label.toList ++ '\t' :: Double.write point.1) ++ '\t' :: Double.write point.2) := by
  have htab : "\t".toList = ['\t'] := by decide
  simp [summaryLine, Double.text, htab]

/-- A line of the summary reads back as its point, whatever the label holds. -/
theorem readLine?_summaryLine (kind : ViewKind) (label : String) (point : Float × Float) :
    readLine? (summaryLine kind label point) = some ⟨kind, label, point.1, point.2⟩ := by
  have hstem : '\t' ∉ kind.fileStem.toList := by cases kind <;> decide
  have htext := Double.not_mem_write (c := '\t') (by decide)
  unfold readLine?
  rw [toList_summaryLine]
  simp only [Option.bind_eq_bind, Text.cutFirst?_append hstem, Text.cutLast?_append (htext _),
    Option.bind_some, ViewKind.ofFileStem?_fileStem, Double.read_write, Except.toOption]
  simp

/-- There is one line for each point, in the order of the listing. -/
theorem summary_eq_map (views : List View) :
    summary views = (listing views).map fun point =>
      summaryLine point.kind point.label (point.x, point.y) := by
  simp [summary, listing, List.map_flatMap, Function.comp_def]

/-! ### Printing the lines -/

/-- What is printed for some lines. -/
def printed (lines : List String) : String :=
  String.join (lines.map fun line => line ++ "\n")

/-- Lines without line feeds are found again between the line feeds of what is printed. -/
theorem cut_printed {lines : List String} (h : ∀ line ∈ lines, '\n' ∉ line.toList) :
    Text.cut '\n' (printed lines).toList = lines.map String.toList ++ [[]] := by
  have hfeed : "\n".toList = ['\n'] := by decide
  induction lines with
  | nil => simp [printed, Text.cut]
  | cons line lines ih =>
      have ih := ih fun other hmem => h other (List.mem_cons_of_mem _ hmem)
      have hprinted : (printed (line :: lines)).toList =
          line.toList ++ '\n' :: (printed lines).toList := by
        simp [printed, hfeed]
      rw [hprinted, Text.cut_append_cons (h line List.mem_cons_self), ih]
      rfl

theorem not_mem_summaryLine {label : String} (h : '\n' ∉ label.toList) (kind : ViewKind)
    (point : Float × Float) : '\n' ∉ (summaryLine kind label point).toList := by
  have hstem : '\n' ∉ kind.fileStem.toList := by cases kind <;> decide
  have htext := Double.not_mem_write (c := '\n') (by decide)
  simp [toList_summaryLine, h, hstem, htext]

/-- The labels of computed series stand on one line. -/
theorem not_mem_label {config : Config} {dataset : Dataset} {view : View}
    (hview : view ∈ computeAll config dataset) {series : Series} (hseries : series ∈ view.series) :
    '\n' ∉ series.label.toList := by
  have hsweep : ∀ synMeta, '\n' ∉ (sweepLabel synMeta).toList := by
    intro synMeta
    have htext := Double.not_mem_write (c := '\n') (by decide)
    simp [sweepLabel, Double.text, htext]
  obtain ⟨kind, -, rfl⟩ := List.mem_map.1 hview
  cases kind with
  | similarityByK =>
      rw [List.mem_singleton.1 hseries]
      change '\n' ∉ "C-BI".toList
      decide
  | topKSimilarity =>
      obtain ⟨synMeta, -, rfl⟩ := List.mem_map.1 hseries
      exact hsweep synMeta
  | pruning =>
      have hlabel : series.label ∈ ["All", "Distinct", "Computed"] :=
        List.mem_map_of_mem (f := Series.label) hseries
      revert hlabel
      generalize series.label = label
      revert label
      decide
  | timing =>
      obtain ⟨synMeta, -, rfl⟩ := List.mem_map.1 hseries
      exact hsweep synMeta

/-- The summary of any views reads back, line by line, as their points. What is printed of the views of an
    evaluation is cut at its line feeds into the lines of their summary. -/
theorem read_summary :
    (∀ views : List View, (summary views).map readLine? = (listing views).map some) ∧
      ∀ (config : Config) (dataset : Dataset),
        Text.cut '\n' (printed (summary (computeAll config dataset))).toList =
          (summary (computeAll config dataset)).map String.toList ++ [[]] := by
  constructor
  · intro views
    rw [summary_eq_map, List.map_map]
    apply List.map_congr_left
    intro point _
    exact readLine?_summaryLine point.kind point.label (point.x, point.y)
  · intro config dataset
    apply cut_printed
    intro line hline
    obtain ⟨view, hview, hline⟩ := List.mem_flatMap.1 hline
    obtain ⟨series, hseries, hline⟩ := List.mem_flatMap.1 hline
    obtain ⟨point, -, rfl⟩ := List.mem_map.1 hline
    exact not_mem_summaryLine (not_mem_label hview hseries) view.kind point

/-- A label with tabs in it does no harm. -/
example :
    readLine? "time\ta\tb\t2\t0.5" = some ⟨.timing, "a\tb", 2.0, 0.5⟩ := by decide +kernel

end EvalCharts
