/-
Module: EvalCharts.Progress
Purpose: Counting done work against an announced amount.
Main exports: Work, Work.amount, Tracker, Verdict, Verdict.answer, Tracker.add, Tracker.verdict, Tracker.clear,
  Tracker.record
-/

namespace EvalCharts

/-- An announced amount of work. -/
inductive Work where
  /-- Steps to be taken. -/
  | steps (count : UInt64)
  /-- Bytes to be processed. -/
  | bytes (count : UInt64)
deriving DecidableEq, Repr

/-- The number of units of an amount of work. -/
def Work.amount : Work → UInt64
  | .steps count => count
  | .bytes count => count

/-- How far an operation has come. -/
structure Tracker where
  length : UInt64
  position : UInt64
deriving DecidableEq, Repr

/-- What a look at a tracker shows. -/
inductive Verdict where
  | unfinished
  | finished
  /-- More work was recorded than announced. -/
  | overshot
deriving DecidableEq, Repr

/-- The report of an overshoot. -/
def overshootMessage : String := "recorded more progress than expected"

/-- What is answered after a look: whether the work is done. An overshoot is reported. -/
def Verdict.answer : Verdict → Except String Bool
  | .unfinished => .ok false
  | .finished => .ok true
  | .overshot => .error overshootMessage

namespace Tracker

/-- The tracker of work that has not begun. -/
def start (work : Work) : Tracker := ⟨work.amount, 0⟩

/-- Move the position on. It is a counter of 64 bits, so it wraps around. -/
def add (tracker : Tracker) (progress : UInt64) : Tracker :=
  { tracker with position := tracker.position + progress }

/-- Compare the position with the announced amount. -/
def verdict (tracker : Tracker) : Verdict :=
  if tracker.length < tracker.position then .overshot
  else if tracker.position = tracker.length then .finished
  else .unfinished

/-- Clear the display of work that is done. The announced amount becomes the position. -/
def clear (tracker : Tracker) : Tracker :=
  { tracker with position := tracker.length }

/-- Record some progress and look at the outcome. The display of finished work is cleared. The
    position has moved on even after an overshoot. -/
def record (tracker : Tracker) (progress : UInt64) : Verdict × Tracker :=
  let moved := tracker.add progress
  match moved.verdict with
  | .finished => (.finished, moved.clear)
  | verdict => (verdict, moved)

/-- Record several amounts of progress one after another. -/
def recordAll : Tracker → List UInt64 → List Verdict
  | _, [] => []
  | tracker, progress :: rest =>
    let (verdict, moved) := tracker.record progress
    verdict :: moved.recordAll rest

end Tracker

end EvalCharts
