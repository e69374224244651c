/-
Module: EvalCharts.Crew
Purpose: Workers that share a tracker, and record one unit of progress each. A call is made of steps, and
  between two steps of a call the other workers may take any number of theirs.
Main exports: Stage, Stage.next, Crew, Crew.start, Crew.step, Crew.run, Crew.answer?
-/
import EvalCharts.Progress

namespace EvalCharts

/-- How far a worker has come with its call. -/
inductive Stage where
  | waiting
  /-- The position has been moved on. -/
  | moved
  /-- The work was seen to be done, and its display is to be cleared. -/
  | clearing
  | returned (verdict : Verdict)
deriving DecidableEq, Repr

/-- The next step of a call: move the position on, look at it, and clear the display of finished work. -/
def Stage.next (progress : UInt64) (tracker : Tracker) : Stage → Tracker × Stage
  | .waiting => (tracker.add progress, .moved)
  | .moved =>
    match tracker.verdict with
    | .finished => (tracker, .clearing)
    | verdict => (tracker, .returned verdict)
  | .clearing => (tracker.clear, .returned .finished)
  | .returned verdict => (tracker, .returned verdict)

/-- Some workers and the tracker that they share. -/
structure Crew (size : Nat) where
  tracker : Tracker
  stage : Fin size → Stage

namespace Crew

variable {size : Nat}

/-- No worker has begun. -/
def start (work : Work) (size : Nat) : Crew size :=
  ⟨.start work, fun _ => .waiting⟩

/-- What a worker leaves behind: the tracker, and its own stage. -/
def put (crew : Crew size) (worker : Fin size) (outcome : Tracker × Stage) : Crew size :=
  ⟨outcome.1, fun other => if other = worker then outcome.2 else crew.stage other⟩

/-- A worker takes its next step. -/
def step (crew : Crew size) (worker : Fin size) : Crew size :=
  crew.put worker ((crew.stage worker).next 1 crew.tracker)

/-- Workers take their steps in some order. -/
def run (crew : Crew size) (schedule : List (Fin size)) : Crew size :=
  schedule.foldl step crew

/-- The answer to the call of a worker, as soon as it has returned. -/
def answer? (crew : Crew size) (worker : Fin size) : Option (Except String Bool) :=
  match crew.stage worker with
  | .returned verdict => some verdict.answer
  | _ => none

end Crew

end EvalCharts
