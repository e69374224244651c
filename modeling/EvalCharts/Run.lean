/-
Module: EvalCharts.Run
Purpose: The rows of an evaluation: what one candidate interpretation of one test sentence scored
  and cost, under one combination of tuning parameters.
Main exports: Column, Column.name, Column.ofName?, Run, Dataset
-/

namespace EvalCharts

/-- What is known about every run. All columns hold doubles, because runs are compared with
    thresholds and averaged by them. -/
inductive Column where
  /-- Identifier of the test sentence. -/
  | id
  /-- Rank of the candidate interpretation. -/
  | k
  | simMember
  | simMeta
  | synMember
  | synMeta
  | missing
  | maxDistance
  | ngramSize
  /-- Number of ngrams recognized in the test sentence. -/
  | ngramsCount
  /-- Similarity between the produced and the expected interpretation. -/
  | similarity
  /-- Number of candidate mappings without pruning. -/
  | sentenceCount
  /-- Number of distinct candidate mappings. -/
  | sentenceCountPruned
  /-- Number of mappings that were computed. -/
  | sentencePruned
  /-- Durations of the processing phases, in milliseconds. -/
  | lemmatizationTime
  | matchTime
  | sentenceTime
deriving DecidableEq, Repr

namespace Column

/-- Every column, in the order in which a missing one is looked for. -/
def all : List Column :=
  [.id, .k, .simMember, .simMeta, .synMember, .synMeta, .missing, .maxDistance, .ngramSize,
    .ngramsCount, .similarity, .sentenceCount, .sentenceCountPruned, .sentencePruned,
    .lemmatizationTime, .matchTime, .sentenceTime]

/-- The name of a column in the header of a results file. -/
def name : Column → String
  | .id => "id"
  | .k => "k"
  | .simMember => "simMember"
  | .simMeta => "simMeta"
  | .synMember => "synMember"
  | .synMeta => "synMeta"
  | .missing => "%missing"
  | .maxDistance => "maxDistance"
  | .ngramSize => "ngramSize"
  | .ngramsCount => "ngrams_count"
  | .similarity => "similarity"
  | .sentenceCount => "sentence_count"
  | .sentenceCountPruned => "sentence_count_pruned"
  | .sentencePruned => "sentence_pruned"
  | .lemmatizationTime => "lemmatization_time"
  | .matchTime => "match_time"
  | .sentenceTime => "sentence_time"

/-- The column that a header names. -/
def ofName? (name : String) : Option Column :=
  all.find? fun column => column.name == name

theorem mem_all (column : Column) : column ∈ all := by
  cases column <;> decide

theorem name_injective {first second : Column} (h : first.name = second.name) : first = second := by
  revert h
  cases first <;> cases second <;> decide

theorem ofName?_name (column : Column) : ofName? column.name = some column := by
  cases column <;> decide

end Column

/-- One row of the results: the value it holds in each column. -/
@[ext]
structure Run where
  get : Column → Float

/-- The run that holds zero in every column. -/
def Run.zero : Run := ⟨fun _ => 0.0⟩

/-- A run with one more value. -/
def Run.set (run : Run) (column : Column) (value : Float) : Run :=
  ⟨fun other => if other = column then value else run.get other⟩

/-- All runs of an evaluation, in the order of the results file. -/
structure Dataset where
  runs : List Run

end EvalCharts
