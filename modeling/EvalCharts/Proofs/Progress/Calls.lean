/-
Module: EvalCharts.Proofs.Progress.Calls
Purpose: Progress that is recorded call by call. Clearing the display of finished work moves nothing, so each
  answer depends on the total that has been recorded so far, as long as this does not wrap around.
Main exports: recorded, Verdict.ofTotal, Tracker.verdict_eq, Tracker.record_eq, Tracker.recordAll_getElem?,
  Tracker.recordAll_answer
-/
import EvalCharts.Loading
import Mathlib

namespace EvalCharts

/-- The number of units in some amounts of progress. -/
def recorded (amounts : List UInt64) : Nat :=
  (amounts.map UInt64.toNat).sum

theorem recorded_cons (amount : UInt64) (amounts : List UInt64) :
    recorded (amount :: amounts) = amount.toNat + recorded amounts := by
  rw [recorded, List.map_cons, List.sum_cons, recorded]

theorem recorded_take_le (amounts : List UInt64) (count : Nat) :
    recorded (amounts.take count) ≤ recorded amounts :=
  ((List.take_sublist count amounts).map UInt64.toNat).sum_le_sum fun _ _ => Nat.zero_le _

/-! ### Verdicts -/

/-- What a look shows after a total of progress towards an announced amount. -/
def Verdict.ofTotal (announced total : Nat) : Verdict :=
  if announced < total then .overshot else if total = announced then .finished else .unfinished

theorem Verdict.ofTotal_of_le {announced total : Nat} (h : total ≤ announced) :
    Verdict.ofTotal announced total = if total = announced then .finished else .unfinished :=
  if_neg (Nat.not_lt.2 h)

theorem Verdict.answer_ofTotal (announced total : Nat) :
    (Verdict.ofTotal announced total).answer =
      if announced < total then .error "recorded more progress than expected" else .ok (total = announced) := by
  unfold ofTotal
  split
  · rfl
  · split <;> simp [answer, *]

namespace Tracker

theorem verdict_eq (tracker : Tracker) :
    tracker.verdict = .ofTotal tracker.length.toNat tracker.position.toNat := by
  simp only [verdict, Verdict.ofTotal, UInt64.lt_iff_toNat_lt, ← UInt64.toNat_inj]

theorem position_eq_of_finished {tracker : Tracker} (h : tracker.verdict = .finished) :
    tracker.position = tracker.length := by
  unfold verdict at h
  split at h
  · cases h
  · split at h
    · assumption
    · cases h

/-- The position of finished work is the announced amount already. -/
theorem clear_eq {tracker : Tracker} (h : tracker.position = tracker.length) : tracker.clear = tracker := by
  cases tracker
  cases h
  rfl

theorem record_eq (tracker : Tracker) (progress : UInt64) :
    tracker.record progress = ((tracker.add progress).verdict, tracker.add progress) := by
  cases hverdict : (tracker.add progress).verdict with
  | finished => simp only [record, hverdict, clear_eq (position_eq_of_finished hverdict)]
  | unfinished => simp only [record, hverdict]
  | overshot => simp only [record, hverdict]

theorem toNat_position_add {tracker : Tracker} {progress : UInt64}
    (h : tracker.position.toNat + progress.toNat < 2 ^ 64) :
    (tracker.add progress).position.toNat = tracker.position.toNat + progress.toNat := by
  rw [add, UInt64.toNat_add]
  exact Nat.mod_eq_of_lt h

/-! ### Sequences of calls -/

theorem length_recordAll (tracker : Tracker) (amounts : List UInt64) :
    (tracker.recordAll amounts).length = amounts.length := by
  induction amounts generalizing tracker with
  | nil => rfl
  | cons amount amounts ih => rw [recordAll, List.length_cons, List.length_cons, ih]

/-- A verdict depends on what has been recorded before the first call and since then. -/
theorem recordAll_getElem? {tracker : Tracker} {amounts : List UInt64}
    (h : tracker.position.toNat + recorded amounts < 2 ^ 64) {i : Nat} (hi : i < amounts.length) :
    (tracker.recordAll amounts)[i]? = some (.ofTotal tracker.length.toNat
      (tracker.position.toNat + recorded (amounts.take (i + 1)))) := by
  induction amounts generalizing tracker i with
  | nil => cases hi
  | cons amount amounts ih =>
      rw [recorded_cons] at h
      have hposition : (tracker.add amount).position.toNat = tracker.position.toNat + amount.toNat :=
        toNat_position_add (by omega)
      rw [recordAll, record_eq, List.take_succ_cons, recorded_cons, ← Nat.add_assoc, ← hposition]
      cases i with
      | zero =>
          rw [List.take_zero, List.getElem?_cons_zero, verdict_eq]
          rfl
      | succ i =>
          rw [List.getElem?_cons_succ]
          exact ih (by omega) (Nat.lt_of_succ_lt_succ hi)

/-- Work that is not exceeded in total is never exceeded on the way. -/
theorem ne_overshot_of_mem {tracker : Tracker} {amounts : List UInt64}
    (h : tracker.position.toNat + recorded amounts ≤ tracker.length.toNat) :
    ∀ verdict ∈ tracker.recordAll amounts, verdict ≠ .overshot := by
  intro verdict hmem
  obtain ⟨i, hi⟩ := List.mem_iff_getElem?.1 hmem
  have hlt : i < amounts.length := by
    rw [← length_recordAll tracker]
    exact (List.getElem?_eq_some_iff.1 hi).1
  have hsmall := tracker.length.toNat_lt
  rw [recordAll_getElem? (by omega) hlt] at hi
  have hpart := recorded_take_le amounts (i + 1)
  rw [← Option.some.inj hi, Verdict.ofTotal_of_le (by omega)]
  split <;> decide

/-- The blocks of a file are as large together as the file. -/
theorem recorded_lengths {blocks : List (List UInt8)} (h : blocks.flatten.length < 2 ^ 64) :
    recorded (blocks.map fun block => UInt64.ofNat block.length) = blocks.flatten.length := by
  induction blocks with
  | nil => rfl
  | cons block blocks ih =>
      rw [List.flatten_cons, List.length_append] at h ⊢
      rw [List.map_cons, recorded_cons, ih (by omega), UInt64.toNat_ofNat', Nat.mod_eq_of_lt (by omega)]

/-- Whatever the announced amount of work is, a call succeeds as long as no more than that has been recorded,
    and tells whether it is just that; the first call that exceeds the amount fails. A file that is read in
    blocks never exceeds the size that was announced for it. -/
theorem recordAll_answer :
    (∀ (work : Work) (amounts : List UInt64), recorded amounts < 2 ^ 64 →
      ((start work).recordAll amounts).length = amounts.length ∧
        ∀ i < amounts.length, ((start work).recordAll amounts)[i]?.map Verdict.answer = some
          (if work.amount.toNat < recorded (amounts.take (i + 1)) then
            .error "recorded more progress than expected"
          else .ok (recorded (amounts.take (i + 1)) = work.amount.toNat))) ∧
      ∀ (size : UInt64) (content : List UInt8) (blocks : List (List UInt8)),
        content.length = size.toNat → blocks.flatten <+: content →
          ∀ verdict ∈ trackBlocks size blocks, ∃ done, verdict.answer = .ok done := by
  constructor
  · intro work amounts hsmall
    refine ⟨length_recordAll _ _, ?_⟩
    intro i hi
    have hstart : (start work).position.toNat = 0 := rfl
    rw [recordAll_getElem? (by omega) hi, Option.map_some, Verdict.answer_ofTotal, hstart, Nat.zero_add]
    rfl
  · intro size content blocks hsize hblocks verdict hmem
    have hlength := hblocks.length_le
    have hlt := size.toNat_lt
    have hrecorded : recorded (blocks.map fun block => UInt64.ofNat block.length) = blocks.flatten.length :=
      recorded_lengths (by omega)
    have hne : verdict ≠ .overshot := by
      refine ne_overshot_of_mem ?_ verdict hmem
      have hstart : (start (.bytes size)).position.toNat = 0 := rfl
      rw [hrecorded, hstart, Nat.zero_add]
      exact hlength.trans hsize.le
    cases verdict with
    | unfinished => exact ⟨false, rfl⟩
    | finished => exact ⟨true, rfl⟩
    | overshot => exact absurd rfl hne

/-- Nothing is recorded after the work is done, and then too much; a file is read in three blocks, one of which
    is empty. -/
theorem recordAll_answer_beyond :
    recorded [100, 0, 100, 0, 1] < 2 ^ 64 ∧
      ((start (.bytes 200)).recordAll [100, 0, 100, 0, 1])[3]?.map Verdict.answer = some (.ok true) ∧
      ((start (.bytes 200)).recordAll [100, 0, 100, 0, 1])[4]?.map Verdict.answer =
        some (.error "recorded more progress than expected") ∧
      [1, 2, 3].length = (3 : UInt64).toNat ∧ [[1], [], [2, 3]].flatten <+: [1, 2, 3] ∧
      ∀ verdict ∈ trackBlocks 3 [[1], [], [2, 3]], ∃ done, verdict.answer = .ok done := by
  obtain ⟨-, hanswers⟩ := recordAll_answer.1 (.bytes 200) [100, 0, 100, 0, 1] (by decide)
  refine ⟨by decide, (hanswers 3 (by decide)).trans (by decide), (hanswers 4 (by decide)).trans (by decide),
    by decide, List.prefix_rfl, ?_⟩
  exact recordAll_answer.2 3 [1, 2, 3] [[1], [], [2, 3]] (by decide) List.prefix_rfl

end Tracker

end EvalCharts
