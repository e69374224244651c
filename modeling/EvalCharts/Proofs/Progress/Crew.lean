/-
Module: EvalCharts.Proofs.Progress.Crew
Purpose: Workers that share a tracker, whatever the order of their steps is. The position counts the workers
  that have begun, so it never exceeds the announced amount; a worker that finds the work done has seen the
  increments of all, and the last one to begin is still to look.
Main exports: Crew.step_cases, Crew.run_call, Crew.Orderly, Crew.orderly_run, Crew.remaining_run_le,
  Crew.run_answers
-/
import EvalCharts.Crew
import EvalCharts.Proofs.Progress.Calls

namespace EvalCharts

/-! ### Stages -/

namespace Stage

/-- The worker has found the work done. -/
def Seen (stage : Stage) : Prop := stage = .clearing ∨ stage = .returned .finished

theorem not_seen_waiting : ¬Seen .waiting := by
  rintro (h | h) <;> cases h

theorem not_seen_moved : ¬Seen .moved := by
  rintro (h | h) <;> cases h

theorem not_seen_unfinished : ¬Seen (.returned .unfinished) := by
  rintro (h | h) <;> cases h

/-- How many steps of a call are left, at most. -/
def remaining : Stage → Nat
  | .waiting => 3
  | .moved => 2
  | .clearing => 1
  | .returned _ => 0

theorem remaining_next (progress : UInt64) (tracker : Tracker) (stage : Stage) :
    (stage.next progress tracker).2.remaining ≤ stage.remaining - 1 := by
  cases stage with
  | waiting => exact le_rfl
  | moved =>
      rw [next]
      split
      · exact le_rfl
      · exact Nat.zero_le _
  | clearing => exact le_rfl
  | returned => exact le_rfl

theorem exists_returned {stage : Stage} (h : stage.remaining = 0) : ∃ verdict, stage = .returned verdict := by
  cases stage with
  | returned verdict => exact ⟨verdict, rfl⟩
  | waiting | moved | clearing => cases h

end Stage

namespace Crew

variable {size : Nat} {crew : Crew size} {worker : Fin size} {length : UInt64}

@[simp] theorem put_tracker (crew : Crew size) (worker : Fin size) (outcome : Tracker × Stage) :
    (crew.put worker outcome).tracker = outcome.1 := rfl

@[simp] theorem put_stage_self (crew : Crew size) (worker : Fin size) (outcome : Tracker × Stage) :
    (crew.put worker outcome).stage worker = outcome.2 :=
  if_pos rfl

theorem put_stage_of_ne {other : Fin size} (h : other ≠ worker) (outcome : Tracker × Stage) :
    (crew.put worker outcome).stage other = crew.stage other :=
  if_neg h

/-- What holds of the new stage of a worker and of all stages before holds of all stages after. -/
theorem forall_stage_put (p : Stage → Prop) {outcome : Tracker × Stage} (hself : p outcome.2)
    (hbefore : ∀ other, p (crew.stage other)) : ∀ other, p ((crew.put worker outcome).stage other) := by
  intro other
  by_cases hother : other = worker
  · rwa [hother, put_stage_self]
  · rw [put_stage_of_ne hother]
    exact hbefore other

theorem put_put (crew : Crew size) (worker : Fin size) (first second : Tracker × Stage) :
    (crew.put worker first).put worker second = crew.put worker second := by
  simp only [put, mk.injEq, true_and]
  funext other
  split <;> rfl

theorem put_self (crew : Crew size) (worker : Fin size) :
    crew.put worker (crew.tracker, crew.stage worker) = crew := by
  cases crew
  simp only [put, mk.injEq, true_and]
  funext other
  split
  · next h => rw [h]
  · rfl

theorem run_append (crew : Crew size) (before after : List (Fin size)) :
    crew.run (before ++ after) = (crew.run before).run after :=
  List.foldl_append

/-! ### What a step does -/

theorem step_cases (crew : Crew size) (worker : Fin size) :
    (crew.stage worker = .waiting ∧ crew.step worker = crew.put worker (crew.tracker.add 1, .moved)) ∨
    (crew.stage worker = .moved ∧ crew.tracker.verdict = .finished ∧
      crew.step worker = crew.put worker (crew.tracker, .clearing)) ∨
    (crew.stage worker = .moved ∧ crew.tracker.verdict ≠ .finished ∧
      crew.step worker = crew.put worker (crew.tracker, .returned crew.tracker.verdict)) ∨
    (crew.stage worker = .clearing ∧
      crew.step worker = crew.put worker (crew.tracker.clear, .returned .finished)) ∨
    ∃ verdict, crew.stage worker = .returned verdict ∧ crew.step worker = crew := by
  cases hstage : crew.stage worker with
  | waiting =>
      refine .inl ⟨rfl, ?_⟩
      rw [step, hstage, Stage.next]
  | moved =>
      cases hverdict : crew.tracker.verdict with
      | finished =>
          refine .inr (.inl ⟨rfl, rfl, ?_⟩)
          simp only [step, hstage, Stage.next, hverdict]
      | unfinished =>
          refine .inr (.inr (.inl ⟨rfl, nofun, ?_⟩))
          simp only [step, hstage, Stage.next, hverdict]
      | overshot =>
          refine .inr (.inr (.inl ⟨rfl, nofun, ?_⟩))
          simp only [step, hstage, Stage.next, hverdict]
  | clearing =>
      refine .inr (.inr (.inr (.inl ⟨rfl, ?_⟩)))
      rw [step, hstage, Stage.next]
  | returned verdict =>
      refine .inr (.inr (.inr (.inr ⟨verdict, rfl, ?_⟩)))
      rw [step, hstage, Stage.next, ← hstage, put_self]

/-- A call that no other worker interrupts records the progress at once. -/
theorem run_call (h : crew.stage worker = .waiting) :
    crew.run [worker, worker, worker] =
      crew.put worker ((crew.tracker.record 1).2, .returned (crew.tracker.record 1).1) := by
  simp only [run, List.foldl_cons, List.foldl_nil, step, put_stage_self, put_tracker, put_put, h, Stage.next]
  cases hverdict : (crew.tracker.add 1).verdict with
  | finished => simp only [Tracker.record, hverdict]
  | unfinished => simp only [Tracker.record, hverdict]
  | overshot => simp only [Tracker.record, hverdict]

/-! ### The workers that have begun -/

/-- The workers that have moved the position on. -/
def begun (crew : Crew size) : Finset (Fin size) := {worker | crew.stage worker ≠ .waiting}

theorem mem_begun : worker ∈ crew.begun ↔ crew.stage worker ≠ .waiting := by
  rw [begun, Finset.mem_filter_univ]

theorem card_begun_le (crew : Crew size) : crew.begun.card ≤ size :=
  crew.begun.card_le_univ.trans (Fintype.card_fin size).le

theorem card_begun_lt (h : crew.stage worker = .waiting) : crew.begun.card < size := by
  have hne : crew.begun ≠ Finset.univ := by
    intro heq
    exact mem_begun.1 (heq ▸ Finset.mem_univ worker) h
  calc
    crew.begun.card < (Finset.univ : Finset (Fin size)).card :=
      Finset.card_lt_card (Finset.ssubset_univ_iff.2 hne)
    _ = size := Finset.card_fin size

theorem card_begun_eq (h : ∀ worker, crew.stage worker ≠ .waiting) : crew.begun.card = size := by
  have hall : crew.begun = Finset.univ := Finset.eq_univ_iff_forall.2 fun worker => mem_begun.2 (h worker)
  rw [hall, Finset.card_fin]

theorem begun_put {outcome : Tracker × Stage} (h : outcome.2 ≠ .waiting) :
    (crew.put worker outcome).begun = insert worker crew.begun := by
  ext other
  rw [mem_begun, Finset.mem_insert, mem_begun]
  by_cases hother : other = worker
  · rw [hother, put_stage_self]
    exact iff_of_true h (.inl rfl)
  · rw [put_stage_of_ne hother, or_iff_right hother]

/-! ### The invariant -/

/-- What holds between any two steps when `length` units are announced. -/
structure Orderly (length : UInt64) (crew : Crew size) : Prop where
  announced : crew.tracker.length = length
  counted : crew.tracker.position.toNat = crew.begun.card
  noOvershoot : ∀ worker, crew.stage worker ≠ .returned .overshot
  /-- A worker finds the work done only when it is. -/
  done : ∀ worker, (crew.stage worker).Seen → crew.begun.card = length.toNat
  /-- Done work does not go unnoticed. -/
  noticed : 0 < length → crew.begun.card = length.toNat →
    ∃ worker, crew.stage worker ≠ .returned .unfinished

theorem orderly_start (length : UInt64) (size : Nat) : (start (.steps length) size).Orderly length := by
  have hbegun : (start (.steps length) size).begun = ∅ :=
    Finset.filter_false_of_mem fun _ _ h => h rfl
  constructor
  · rfl
  · rw [hbegun]
    rfl
  · intro worker
    exact nofun
  · intro worker hseen
    exact absurd hseen Stage.not_seen_waiting
  · intro hpos hdone
    rw [hbegun, Finset.card_empty] at hdone
    rw [UInt64.lt_iff_toNat_lt, ← hdone] at hpos
    exact absurd hpos (Nat.lt_irrefl _)

namespace Orderly

variable (h : crew.Orderly length)
include h

/-- The first step of a call. Nobody has found the work done before it. -/
theorem begin (hsize : size ≤ length.toNat) (hwaiting : crew.stage worker = .waiting) :
    (crew.put worker (crew.tracker.add 1, .moved)).Orderly length := by
  have hlt := card_begun_lt hwaiting
  have hbegun : (crew.put worker (crew.tracker.add 1, .moved)).begun = insert worker crew.begun :=
    begun_put nofun
  have hcard : (insert worker crew.begun).card = crew.begun.card + 1 :=
    Finset.card_insert_of_notMem fun hmem => mem_begun.1 hmem hwaiting
  have hfits := length.toNat_lt
  constructor
  · exact h.announced
  · have hone : (1 : UInt64).toNat = 1 := rfl
    rw [hbegun, hcard, put_tracker, Tracker.toNat_position_add (by rw [h.counted]; omega), h.counted, hone]
  · exact forall_stage_put (· ≠ .returned .overshot) nofun h.noOvershoot
  · rw [hbegun, hcard]
    refine forall_stage_put (·.Seen → _) (absurd · Stage.not_seen_moved) ?_
    -- all had begun when another worker found the work done, and this one had not
    intro other hseen
    have hdone := h.done other hseen
    omega
  · intro _ _
    refine ⟨worker, ?_⟩
    rw [put_stage_self]
    exact nofun

/-- Any later step. It leaves the tracker as it is, so all that matters is what the worker makes of it. -/
theorem goOn {stage : Stage} (hbegun : crew.stage worker ≠ .waiting) (hwaiting : stage ≠ .waiting)
    (hovershot : stage ≠ .returned .overshot) (hseen : stage.Seen → crew.begun.card = length.toNat)
    (hunfinished : stage = .returned .unfinished → crew.begun.card ≠ length.toNat) :
    (crew.put worker (crew.tracker, stage)).Orderly length := by
  have hsame : (crew.put worker (crew.tracker, stage)).begun = crew.begun := by
    rw [begun_put hwaiting, Finset.insert_eq_of_mem (mem_begun.2 hbegun)]
  constructor
  · exact h.announced
  · rw [hsame]
    exact h.counted
  · exact forall_stage_put (· ≠ .returned .overshot) hovershot h.noOvershoot
  · rw [hsame]
    exact forall_stage_put (·.Seen → _) hseen h.done
  · rw [hsame]
    intro _ hdone
    refine ⟨worker, ?_⟩
    rw [put_stage_self]
    exact fun hstage => hunfinished hstage hdone

theorem verdict_eq (hsize : size ≤ length.toNat) :
    crew.tracker.verdict = if crew.begun.card = length.toNat then .finished else .unfinished := by
  rw [Tracker.verdict_eq, h.announced, h.counted, Verdict.ofTotal_of_le (crew.card_begun_le.trans hsize)]

theorem step (hsize : size ≤ length.toNat) (worker : Fin size) : (crew.step worker).Orderly length := by
  obtain ⟨hwaiting, hstep⟩ | ⟨hmoved, hverdict, hstep⟩ | ⟨hmoved, hverdict, hstep⟩ | ⟨hclearing, hstep⟩ |
    ⟨_, _, hstep⟩ := step_cases crew worker
  · rw [hstep]
    exact h.begin hsize hwaiting
  · have hdone : crew.begun.card = length.toNat := by
      by_contra hundone
      rw [h.verdict_eq hsize, if_neg hundone] at hverdict
      cases hverdict
    rw [hstep]
    exact h.goOn (by rw [hmoved]; nofun) nofun nofun (fun _ => hdone) nofun
  · have hundone : crew.begun.card ≠ length.toNat := by
      intro hdone
      exact hverdict (by rw [h.verdict_eq hsize, if_pos hdone])
    rw [hstep, h.verdict_eq hsize, if_neg hundone]
    exact h.goOn (by rw [hmoved]; nofun) nofun nofun (absurd · Stage.not_seen_unfinished) fun _ => hundone
  · have hdone : crew.begun.card = length.toNat := h.done worker (.inl hclearing)
    have hposition : crew.tracker.position = crew.tracker.length := by
      rw [← UInt64.toNat_inj, h.counted, hdone, h.announced]
    -- nobody is left to move the position on, so clearing does not take an increment back
    rw [hstep, Tracker.clear_eq hposition]
    exact h.goOn (by rw [hclearing]; nofun) nofun nofun (fun _ => hdone) nofun
  · rw [hstep]
    exact h

end Orderly

theorem orderly_run (hsize : size ≤ length.toNat) (schedule : List (Fin size)) :
    ((start (.steps length) size).run schedule).Orderly length := by
  induction schedule using List.reverseRecOn with
  | nil => exact orderly_start length size
  | append_singleton schedule worker ih =>
      rw [run_append]
      exact ih.step hsize worker

/-! ### Calls that return -/

theorem remaining_run_le (crew : Crew size) (schedule : List (Fin size)) (worker : Fin size) :
    ((crew.run schedule).stage worker).remaining ≤ (crew.stage worker).remaining - schedule.count worker := by
  induction schedule generalizing crew with
  | nil => exact le_rfl
  | cons actor schedule ih =>
      refine (ih (crew.step actor)).trans ?_
      rw [step]
      by_cases hactor : worker = actor
      · rw [hactor, put_stage_self, List.count_cons_self]
        have hnext := Stage.remaining_next 1 crew.tracker (crew.stage actor)
        omega
      · rw [put_stage_of_ne hactor, List.count_cons_of_ne (Ne.symm hactor)]

theorem isSome_answer? : (crew.answer? worker).isSome ↔ ∃ verdict, crew.stage worker = .returned verdict := by
  unfold answer?
  cases crew.stage worker with
  | returned verdict => exact iff_of_true rfl ⟨verdict, rfl⟩
  | waiting | moved | clearing => simp

theorem overshot_of_answer? {report : String} (h : crew.answer? worker = some (.error report)) :
    crew.stage worker = .returned .overshot := by
  unfold answer? at h
  cases hstage : crew.stage worker with
  | returned verdict =>
      rw [hstage] at h
      cases verdict with
      | overshot => rfl
      | unfinished | finished => cases h
  | waiting | moved | clearing =>
      rw [hstage] at h
      cases h

theorem answer?_eq_yes : crew.answer? worker = some (.ok true) ↔ crew.stage worker = .returned .finished := by
  unfold answer?
  cases crew.stage worker with
  | returned verdict => cases verdict <;> simp [Verdict.answer]
  | waiting | moved | clearing => simp

/-- In whatever order the workers take their steps, no call fails, and each returns after three steps at most.
    A call answers yes only if there are as many workers as units and all have moved the position on. Once all
    these calls have returned, one of them has answered yes, unless there was no call to make. -/
theorem run_answers (length : UInt64) {size : Nat} (hsize : size ≤ length.toNat)
    (schedule : List (Fin size)) :
    let crew := (start (.steps length) size).run schedule
    (∀ worker report, crew.answer? worker ≠ some (.error report)) ∧
      (∀ worker, 3 ≤ schedule.count worker → (crew.answer? worker).isSome) ∧
      (∀ worker, crew.answer? worker = some (.ok true) →
        size = length.toNat ∧ ∀ other, crew.stage other ≠ .waiting) ∧
      (0 < length → size = length.toNat → (∀ worker, (crew.answer? worker).isSome) →
        ∃ worker, crew.answer? worker = some (.ok true)) := by
  intro crew
  have h : crew.Orderly length := orderly_run hsize schedule
  refine ⟨?_, ?_, ?_, ?_⟩
  · intro worker report hreport
    exact h.noOvershoot worker (overshot_of_answer? hreport)
  · intro worker hcount
    have hremaining := remaining_run_le (start (.steps length) size) schedule worker
    have hwaiting : ((start (.steps length) size).stage worker).remaining = 3 := rfl
    rw [hwaiting, Nat.sub_eq_zero_of_le hcount] at hremaining
    exact isSome_answer?.2 (Stage.exists_returned (Nat.le_zero.1 hremaining))
  · intro worker hyes
    have hdone := h.done worker (.inr (answer?_eq_yes.1 hyes))
    have hle := crew.card_begun_le
    refine ⟨by omega, ?_⟩
    intro other hother
    have hlt := card_begun_lt hother
    omega
  · intro hpos hfull hreturned
    have hbegun : ∀ worker, crew.stage worker ≠ .waiting := by
      intro worker hwaiting
      obtain ⟨verdict, hverdict⟩ := isSome_answer?.1 (hreturned worker)
      rw [hwaiting] at hverdict
      cases hverdict
    have hdone : crew.begun.card = length.toNat := (card_begun_eq hbegun).trans hfull
    obtain ⟨worker, hnoticed⟩ := h.noticed hpos hdone
    obtain ⟨verdict, hverdict⟩ := isSome_answer?.1 (hreturned worker)
    refine ⟨worker, answer?_eq_yes.2 ?_⟩
    cases verdict with
    | finished => exact hverdict
    | unfinished => exact absurd hverdict hnoticed
    | overshot => exact absurd hverdict (h.noOvershoot worker)

/-- Two workers that move the position on before either of them looks. Both answer yes. -/
theorem run_answers_overtaken :
    2 ≤ (2 : UInt64).toNat ∧
      (∀ worker report, ((start (.steps 2) 2).run [0, 1, 0, 1, 0, 1]).answer? worker ≠ some (.error report)) ∧
      (∀ worker, 3 ≤ [0, 1, 0, 1, 0, 1].count worker ∧
        (((start (.steps 2) 2).run [0, 1, 0, 1, 0, 1]).answer? worker).isSome) ∧
      ((start (.steps 2) 2).run [0, 1, 0, 1, 0]).answer? 0 = some (.ok true) ∧
      (∀ other, ((start (.steps 2) 2).run [0, 1, 0, 1, 0]).stage other ≠ .waiting) ∧
      ∃ worker, ((start (.steps 2) 2).run [0, 1, 0, 1, 0, 1]).answer? worker = some (.ok true) := by
  have hsize : 2 ≤ (2 : UInt64).toNat := by decide
  have hcount : ∀ worker : Fin 2, 3 ≤ [0, 1, 0, 1, 0, 1].count worker := by decide
  obtain ⟨hnever, hreturned, -, hsome⟩ := run_answers 2 hsize [0, 1, 0, 1, 0, 1]
  obtain ⟨-, -, hall, -⟩ := run_answers 2 hsize [0, 1, 0, 1, 0]
  have hyes : ((start (.steps 2) 2).run [0, 1, 0, 1, 0]).answer? 0 = some (.ok true) := by decide
  refine ⟨hsize, hnever, ?_, hyes, (hall 0 hyes).2, ?_⟩
  · intro worker
    exact ⟨hcount worker, hreturned worker (hcount worker)⟩
  · exact hsome (by decide) rfl fun worker => hreturned worker (hcount worker)

/-- When nothing is announced, there is no call that could answer yes. -/
theorem run_answers_empty :
    ¬ ∀ (length : UInt64) (size : Nat) (schedule : List (Fin size)), size = length.toNat →
      (∀ worker, (((start (.steps length) size).run schedule).answer? worker).isSome) →
        ∃ worker, ((start (.steps length) size).run schedule).answer? worker = some (.ok true) := by
  intro hclaim
  obtain ⟨worker, -⟩ := hclaim 0 0 [] rfl nofun
  exact worker.elim0

end Crew

end EvalCharts
