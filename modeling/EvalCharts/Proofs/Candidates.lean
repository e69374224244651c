/-
Module: EvalCharts.Proofs.Candidates
Purpose: Groups whose value is the mean of the best measures of their entities. The order of the runs, their
  repetitions and candidates that are outdone make no difference to such groups, and further candidates of
  the same entities never lower the value of one.
Main exports: GroupsAgree, forall₂_aggregate, SameEntity, SameTriple, Covered, groupsAgree_of_covered,
  groupsAgree_meanOfBest, groupsAgree_meanOfBest_le
-/
import EvalCharts.Proofs.Groups
import EvalCharts.Proofs.BestValues

namespace EvalCharts

/-! ### Groups one by one -/

/-- Groups that show the same keys one by one, and whose values are related. -/
def GroupsAgree (related : Float → Float → Prop) (groups groups' : List (List Float × Float)) : Prop :=
  List.Forall₂ (fun group group' => sameKeys group.1 group'.1 = true ∧ related group.2 group'.2)
    groups groups'

/-- The places of the keys of a run. -/
def keyRanks (keys : List Column) (run : Run) : List Int :=
  (keys.map run.get).map Double.rank

/-- The runs whose keys take some places. -/
def runsOfKey (keys : List Column) (runs : List Run) (p : List Int) : List Run :=
  runs.filter fun run => keyRanks keys run = p

theorem mem_runsOfKey {keys : List Column} {runs : List Run} {p : List Int} {run : Run} :
    run ∈ runsOfKey keys runs p ↔ run ∈ runs ∧ keyRanks keys run = p := by
  simp [runsOfKey]

theorem runsOfKey_ne_nil {keys : List Column} {runs : List Run} {p : List Int}
    (h : ∃ run ∈ runs, keyRanks keys run = p) : runsOfKey keys runs p ≠ [] := by
  obtain ⟨run, hrun⟩ := h
  exact List.ne_nil_of_mem (mem_runsOfKey.2 hrun)

/-- The group of the runs whose keys take some places. -/
theorem classAt?_runsOfKey {keys : List Column} {runs : List Run} {p : List Int}
    (h : ∃ run ∈ runs, keyRanks keys run = p) :
    ∃ key, key.map Double.rank = p ∧
      classAt? (List.map Double.rank) (fun run : Run => keys.map run.get) runs p =
        some (key, runsOfKey keys runs p) := by
  obtain ⟨key, hkey, hclass⟩ :=
    classAt?_of_place (List.map Double.rank) (fun run : Run => keys.map run.get) h
  refine ⟨key, hkey, hclass.trans (congrArg (fun group => some (key, group)) ?_)⟩
  exact List.filter_congr fun run _ => decide_eq_decide.2 Iff.rfl

theorem aggregate_eq_filterMap (keys : List Column) (measure : Measure) (reduction : Reduction)
    (runs : List Run) :
    aggregate keys measure reduction runs = (places (keyRanks keys) runs).filterMap fun p =>
      (classAt? (List.map Double.rank) (fun run : Run => keys.map run.get) runs p).bind fun group =>
        (reduction.apply measure group.2).map fun value => (group.1, value) := by
  rw [aggregate_eq, reduceGroups, groupBy_eq compares_ranks, List.filterMap_filterMap]
  rfl

/-- Aggregations of runs with the same keys agree as far as their values do, key by key. -/
theorem forall₂_aggregate {keys : List Column} {measure : Measure} {reduction : Reduction}
    {runs runs' : List Run} {related : Float → Float → Prop}
    (hkeys : ∀ p, (∃ run ∈ runs, keyRanks keys run = p) ↔ ∃ run ∈ runs', keyRanks keys run = p)
    (hvalue : ∀ p, runsOfKey keys runs p ≠ [] → runsOfKey keys runs' p ≠ [] → ∃ value value',
      reduction.apply measure (runsOfKey keys runs p) = some value ∧
      reduction.apply measure (runsOfKey keys runs' p) = some value' ∧ related value value') :
    GroupsAgree related (aggregate keys measure reduction runs)
      (aggregate keys measure reduction runs') := by
  unfold GroupsAgree
  rw [aggregate_eq_filterMap, aggregate_eq_filterMap, places_congr hkeys]
  apply forall₂_filterMap
  intro p hp
  have hp' := mem_places.1 hp
  obtain ⟨key, hkey, hclass⟩ := classAt?_runsOfKey ((hkeys p).2 hp')
  obtain ⟨key', hkey', hclass'⟩ := classAt?_runsOfKey hp'
  obtain ⟨value, value', hreduce, hreduce', hrelated⟩ :=
    hvalue p (runsOfKey_ne_nil ((hkeys p).2 hp')) (runsOfKey_ne_nil hp')
  refine ⟨(key, value), (key', value'), ?_, ?_, sameKeys_iff.2 (hkey.trans hkey'.symm), hrelated⟩
  · rw [hclass, Option.bind_some, hreduce, Option.map_some]
  · rw [hclass', Option.bind_some, hreduce', Option.map_some]

/-! ### Candidates of one entity -/

section Candidates

variable (keys : List Column) (entity : Column) (measure : Measure)

/-- Two runs count for the same entity of the same group. -/
def SameEntity (run run' : Run) : Prop :=
  sameKeys (keys.map run.get) (keys.map run'.get) = true ∧
    Double.sameKey (run.get entity) (run'.get entity) = true

instance (run run' : Run) : Decidable (SameEntity keys entity run run') :=
  inferInstanceAs (Decidable (_ ∧ _))

/-- Two runs count for the same entity of the same group with the same measure. -/
def SameTriple (run run' : Run) : Prop :=
  SameEntity keys entity run run' ∧ Double.sameKey (measure.of run) (measure.of run') = true

instance (run run' : Run) : Decidable (SameTriple keys entity measure run run') :=
  inferInstanceAs (Decidable (_ ∧ _))

/-- Each of some runs, unless its measure is NaN, is matched by another run of its entity whose measure is no
    smaller. A run whose measure is NaN only needs another run of its entity. -/
def Covered (runs runs' : List Run) : Prop :=
  ∀ run ∈ runs, ∃ run' ∈ runs', SameEntity keys entity run run' ∧
    ((measure.of run).isNaN = false → measure.of run ≤ measure.of run')

/-- The runs of one entity of one group. -/
def entityRuns (run : Run) (runs : List Run) : List Run :=
  runs.filter fun run' => SameEntity keys entity run run'

variable {keys entity measure} {runs runs' : List Run}

theorem mem_entityRuns {run run' : Run} :
    run' ∈ entityRuns keys entity run runs ↔ run' ∈ runs ∧ SameEntity keys entity run run' := by
  simp [entityRuns]

theorem SameEntity.keyRanks_eq {run run' : Run} (h : SameEntity keys entity run run') :
    keyRanks keys run = keyRanks keys run' :=
  sameKeys_iff.1 h.1

theorem SameEntity.rank_eq {run run' : Run} (h : SameEntity keys entity run run') :
    Double.rank (run.get entity) = Double.rank (run'.get entity) :=
  Double.sameKey_iff_rank.1 h.2

theorem SameEntity.refl (run : Run) : SameEntity keys entity run run :=
  ⟨sameKeys_iff.2 rfl, Double.sameKey_iff_rank.2 rfl⟩

theorem Covered.exists_keyRanks_eq (h : Covered keys entity measure runs runs') :
    ∀ run ∈ runs, ∃ run' ∈ runs', keyRanks keys run = keyRanks keys run' := by
  intro run hmem
  obtain ⟨run', hmem', hsame, -⟩ := h run hmem
  exact ⟨run', hmem', hsame.keyRanks_eq⟩

/-- What covers a run of a group is itself a run of the group. -/
theorem Covered.runsOfKey (h : Covered keys entity measure runs runs') (p : List Int) :
    Outdone (fun run => run.get entity) measure.of (runsOfKey keys runs p)
      (runsOfKey keys runs' p) := by
  intro run hrun
  obtain ⟨hmem, hp⟩ := mem_runsOfKey.1 hrun
  obtain ⟨run', hmem', hsame, hle⟩ := h run hmem
  exact ⟨run', mem_runsOfKey.2 ⟨hmem', hsame.keyRanks_eq.symm.trans hp⟩, hsame.rank_eq, hle⟩

/-- Lists that cover each other have the same groups, worth the same. -/
theorem groupsAgree_of_covered (h : Covered keys entity measure runs runs')
    (h' : Covered keys entity measure runs' runs) :
    GroupsAgree (· = ·) (aggregate keys measure (.meanOfBest entity) runs)
      (aggregate keys measure (.meanOfBest entity) runs') := by
  apply forall₂_aggregate (exists_place_iff h.exists_keyRanks_eq h'.exists_keyRanks_eq)
  intro p hne hne'
  exact ⟨_, _, Reduction.apply_meanOfBest hne entity measure,
    Reduction.apply_meanOfBest hne' entity measure,
    meanOfLargest_congr (h.runsOfKey p) (h'.runsOfKey p)⟩

/-- Runs with the same keys, entities and measures cover each other. -/
theorem covered_of_sameTriple (h : ∀ run ∈ runs, ∃ run' ∈ runs', SameTriple keys entity measure run run') :
    Covered keys entity measure runs runs' := by
  intro run hmem
  obtain ⟨run', hmem', hsame, hmeasure⟩ := h run hmem
  have hrank := Double.sameKey_iff_rank.1 hmeasure
  refine ⟨run', hmem', hsame, fun hnum => ?_⟩
  exact Double.le_of_rank_le hnum ((Double.isNaN_eq_of_rank_eq hrank).symm.trans hnum) hrank.le

theorem covered_of_subset (h : runs ⊆ runs') : Covered keys entity measure runs runs' :=
  fun run hmem => ⟨run, h hmem, SameEntity.refl run, fun hnum => Double.le_of_rank_le hnum hnum le_rfl⟩

end Candidates

/-- A run with a rank, a sentence and a similarity. -/
def scored (k id similarity : Float) : Run :=
  ((Run.zero.set .k k).set .id id).set .similarity similarity

/-! ### What does not count -/

/-- The means of best measures depend on nothing but the set of keys, entities and measures that the runs show:
    neither the order of the runs nor their number matters, nor the sign of a zero. Nor do further runs whose
    measure is NaN, or at most the best one of their entity so far, where that is a number. -/
theorem groupsAgree_meanOfBest (keys : List Column) (entity : Column) (measure : Measure)
    (runs runs' : List Run) :
    ((∀ run ∈ runs, ∃ run' ∈ runs', SameTriple keys entity measure run run') →
      (∀ run ∈ runs', ∃ run' ∈ runs, SameTriple keys entity measure run run') →
      GroupsAgree (· = ·) (aggregate keys measure (.meanOfBest entity) runs)
        (aggregate keys measure (.meanOfBest entity) runs')) ∧
    ∀ added, runs'.Perm (runs ++ added) →
      (∀ run ∈ added, ∃ best, IsBest ((entityRuns keys entity run runs).map measure.of) best ∧
        best.isNaN = false ∧ ((measure.of run).isNaN = true ∨ measure.of run ≤ best)) →
      GroupsAgree (· = ·) (aggregate keys measure (.meanOfBest entity) runs)
        (aggregate keys measure (.meanOfBest entity) runs') := by
  constructor
  · intro h h'
    exact groupsAgree_of_covered (covered_of_sameTriple h) (covered_of_sameTriple h')
  · intro added hperm hadded
    have hsub : runs ⊆ runs' := fun run hmem => hperm.mem_iff.2 (List.mem_append_left _ hmem)
    refine groupsAgree_of_covered (covered_of_subset hsub) ?_
    intro run hmem
    rcases List.mem_append.1 (hperm.mem_iff.1 hmem) with hold | hnew
    · exact covered_of_subset (List.Subset.refl runs) run hold
    · obtain ⟨best, hbest, -, hle⟩ := hadded run hnew
      obtain ⟨run', hrun', rfl⟩ := List.mem_map.1 hbest.mem
      obtain ⟨hmem', hsame⟩ := mem_entityRuns.1 hrun'
      refine ⟨run', hmem', hsame, fun hnum => ?_⟩
      rcases hle with hnan | hle
      · exact absurd hnan (by rw [hnum]; decide)
      · exact hle

/-- Two sentences at rank one, and one at rank two that was never measured. -/
def fewCandidates : List Run :=
  [scored 1.0 1.0 0.5, scored 1.0 1.0 0.25, scored 1.0 2.0 0.0, scored 2.0 1.0 (0.0 / 0.0)]

/-- The same in another order, some of it twice. -/
def repeatedCandidates : List Run :=
  [scored 2.0 1.0 (0.0 / 0.0), scored 1.0 2.0 (-0.0), scored 1.0 1.0 0.25, scored 1.0 1.0 0.5,
    scored 1.0 2.0 0.0]

theorem groupsAgree_meanOfBest_repeated :
    aggregate [.k] (.column .similarity) (.meanOfBest .id) fewCandidates =
        [([1.0], 0.25), ([2.0], 0.0 / 0.0)] ∧
      GroupsAgree (· = ·) (aggregate [.k] (.column .similarity) (.meanOfBest .id) fewCandidates)
        (aggregate [.k] (.column .similarity) (.meanOfBest .id) repeatedCandidates) ∧
      GroupsAgree (· = ·) (aggregate [.k] (.column .similarity) (.meanOfBest .id) fewCandidates)
        (aggregate [.k] (.column .similarity) (.meanOfBest .id)
          (scored 1.0 1.0 (0.0 / 0.0) :: fewCandidates)) := by
  refine ⟨by decide +kernel, ?_, ?_⟩
  · exact (groupsAgree_meanOfBest [.k] .id (.column .similarity) fewCandidates repeatedCandidates).1
      (by decide +kernel) (by decide +kernel)
  · refine (groupsAgree_meanOfBest [.k] .id (.column .similarity) fewCandidates
      (scored 1.0 1.0 (0.0 / 0.0) :: fewCandidates)).2 [scored 1.0 1.0 (0.0 / 0.0)]
      (List.perm_append_singleton _ _).symm ?_
    intro run hmem
    rw [List.mem_singleton.1 hmem]
    have hbest : (0.5 : Float) ∈ (entityRuns [.k] .id (scored 1.0 1.0 (0.0 / 0.0)) fewCandidates).map
        (Measure.column .similarity).of :=
      List.mem_map.2 ⟨scored 1.0 1.0 0.5, mem_entityRuns.2 ⟨List.mem_cons_self, by decide +kernel⟩, rfl⟩
    exact ⟨0.5, ⟨hbest, by decide +kernel, by decide +kernel⟩, by decide, Or.inl (by decide)⟩

/-! ### More candidates -/

/-- Further candidates of the same entities, wherever they come in, leave the keys alone and never lower the
    value of a group, even where sums are rounded or overflow. -/
theorem groupsAgree_meanOfBest_le (keys : List Column) (entity : Column) (measure : Measure)
    {runs runs' : List Run} (hsub : runs.Sublist runs')
    (hfinite : ∀ run ∈ runs', (measure.of run).isFinite = true)
    (hentities : ∀ run ∈ runs', ∃ run' ∈ runs, SameEntity keys entity run run') :
    GroupsAgree (· ≤ ·) (aggregate keys measure (.meanOfBest entity) runs)
      (aggregate keys measure (.meanOfBest entity) runs') := by
  have hsub' := hsub.subset
  have hkeys : ∀ run ∈ runs', ∃ run' ∈ runs, keyRanks keys run = keyRanks keys run' := by
    intro run hmem
    obtain ⟨run', hmem', hsame⟩ := hentities run hmem
    exact ⟨run', hmem', hsame.keyRanks_eq⟩
  apply forall₂_aggregate (exists_place_iff (fun run hmem => ⟨run, hsub' hmem, rfl⟩) hkeys)
  intro p hne hne'
  refine ⟨_, _, Reduction.apply_meanOfBest hne entity measure,
    Reduction.apply_meanOfBest hne' entity measure, meanOfLargest_le hne ?_ ?_ ?_⟩
  · intro run hmem
    obtain ⟨hrun, hp⟩ := mem_runsOfKey.1 hmem
    exact mem_runsOfKey.2 ⟨hsub' hrun, hp⟩
  · intro run hmem
    exact hfinite run (mem_runsOfKey.1 hmem).1
  · intro run hmem
    obtain ⟨hrun, hp⟩ := mem_runsOfKey.1 hmem
    obtain ⟨run', hrun', hsame⟩ := hentities run hrun
    exact ⟨run', mem_runsOfKey.2 ⟨hrun', hsame.keyRanks_eq.symm.trans hp⟩, hsame.rank_eq.symm⟩

/-- Two sentences with one candidate each. -/
def firstCandidates : List Run :=
  [scored 1.0 1.0 0.2, scored 1.0 2.0 0.4]

/-- The same with a better candidate and a worse one in between. -/
def moreCandidates : List Run :=
  [scored 1.0 1.0 0.2, scored 1.0 2.0 0.3, scored 1.0 1.0 0.8, scored 1.0 2.0 0.4]

theorem groupsAgree_meanOfBest_le_more :
    aggregate [.k] (.column .similarity) (.meanOfBest .id) firstCandidates =
        [([1.0], 0.30000000000000004)] ∧
      aggregate [.k] (.column .similarity) (.meanOfBest .id) moreCandidates =
        [([1.0], 0.6000000000000001)] ∧
      GroupsAgree (· ≤ ·) (aggregate [.k] (.column .similarity) (.meanOfBest .id) firstCandidates)
        (aggregate [.k] (.column .similarity) (.meanOfBest .id) moreCandidates) := by
  refine ⟨by decide +kernel, by decide +kernel, ?_⟩
  refine groupsAgree_meanOfBest_le [.k] .id (.column .similarity) ?_ (by decide +kernel)
    (by decide +kernel)
  exact .cons_cons _ (.cons _ (.cons _ (.cons_cons _ .slnil)))

end EvalCharts
