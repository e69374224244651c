/-
Module: EvalCharts.Proofs.Grouping
Purpose: What splitting a list into groups yields. The groups are the classes of members whose keys
  take the same place, each class whole and in the order of the list, and the classes stand in the
  ascending order of their places.
Main exports: Compares, Grouped, groupBy_grouped, places, classAt?, groupBy_eq, filter_groupBy,
  groupBy_map_key, groupBy_const
-/
import EvalCharts.Aggregate
import Mathlib

namespace EvalCharts

/-- An order of keys that is the order of the places the keys take. -/
def Compares {κ ρ : Type} [LinearOrder ρ] (order : κ → κ → Ordering) (place : κ → ρ) : Prop :=
  ∀ x y, order x y = compare (place x) (place y)

theorem compares_rank : Compares compareDoubles Double.rank := fun _ _ => rfl

/-- Two ways to map a list, neither of which drops a member, are related if the images of each member are. -/
theorem forall₂_filterMap {α β γ : Type} {f : α → Option β} {g : α → Option γ} {r : β → γ → Prop}
    {list : List α} (h : ∀ a ∈ list, ∃ b c, f a = some b ∧ g a = some c ∧ r b c) :
    List.Forall₂ r (list.filterMap f) (list.filterMap g) := by
  induction list with
  | nil => exact List.Forall₂.nil
  | cons a list ih =>
      obtain ⟨b, c, hf, hg, hr⟩ := h a List.mem_cons_self
      rw [List.filterMap_cons_some hf, List.filterMap_cons_some hg]
      exact List.Forall₂.cons hr (ih fun a hmem => h a (List.mem_cons_of_mem _ hmem))

/-- The places of some members, each of them once, in ascending order. -/
def places {α ρ : Type} [LinearOrder ρ] (place : α → ρ) (members : List α) : List ρ :=
  (members.map place).toFinset.sort

section Places

variable {α ρ : Type} [LinearOrder ρ] {place : α → ρ} {members : List α}

theorem mem_places {p : ρ} : p ∈ places place members ↔ ∃ member ∈ members, place member = p := by
  simp [places]

theorem places_ascending (place : α → ρ) (members : List α) :
    (places place members).Pairwise (· < ·) :=
  (Finset.sortedLT_sort _).pairwise

theorem places_eq_nil : places place members = [] ↔ members = [] := by
  constructor
  · intro h
    cases members with
    | nil => rfl
    | cons member members =>
        have hmem : place member ∈ places place (member :: members) :=
          mem_places.2 ⟨member, List.mem_cons_self, rfl⟩
        rw [h] at hmem
        exact absurd hmem List.not_mem_nil
  · rintro rfl
    simp [places]

/-- A strictly ascending list that holds just the places of some members is the list of their places. -/
theorem eq_places {list : List ρ} (hasc : list.Pairwise (· < ·))
    (hmem : ∀ p, p ∈ list ↔ ∃ member ∈ members, place member = p) :
    list = places place members := by
  have hsort := (List.toFinset_sort (· ≤ ·) (hasc.imp ne_of_lt)).2 (hasc.imp le_of_lt)
  have hset : list.toFinset = (members.map place).toFinset := by
    ext p
    rw [List.mem_toFinset, hmem, List.mem_toFinset, List.mem_map]
  rw [← hsort, hset]
  rfl

/-- Members with the same places have them in the same list. -/
theorem places_congr {β : Type} {place' : β → ρ} {members' : List β}
    (h : ∀ p, (∃ member ∈ members, place member = p) ↔ ∃ member ∈ members', place' member = p) :
    places place members = places place' members' :=
  eq_places (places_ascending _ _) fun p => mem_places.trans (h p)

omit [LinearOrder ρ] in
/-- Lists whose members match each other's places have the same places. -/
theorem exists_place_iff {members' : List α}
    (h : ∀ member ∈ members, ∃ member' ∈ members', place member = place member')
    (h' : ∀ member ∈ members', ∃ member' ∈ members, place member = place member') (p : ρ) :
    (∃ member ∈ members, place member = p) ↔ ∃ member ∈ members', place member = p := by
  constructor
  · rintro ⟨member, hmem, rfl⟩
    obtain ⟨member', hmem', heq⟩ := h member hmem
    exact ⟨member', hmem', heq.symm⟩
  · rintro ⟨member, hmem, rfl⟩
    obtain ⟨member', hmem', heq⟩ := h' member hmem
    exact ⟨member', hmem', heq.symm⟩

theorem places_perm {members' : List α} (h : members.Perm members') :
    places place members = places place members' := by
  apply places_congr
  intro p
  simp only [h.mem_iff]

theorem length_places_le (place : α → ρ) (members : List α) :
    (places place members).length ≤ members.length := by
  have hcard := List.toFinset_card_le (members.map place)
  rwa [List.length_map, ← Finset.length_sort (· ≤ ·)] at hcard

end Places

section Groups

variable {κ ρ α : Type} [LinearOrder ρ] {order : κ → κ → Ordering} {place : κ → ρ} {key : α → κ}

/-- All members of the groups whose keys take one place. -/
def membersAt (place : κ → ρ) (groups : List (κ × List α)) (p : ρ) : List α :=
  (groups.filter fun group => place group.1 = p).flatMap Prod.snd

theorem filter_eq_nil_of_place_ne {groups : List (κ × List α)} {p : ρ}
    (h : ∀ group ∈ groups, place group.1 ≠ p) :
    (groups.filter fun group => place group.1 = p) = [] := by
  rw [List.filter_eq_nil_iff]
  intro group hmem
  rw [decide_eq_true_eq]
  exact h group hmem

/-- Groups stand in ascending order, hold all members of their place in the order of the list, and show
    the key of their first member. -/
structure Grouped (place : κ → ρ) (key : α → κ) (members : List α)
    (groups : List (κ × List α)) : Prop where
  ascending : groups.Pairwise fun group group' => place group.1 < place group'.1
  whole : ∀ p, membersAt place groups p = members.filter fun member => place (key member) = p
  first : ∀ group ∈ groups, group.2.head?.map key = some group.1

/-! ### Placing one member -/

theorem key_of_mem_placeMember {k : κ} {member : α} {group : κ × List α} :
    ∀ {groups : List (κ × List α)}, group ∈ placeMember order k member groups →
      group.1 = k ∨ ∃ group' ∈ groups, group.1 = group'.1
  | [], h => by
      rcases List.mem_singleton.1 h with rfl
      exact Or.inl rfl
  | (other, members) :: rest, h => by
      unfold placeMember at h
      split at h
      · rcases List.mem_cons.1 h with rfl | h
        · exact Or.inl rfl
        · exact Or.inr ⟨group, h, rfl⟩
      · rcases List.mem_cons.1 h with rfl | h
        · exact Or.inl rfl
        · exact Or.inr ⟨group, List.mem_cons_of_mem _ h, rfl⟩
      · rcases List.mem_cons.1 h with rfl | h
        · exact Or.inr ⟨_, List.mem_cons_self, rfl⟩
        · rcases key_of_mem_placeMember h with hk | ⟨group', hmem, hk⟩
          · exact Or.inl hk
          · exact Or.inr ⟨group', List.mem_cons_of_mem _ hmem, hk⟩

theorem placeMember_first {member : α} :
    ∀ {groups : List (κ × List α)}, (∀ group ∈ groups, group.2.head?.map key = some group.1) →
      ∀ group ∈ placeMember order (key member) member groups,
        group.2.head?.map key = some group.1
  | [], _, group, h => by
      rcases List.mem_singleton.1 h with rfl
      rfl
  | (other, members) :: rest, hfirst, group, h => by
      have hrest := fun group hmem => hfirst group (List.mem_cons_of_mem _ hmem)
      unfold placeMember at h
      split at h
      · rcases List.mem_cons.1 h with rfl | h
        · rfl
        · exact hfirst group h
      · rcases List.mem_cons.1 h with rfl | h
        · rfl
        · exact hrest group h
      · rcases List.mem_cons.1 h with rfl | h
        · exact hfirst _ List.mem_cons_self
        · exact placeMember_first hrest group h

theorem placeMember_ascending (hcompare : Compares order place) (k : κ) (member : α) :
    ∀ {groups : List (κ × List α)},
      (groups.Pairwise fun group group' => place group.1 < place group'.1) →
      (placeMember order k member groups).Pairwise fun group group' => place group.1 < place group'.1
  | [], _ => List.pairwise_singleton _ _
  | (other, members) :: rest, hasc => by
      obtain ⟨hhead, htail⟩ := List.pairwise_cons.1 hasc
      have hcmp := hcompare k other
      unfold placeMember
      split
      · rename_i hlt
        rw [hlt, eq_comm, compare_lt_iff_lt] at hcmp
        refine List.pairwise_cons.2 ⟨fun group hmem => ?_, hasc⟩
        rcases List.mem_cons.1 hmem with rfl | hmem
        · exact hcmp
        · exact hcmp.trans (hhead group hmem)
      · rename_i heq
        rw [heq, eq_comm, compare_eq_iff_eq] at hcmp
        refine List.pairwise_cons.2 ⟨fun group hmem => ?_, htail⟩
        rw [hcmp]
        exact hhead group hmem
      · rename_i hgt
        rw [hgt, eq_comm, compare_gt_iff_gt] at hcmp
        refine List.pairwise_cons.2 ⟨fun group hmem => ?_, placeMember_ascending hcompare k member htail⟩
        rcases key_of_mem_placeMember hmem with hk | ⟨group', hmem', hk⟩
        · rw [hk]
          exact hcmp
        · rw [hk]
          exact hhead group' hmem'

/-- Placing a member puts it in front of the members of its place and leaves the other places alone. -/
theorem membersAt_placeMember (hcompare : Compares order place) (k : κ) (member : α) (p : ρ) :
    ∀ {groups : List (κ × List α)},
      (groups.Pairwise fun group group' => place group.1 < place group'.1) →
      membersAt place (placeMember order k member groups) p =
        if place k = p then member :: membersAt place groups p else membersAt place groups p
  | [], _ => by
      by_cases hp : place k = p <;> simp [placeMember, membersAt, hp]
  | (other, members) :: rest, hasc => by
      obtain ⟨hhead, htail⟩ := List.pairwise_cons.1 hasc
      have hcmp := hcompare k other
      -- past a larger key no group shares the place of the new member
      have hnone : place k < place other → membersAt place ((other, members) :: rest) (place k) = [] := by
        intro hlt
        unfold membersAt
        rw [filter_eq_nil_of_place_ne, List.flatMap_nil]
        intro group hmem
        rcases List.mem_cons.1 hmem with rfl | hmem
        · exact hlt.ne'
        · exact (hlt.trans (hhead group hmem)).ne'
      unfold placeMember
      split
      · rename_i hlt
        rw [hlt, eq_comm, compare_lt_iff_lt] at hcmp
        by_cases hp : place k = p
        · have hempty := hnone hcmp
          rw [if_pos hp, ← hp, hempty]
          simpa [membersAt] using hempty
        · simp [membersAt, hp]
      · rename_i heq
        rw [heq, eq_comm, compare_eq_iff_eq] at hcmp
        by_cases hp : place k = p
        · simp [membersAt, hp, ← hcmp]
        · simp [membersAt, hp, ← hcmp]
      · rename_i hgt
        rw [hgt, eq_comm, compare_gt_iff_gt] at hcmp
        have ih := membersAt_placeMember hcompare k member p htail
        unfold membersAt at ih
        by_cases hp : place k = p
        · have hother : place other ≠ p := hp ▸ hcmp.ne
          simpa [membersAt, hp, hother] using ih
        · by_cases hother : place other = p <;> simpa [membersAt, hp, hother] using ih

theorem Grouped.placeMember {members : List α} {groups : List (κ × List α)}
    (hcompare : Compares order place) (h : Grouped place key members groups) (member : α) :
    Grouped place key (member :: members) (placeMember order (key member) member groups) where
  ascending := placeMember_ascending hcompare _ _ h.ascending
  whole p := by
    rw [membersAt_placeMember hcompare _ _ _ h.ascending, h.whole, List.filter_cons]
    simp only [decide_eq_true_eq]
  first := placeMember_first h.first

/-! ### Placing all members -/

theorem groupBy_grouped (hcompare : Compares order place) (key : α → κ) (members : List α) :
    Grouped place key members (groupBy order key members) := by
  induction members with
  | nil => exact ⟨List.Pairwise.nil, fun _ => rfl, fun _ h => absurd h List.not_mem_nil⟩
  | cons member members ih => exact ih.placeMember hcompare member

/-- The group of the members at one place, if there are any. -/
def classAt? (place : κ → ρ) (key : α → κ) (members : List α) (p : ρ) : Option (κ × List α) :=
  match members.filter fun member => place (key member) = p with
  | [] => none
  | first :: rest => some (key first, first :: rest)

/-- Every place that a member takes has a group. -/
theorem classAt?_of_place (place : κ → ρ) (key : α → κ) {members : List α} {p : ρ}
    (h : ∃ member ∈ members, place (key member) = p) :
    ∃ k, place k = p ∧ classAt? place key members p =
      some (k, members.filter fun member => place (key member) = p) := by
  obtain ⟨member, hmem, hplace⟩ := h
  have hfilter : member ∈ members.filter fun member => place (key member) = p :=
    List.mem_filter.2 ⟨hmem, decide_eq_true hplace⟩
  unfold classAt?
  cases hclass : members.filter fun member => place (key member) = p with
  | nil =>
      rw [hclass] at hfilter
      exact absurd hfilter List.not_mem_nil
  | cons first rest =>
      have hfirst : first ∈ members.filter fun member => place (key member) = p := by
        rw [hclass]
        exact List.mem_cons_self
      exact ⟨key first, of_decide_eq_true (List.mem_filter.1 hfirst).2, rfl⟩

namespace Grouped

variable {members : List α} {groups : List (κ × List α)}

theorem membersAt_eq (h : Grouped place key members groups) {group : κ × List α}
    (hmem : group ∈ groups) : membersAt place groups (place group.1) = group.2 := by
  obtain ⟨before, after, rfl⟩ := List.append_of_mem hmem
  obtain ⟨-, hafter, hbefore⟩ := List.pairwise_append.1 h.ascending
  have hnone : (before.filter fun other => place other.1 = place group.1) = [] := by
    apply filter_eq_nil_of_place_ne
    intro other hother
    exact (hbefore other hother group List.mem_cons_self).ne
  have hnone' : (after.filter fun other => place other.1 = place group.1) = [] := by
    apply filter_eq_nil_of_place_ne
    intro other hother
    exact ((List.pairwise_cons.1 hafter).1 other hother).ne'
  simp [membersAt, hnone, hnone']

theorem classAt?_eq (h : Grouped place key members groups) {group : κ × List α}
    (hmem : group ∈ groups) : classAt? place key members (place group.1) = some group := by
  have hfirst := h.first group hmem
  have hwhole := (h.whole (place group.1)).symm.trans (h.membersAt_eq hmem)
  unfold classAt?
  rw [hwhole]
  obtain ⟨shown, list⟩ := group
  cases list with
  | nil => simp at hfirst
  | cons first rest =>
      simp only [List.head?_cons, Option.map_some, Option.some.injEq] at hfirst
      rw [← hfirst]

theorem places_eq (h : Grouped place key members groups) :
    groups.map (fun group => place group.1) = places (fun member => place (key member)) members := by
  apply eq_places
  · exact List.pairwise_map.2 h.ascending
  · intro p
    have hiff : membersAt place groups p ≠ [] ↔ p ∈ groups.map fun group => place group.1 := by
      rw [List.mem_map]
      constructor
      · intro hne
        obtain ⟨member, hmember⟩ := List.exists_mem_of_ne_nil _ hne
        obtain ⟨group, hgroup, -⟩ := List.mem_flatMap.1 hmember
        rw [List.mem_filter, decide_eq_true_eq] at hgroup
        exact ⟨group, hgroup⟩
      · rintro ⟨group, hgroup, rfl⟩ hnil
        have hfirst := h.first group hgroup
        rw [← h.membersAt_eq hgroup, hnil] at hfirst
        simp at hfirst
    rw [← hiff, h.whole, ne_eq, List.filter_eq_nil_iff]
    simp

theorem ne_nil (h : Grouped place key members groups) {group : κ × List α} (hmem : group ∈ groups) :
    group.2 ≠ [] := by
  intro hnil
  have hfirst := h.first group hmem
  simp [hnil] at hfirst

theorem members_eq (h : Grouped place key members groups) {group : κ × List α}
    (hmem : group ∈ groups) :
    (members.filter fun member => place (key member) = place group.1) = group.2 :=
  (h.whole (place group.1)).symm.trans (h.membersAt_eq hmem)

theorem eq_of_place_eq (h : Grouped place key members groups) {group group' : κ × List α}
    (hmem : group ∈ groups) (hmem' : group' ∈ groups) (hplace : place group.1 = place group'.1) :
    group = group' := by
  have hclass := h.classAt?_eq hmem
  rw [hplace, h.classAt?_eq hmem'] at hclass
  exact (Option.some.inj hclass).symm

theorem exists_group (h : Grouped place key members groups) {member : α} (hmem : member ∈ members) :
    ∃ group ∈ groups, place group.1 = place (key member) := by
  have hplace : place (key member) ∈ places (fun member => place (key member)) members :=
    mem_places.2 ⟨member, hmem, rfl⟩
  rw [← h.places_eq] at hplace
  exact List.mem_map.1 hplace

/-- Groups are determined by the members: they are the classes at the members' places. -/
theorem eq_classes (h : Grouped place key members groups) :
    groups = (places (fun member => place (key member)) members).filterMap
      (classAt? place key members) := by
  rw [← h.places_eq, List.filterMap_map]
  have hself : groups.filterMap (fun group => classAt? place key members (place group.1)) =
      groups.filterMap some :=
    List.filterMap_congr fun group hmem => h.classAt?_eq hmem
  rw [List.filterMap_some] at hself
  exact hself.symm

/-- The groups at one place are those of the members at this place. -/
theorem filter (h : Grouped place key members groups) (p : ρ) :
    Grouped place key (members.filter fun member => place (key member) = p)
      (groups.filter fun group => place group.1 = p) where
  ascending := h.ascending.sublist List.filter_sublist
  whole q := by
    unfold membersAt
    rw [List.filter_filter, List.filter_filter]
    by_cases hq : q = p
    · subst hq
      simpa [membersAt] using h.whole q
    · have hnone : ∀ r : ρ, (decide (r = q) && decide (r = p)) = false := by
        intro r
        rw [← Bool.decide_and, decide_eq_false_iff_not]
        exact fun hr => hq (hr.1.symm.trans hr.2)
      simp only [hnone, List.filter_false, List.flatMap_nil]
  first group hmem := h.first group (List.mem_of_mem_filter hmem)

end Grouped

/-- Grouping lists the classes of the members in the order of their places. -/
theorem groupBy_eq (hcompare : Compares order place) (key : α → κ) (members : List α) :
    groupBy order key members =
      (places (fun member => place (key member)) members).filterMap (classAt? place key members) :=
  (groupBy_grouped hcompare key members).eq_classes

/-- No group depends on members at other places. -/
theorem filter_groupBy (hcompare : Compares order place) (key : α → κ) (members : List α) {p : ρ}
    {at? : κ → Bool} (hat : ∀ k, at? k = true ↔ place k = p) :
    (groupBy order key members).filter (fun group => at? group.1) =
      groupBy order key (members.filter fun member => at? (key member)) := by
  have hdecide : ∀ k, at? k = decide (place k = p) := by
    intro k
    rw [Bool.eq_iff_iff, hat, decide_eq_true_eq]
  simp only [hdecide]
  rw [((groupBy_grouped hcompare key members).filter p).eq_classes, groupBy_eq hcompare]

end Groups

/-! ### Changing keys -/

/-- Keys that compare alike group alike. -/
theorem groupBy_map_key {κ κ' α : Type} {order : κ → κ → Ordering} {order' : κ' → κ' → Ordering}
    {f : κ → κ'} (h : ∀ x y, order' (f x) (f y) = order x y) (key : α → κ) (members : List α) :
    groupBy order' (fun member => f (key member)) members =
      (groupBy order key members).map fun group => (f group.1, group.2) := by
  have hplace : ∀ (k : κ) (member : α) (groups : List (κ × List α)),
      placeMember order' (f k) member (groups.map fun group => (f group.1, group.2)) =
        (placeMember order k member groups).map fun group => (f group.1, group.2) := by
    intro k member groups
    induction groups with
    | nil => rfl
    | cons group groups ih =>
        rw [List.map_cons, placeMember, placeMember, h]
        cases order k group.1 with
        | lt => rfl
        | eq => rfl
        | gt => rw [List.map_cons, ← ih]
  induction members with
  | nil => rfl
  | cons member members ih =>
      unfold groupBy at ih ⊢
      rw [List.foldr_cons, List.foldr_cons, ih, hplace]

/-- Members that all have one key form one group. -/
theorem groupBy_const {κ α : Type} {order : κ → κ → Ordering} {k : κ} (h : order k k = .eq)
    (members : List α) :
    groupBy order (fun _ => k) members = if members = [] then [] else [(k, members)] := by
  induction members with
  | nil => rfl
  | cons member members ih =>
      unfold groupBy at ih ⊢
      rw [List.foldr_cons, ih, if_neg (List.cons_ne_nil _ _)]
      by_cases hnil : members = []
      · rw [if_pos hnil, hnil]
        rfl
      · rw [if_neg hnil, placeMember, h]

end EvalCharts
