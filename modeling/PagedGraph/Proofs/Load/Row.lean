import Mathlib.Data.List.Dedup
import PagedGraph.Proofs.Load.Fold
import PagedGraph.Projection.Basic

/-!
# Arranging the rows of a node

Arranged rows have their targets in ascending order, and each target once if parallel
rows become one (`storedTargets`).

* Sorting rows sorts their targets, and the groups of sorted rows have each target once
  (`Row.exists_collapse`).
* With the aggregations of a valid projection nothing of this can fail
  (`Row.exists_arrange`).
* What is stored of sorted rows is the arranged rows, if a degree can count them
  (`Row.settle_sort`).

A projection is valid if none of its properties has a fault.  `propertyFault?_eq_none` says
what such a property has.
-/

namespace PagedGraph

/-- Targets as they are stored: ascending, and each once if parallel relationships
become one. -/
def storedTargets (collapses : Bool) (targets : List Nat) : List Nat :=
  (if collapses then targets.dedup else targets).mergeSort (· ≤ ·)

theorem pairwise_storedTargets (collapses : Bool) (targets : List Nat) :
    (storedTargets collapses targets).Pairwise (· ≤ ·) :=
  pairwise_mergeSort _

/-- The order in which targets come does not matter. -/
theorem storedTargets_eq_of_perm {collapses : Bool} {ts us : List Nat} (h : ts.Perm us) :
    storedTargets collapses ts = storedTargets collapses us := by
  cases collapses with
  | false => exact mergeSort_eq_of_perm h
  | true => exact mergeSort_eq_of_perm h.dedup

theorem mem_storedTargets {collapses : Bool} {t : Nat} {targets : List Nat} :
    t ∈ storedTargets collapses targets ↔ t ∈ targets := by
  cases collapses <;> simp [storedTargets]

theorem length_storedTargets_le (collapses : Bool) (targets : List Nat) :
    (storedTargets collapses targets).length ≤ targets.length := by
  rw [storedTargets, List.length_mergeSort]
  cases collapses with
  | false => exact Nat.le_refl _
  | true => exact (List.dedup_sublist targets).length_le

namespace Row

variable {aggregations : List Aggregation}

/-- Collapsing sorted rows keeps every target once. -/
theorem exists_collapse (h : ∀ a ∈ aggregations, a.collapses = true) {rows : List Row}
    (hrows : (rows.map target).Pairwise (· ≤ ·)) :
    ∃ out, collapse aggregations rows = .ok out ∧ (out.map target).Pairwise (· < ·) ∧
      ∀ t, t ∈ out.map target ↔ t ∈ rows.map target := by
  obtain ⟨groups, hfold, hgroups⟩ := exists_groupsOf h rows hrows
  refine ⟨groups.reverse, ?_, ?_, fun t => ?_⟩
  · rw [collapse, hfold]
    rfl
  · rw [List.map_reverse, List.pairwise_reverse]
    exact hgroups.descending
  · rw [List.map_reverse, List.mem_reverse, hgroups.mem_targets]

/-- Arranging succeeds, and gives the targets as they are stored. -/
theorem exists_arrange {collapses : Bool}
    (h : collapses = true → ∀ a ∈ aggregations, a.collapses = true) (rows : List Row) :
    ∃ out, arrange collapses aggregations rows = .ok out ∧
      out.map target = storedTargets collapses (rows.map target) := by
  cases collapses with
  | false => exact ⟨sort rows, rfl, map_target_sort rows⟩
  | true =>
    obtain ⟨out, hout, hpair, hmem⟩ := exists_collapse (h rfl) (pairwise_sort rows)
    refine ⟨out, hout, eq_of_ascending hpair ?_ fun t => ?_⟩
    · refine ascending_of_nodup (pairwise_storedTargets ..) ?_
      exact (List.mergeSort_perm ..).nodup_iff.mpr (List.nodup_dedup _)
    · rw [hmem, map_target_sort, mem_storedTargets, List.mem_mergeSort]

/-- Sorted rows are stored as they are arranged, if a degree can count them. -/
theorem settle_sort {collapses : Bool} {rows stored : List Row}
    (h : arrange collapses aggregations rows = .ok stored) :
    settle collapses aggregations (sort rows) =
      if stored.length < UInt32.size then .ok stored
      else .error (.resourceExhausted stored.length) := by
  rw [arrange] at h
  rw [settle, h]
  rfl

end Row

namespace Projection

/-- What a property without a fault has. -/
theorem propertyFault?_eq_none {p : Projection} {before : List String}
    {property : PropertyProjection} (h : p.propertyFault? before property = none) :
    property.key.isEmpty = false ∧ property.key ∉ before ∧
      (p.effective property).collapses = p.aggregation.collapses := by
  simp only [propertyFault?] at h
  split at h
  · cases h
  · next hempty =>
    split at h
    · cases h
    · next hnew =>
      split at h
      · cases h
      · next hcollapses =>
        exact ⟨by simpa using hempty, by simpa using hnew, by simpa using hcollapses⟩

theorem firstFault?_cons_eq_none {p : Projection} {before : List String}
    {property : PropertyProjection} {rest : List PropertyProjection}
    (h : p.firstFault? before (property :: rest) = none) :
    p.propertyFault? before property = none ∧
      p.firstFault? (property.key :: before) rest = none := by
  rw [firstFault?] at h
  split at h
  · cases h
  · next hfirst => exact ⟨hfirst, h⟩

theorem collapses_of_firstFault? {p : Projection} (properties : List PropertyProjection) :
    ∀ {before : List String}, p.firstFault? before properties = none →
      ∀ property ∈ properties, (p.effective property).collapses = p.aggregation.collapses := by
  induction properties with
  | nil =>
    intro before _ property hproperty
    cases hproperty
  | cons first rest ih =>
    intro before h property hproperty
    obtain ⟨hfirst, hrest⟩ := firstFault?_cons_eq_none h
    rcases List.mem_cons.mp hproperty with rfl | hproperty
    · exact (propertyFault?_eq_none hfirst).2.2
    · exact ih hrest property hproperty

/-- Keys without a fault are different from each other and from those before. -/
theorem nodup_of_firstFault? {p : Projection} (properties : List PropertyProjection) :
    ∀ {before : List String}, p.firstFault? before properties = none →
      (properties.map (·.key)).Nodup ∧ ∀ property ∈ properties, property.key ∉ before := by
  induction properties with
  | nil =>
    intro before _
    exact ⟨.nil, by simp⟩
  | cons first rest ih =>
    intro before h
    obtain ⟨hfirst, hrest⟩ := firstFault?_cons_eq_none h
    obtain ⟨hnodup, hnew⟩ := ih hrest
    refine ⟨List.nodup_cons.mpr ⟨fun hmem => ?_, hnodup⟩, ?_⟩
    · obtain ⟨property, hproperty, hkey⟩ := List.mem_map.mp hmem
      exact hnew property hproperty (hkey ▸ List.mem_cons_self)
    · refine List.forall_mem_cons.mpr ⟨(propertyFault?_eq_none hfirst).2.1, fun property hmem => ?_⟩
      exact fun hold => hnew property hmem (List.mem_cons_of_mem _ hold)

theorem firstFault?_of_validate {p : Projection} (h : p.validate = .ok ()) :
    p.firstFault? [] p.properties = none := by
  rw [validate] at h
  split at h
  · cases h
  · next hfault => exact hfault

/-- The keys of a valid projection are different from each other. -/
theorem nodup_keys {p : Projection} (h : p.validate = .ok ()) : p.keys.Nodup :=
  (nodup_of_firstFault? p.properties (firstFault?_of_validate h)).1

/-- In a valid projection parallel values become one if parallel relationships do. -/
theorem collapses_of_validate {p : Projection} (h : p.validate = .ok ())
    (hcollapses : p.aggregation.collapses = true) : ∀ a ∈ p.aggregations, a.collapses = true := by
  intro a ha
  obtain ⟨property, hproperty, rfl⟩ := List.mem_map.mp ha
  rw [collapses_of_firstFault? _ (firstFault?_of_validate h) property hproperty, hcollapses]

end Projection

end PagedGraph
