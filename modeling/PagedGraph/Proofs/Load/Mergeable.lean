import PagedGraph.Proofs.Load.Additions
import PagedGraph.Proofs.Load.Nulls

/-!
# Valid projections can be merged

An aggregation merges if the values of any number of parallel relationships can be combined
under it (`Aggregation.Merges`).  These are the aggregations under which parallel relationships
become one (`Aggregation.merges_iff`).

* In a valid projection whose relationships become one, the effective aggregations of all
  properties merge, so no build of it fails to merge (`Projection.validate_decides_merging`).  Nor
  does a build of a whole graph (`GraphLoader.Consistent.build_ne_unmergeable`).
* A fault of a projection is that of one of its properties, behind the keys of those before it
  (`Projection.exists_of_firstFault?_eq_some`).  If the keys are not empty and all different, this
  property merges and the relationships are kept, or the other way round.
-/

namespace PagedGraph

namespace Aggregation

/-- The values of parallel relationships can be combined, however many there are. -/
def Merges (a : Aggregation) : Prop :=
  ∀ (x : Double) (xs : List Double), ∃ merged, xs.foldlM a.combine (a.first x) = .ok merged

theorem exists_foldlM_combine {a : Aggregation} (h : a.collapses = true) (xs : List Double)
    (running : Double) : ∃ merged, xs.foldlM a.combine running = .ok merged := by
  induction xs generalizing running with
  | nil => exact ⟨running, rfl⟩
  | cons x xs ih =>
    obtain ⟨next, hnext⟩ := exists_combine h running x
    rw [List.foldlM_cons, hnext]
    exact ih next

/-- Aggregations merge if parallel relationships become one under them. -/
theorem merges_iff {a : Aggregation} : a.Merges ↔ a.collapses = true := by
  constructor
  · intro h
    obtain ⟨merged, hmerged⟩ := h .one [.one]
    cases a with
    | unset => cases hmerged
    | keep => cases hmerged
    | single | sum | min | max | count => rfl
  · exact fun h x xs => exists_foldlM_combine h xs (a.first x)

end Aggregation

namespace Projection

variable {p : Projection}

/-- An effective aggregation is chosen. -/
theorem effective_ne_unset (property : PropertyProjection) : p.effective property ≠ .unset := by
  rw [effective]
  cases property.aggregation with
  | unset => cases p.aggregation <;> nofun
  | keep | single | sum | min | max | count => nofun

/-- An effective aggregation under which relationships do not become one keeps them. -/
theorem effective_eq_keep {property : PropertyProjection}
    (h : (p.effective property).collapses = false) : p.effective property = .keep := by
  cases heffective : p.effective property with
  | unset => exact absurd heffective (effective_ne_unset property)
  | keep => rfl
  | single | sum | min | max | count =>
    rw [heffective] at h
    cases h

/-- A fault of some properties is that of one of them, behind the keys of those before it. -/
theorem exists_of_firstFault?_eq_some {fault : ConfigFault} (properties : List PropertyProjection) :
    ∀ {before : List String}, p.firstFault? before properties = some fault →
      ∃ init property rest, properties = init ++ property :: rest ∧
        p.propertyFault? ((init.map (·.key)).reverse ++ before) property = some fault := by
  induction properties with
  | nil => exact nofun
  | cons first rest ih =>
    intro before h
    rw [firstFault?] at h
    split at h
    · next hfirst =>
      cases h
      exact ⟨[], first, rest, rfl, hfirst⟩
    · obtain ⟨init, property, others, rfl, hproperty⟩ := ih h
      refine ⟨first :: init, property, others, rfl, ?_⟩
      rwa [List.map_cons, List.reverse_cons, List.append_assoc]

/-- The only fault of a property with a key of its own is its aggregation. -/
theorem of_propertyFault?_eq_some {before : List String} {property : PropertyProjection}
    {fault : ConfigFault} (h : p.propertyFault? before property = some fault)
    (hkey : property.key ≠ "") (hnew : property.key ∉ before) :
    fault = .aggregationClash property.key property.aggregation p.aggregation ∧
      (p.effective property).collapses ≠ p.aggregation.collapses := by
  rw [propertyFault?, if_neg (by simpa using hkey), if_neg (by simpa using hnew)] at h
  split at h
  · next hclash =>
    cases h
    exact ⟨rfl, by simpa using hclash⟩
  · cases h

/-- Of keys that are not empty and all different, validation refuses only aggregations. -/
theorem exists_clash_of_validate {e : GraphError} (h : p.validate = .error e) (hkeys : "" ∉ p.keys)
    (hnodup : p.keys.Nodup) : ∃ property ∈ p.properties,
      e = .badConfiguration (.aggregationClash property.key property.aggregation p.aggregation) ∧
      (p.effective property).collapses ≠ p.aggregation.collapses := by
  rw [validate] at h
  split at h
  · next fault hfault =>
    cases h
    obtain ⟨init, property, rest, hsplit, hproperty⟩ := exists_of_firstFault?_eq_some _ hfault
    have hmem : property ∈ p.properties := hsplit ▸ List.mem_append_right _ List.mem_cons_self
    have hnew : property.key ∉ (init.map (·.key)).reverse ++ [] := by
      rw [keys, hsplit, List.map_append, List.nodup_append] at hnodup
      intro hkey
      rw [List.append_nil, List.mem_reverse] at hkey
      exact hnodup.2.2 _ hkey _ List.mem_cons_self rfl
    have hkey : property.key ≠ "" := fun hempty => hkeys (hempty ▸ List.mem_map_of_mem hmem)
    obtain ⟨rfl, hclash⟩ := of_propertyFault?_eq_some hproperty hkey hnew
    exact ⟨property, hmem, rfl, hclash⟩
  · cases h

end Projection

/-- Validation tells the projections that can be merged.  Of one that it accepts no build fails to
merge, whatever was added.  One that it refuses, though the keys are in order, has a property that
keeps its values where relationships become one, or the other way round. -/
theorem Projection.validate_decides_merging (p : Projection) :
    (p.validate = .ok () →
      (p.aggregation.collapses = true → ∀ property ∈ p.properties, (p.effective property).Merges) ∧
      ∀ {m : Numbering} {workers : Nat} {calls : List LoaderCall}, 0 < workers →
        (∀ call ∈ calls, call.InRange m p) →
        ∃ new filled, RelationshipLoader.create m p workers = .ok new ∧
          calls.foldlM LoaderCall.left? new = some filled ∧
          ∀ aggregation, filled.build ≠ .error (.unmergeable aggregation)) ∧
    ∀ {e}, p.validate = .error e → "" ∉ p.keys → p.keys.Nodup →
      ∃ property ∈ p.properties,
        e = .badConfiguration (.aggregationClash property.key property.aggregation p.aggregation) ∧
        ((p.effective property = .keep ∧ p.aggregation.collapses = true) ∨
          ((p.effective property).Merges ∧ p.aggregation.collapses = false)) := by
  refine ⟨fun hvalid => ⟨fun hcollapses property hproperty => ?_, ?_⟩, ?_⟩
  · exact Aggregation.merges_iff.mpr
      (collapses_of_validate hvalid hcollapses _ (List.mem_map_of_mem hproperty))
  · intro m workers calls hworkers hcalls
    obtain ⟨hends, hvalues⟩ := LoaderCall.forall_kept hcalls
    have hproper := List.forall_mem_map.mpr (RelationshipLoader.proper_arrival hends hvalues)
    refine ⟨_, _, RelationshipLoader.create_eq_ok hworkers hvalid,
      RelationshipLoader.foldlM_left?_blank workers hcalls, fun aggregation he => ?_⟩
    obtain ⟨degree, -, hdegree⟩ :=
      RelationshipLoader.exists_of_build_eq_error hvalid hproper he
    cases hdegree
  · intro e he hkeys hnodup
    obtain ⟨property, hproperty, rfl, hclash⟩ := exists_clash_of_validate he hkeys hnodup
    refine ⟨property, hproperty, rfl, ?_⟩
    cases hcollapses : p.aggregation.collapses with
    | true =>
      rw [hcollapses, ne_eq, Bool.not_eq_true] at hclash
      exact Or.inl ⟨effective_eq_keep hclash, rfl⟩
    | false =>
      rw [hcollapses, ne_eq, Bool.not_eq_false] at hclash
      exact Or.inr ⟨Aggregation.merges_iff.mpr hclash, rfl⟩

/-- Weights are added up, and of parallel relationships one is left. -/
def summed : Projection :=
  { orientation := .undirected, aggregation := .single
    properties := [{ key := "w", aggregation := .sum }, { key := "v" }] }

/-- Relationships become one, and a property keeps all its values. -/
def clashing : Projection :=
  { aggregation := .single, properties := [{ key := "v" }, { key := "w", aggregation := .keep }] }

theorem Projection.validate_decides_merging_summed :
    (∃ new filled, RelationshipLoader.create RelationshipLoader.oneAndTwo summed 1 = .ok new ∧
      [.internal (.valued 0 1 [.one, .one]), .internal (.valued 1 0 [.one, .one])].foldlM
        LoaderCall.left? new = some filled ∧
      ∀ aggregation, filled.build ≠ .error (.unmergeable aggregation)) ∧
    ∃ property ∈ clashing.properties,
      (clashing.effective property = .keep ∧ clashing.aggregation.collapses = true) ∨
        ((clashing.effective property).Merges ∧ clashing.aggregation.collapses = false) := by
  refine ⟨((summed.validate_decides_merging).1 rfl).2 Nat.one_pos (by decide), ?_⟩
  obtain ⟨property, hproperty, -, hclash⟩ :=
    (clashing.validate_decides_merging).2 rfl (by decide) (by decide)
  exact ⟨property, hproperty, hclash⟩

namespace GraphLoader

/-- A build of a whole graph meets no values that cannot be merged. -/
theorem Consistent.build_ne_unmergeable {b : GraphLoader} (h : b.Consistent) (identity : Nat)
    (aggregation : Aggregation) : b.build identity ≠ .error (.unmergeable aggregation) := by
  intro he
  by_cases hnodup : b.ids.Nodup
  · rw [← map_fst_entries] at hnodup
    obtain ⟨m, hm⟩ := Numbering.exists_build_eq_ok hnodup identity
    rw [build_eq hm] at he
    rcases bind_eq_error he with hcolumns | ⟨columns, -, htypes⟩
    · rcases h.buildColumns_or_missing hm with ⟨columns, hok⟩ | ⟨key, -, -, hmissing⟩
      · cases hok.symm.trans hcolumns
      · cases hmissing.symm.trans hcolumns
    · cases hbuild : b.buildTypes m with
      | ok types =>
        rw [hbuild] at htypes
        cases htypes
      | error e =>
        rw [hbuild] at htypes
        cases htypes
        rcases h.exists_of_buildTypes_eq_error (mem_ids_iff hm) hbuild with
          ⟨type, r, -, hr⟩ | hcrowded
        · cases Relationship.fault_of_ofRelationship (mem_ids_iff hm) hr
        · obtain ⟨degree, hdegree⟩ := hcrowded.exists_degree
          cases hdegree
  · obtain ⟨id, hid, -⟩ := build_repeated hnodup identity
    cases hid.symm.trans he

end GraphLoader

end PagedGraph
