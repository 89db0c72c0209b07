import PagedGraph.Proofs.Load.Rename

/-!
# Relationships in external ids

A relationship in external ids is stored as the `Arrival` it resolves to, so loading
relationships is resolving all of them and storing what this gives
(`RelationshipLoader.addAllExternal_eq`).

`TypeTables.LoadedFrom` says that tables were loaded from some relationships.  They hold
the arrivals these resolve to (`LoadedFrom.exists_arrivals`).
-/

namespace PagedGraph

variable {m m' : Numbering} {p : Projection} {filter : NodeFilter}

/-! ## One relationship -/

theorem RelationshipLoader.endNode_eq_ok_iff {source target endId node : Nat} :
    endNode m source target endId = .ok node ↔ m.internalOf? endId = some node := by
  rw [endNode]
  cases m.internalOf? endId with
  | none =>
    constructor
    · intro h
      cases h
    · intro h
      cases h
  | some node' =>
    constructor
    · rintro ⟨⟩
      rfl
    · rintro ⟨⟩
      rfl

namespace Arrival

/-- A relationship in internal ids, with the values that a projection stores. -/
def ofRelationship (m : Numbering) (p : Projection) (r : Relationship) :
    Except GraphError Arrival := do
  let (source, target, values) ← RelationshipLoader.resolve m p r.source r.target r.properties
  pure ⟨source, target, values⟩

/-- A relationship resolves if its ends are nodes and its values are numbers. -/
theorem ofRelationship_eq_ok_iff {r : Relationship} {a : Arrival} :
    ofRelationship m p r = .ok a ↔
      m.internalOf? r.source = some a.source ∧ m.internalOf? r.target = some a.target ∧
        p.properties.mapM (RelationshipLoader.propertyValue r.properties) = .ok a.values := by
  constructor
  · intro h
    rw [ofRelationship, RelationshipLoader.resolve] at h
    obtain ⟨_, h, hpure⟩ := bind_eq_ok h
    obtain ⟨source, hsource, h⟩ := bind_eq_ok h
    obtain ⟨target, htarget, h⟩ := bind_eq_ok h
    obtain ⟨values, hvalues, h⟩ := bind_eq_ok h
    cases h
    cases hpure
    exact ⟨RelationshipLoader.endNode_eq_ok_iff.mp hsource,
      RelationshipLoader.endNode_eq_ok_iff.mp htarget, hvalues⟩
  · rintro ⟨hsource, htarget, hvalues⟩
    rw [ofRelationship, RelationshipLoader.resolve,
      RelationshipLoader.endNode_eq_ok_iff.mpr hsource,
      RelationshipLoader.endNode_eq_ok_iff.mpr htarget, hvalues]
    rfl

/-- A relationship whose ends pass resolves to what its arrival becomes. -/
theorem ofRelationship_through
    (hnew : ∀ {external old}, m.internalOf? external = some old →
      m'.internalOf? external = filter.newOf? old)
    {r : Relationship} {a : Arrival} (h : ofRelationship m p r = .ok a)
    (hends : (m'.contains r.source && m'.contains r.target) = true) :
    ∃ a', a.through? filter = some a' ∧ ofRelationship m' p r = .ok a' := by
  obtain ⟨hsource, htarget, hvalues⟩ := ofRelationship_eq_ok_iff.mp h
  obtain ⟨hs, ht⟩ := Bool.and_eq_true_iff.mp hends
  obtain ⟨source, hs⟩ := Option.isSome_iff_exists.mp hs
  obtain ⟨target, ht⟩ := Option.isSome_iff_exists.mp ht
  have hpair : filter.pairOf? (a.source, a.target) = some (source, target) :=
    NodeFilter.pairOf?_eq_some_iff.mpr ⟨(hnew hsource).symm.trans hs, (hnew htarget).symm.trans ht⟩
  refine ⟨⟨source, target, a.values⟩, ?_, ofRelationship_eq_ok_iff.mpr ⟨hs, ht, hvalues⟩⟩
  rw [through?, hpair, Option.map_some]

/-- The arrival of a relationship with an end that does not pass does not pass. -/
theorem through?_eq_none
    (hnew : ∀ {external old}, m.internalOf? external = some old →
      m'.internalOf? external = filter.newOf? old)
    {r : Relationship} {a : Arrival} (h : ofRelationship m p r = .ok a)
    (hends : (m'.contains r.source && m'.contains r.target) ≠ true) : a.through? filter = none := by
  obtain ⟨hsource, htarget, -⟩ := ofRelationship_eq_ok_iff.mp h
  rw [through?, Option.map_eq_none_iff, Option.eq_none_iff_forall_ne_some]
  intro pair hpair
  obtain ⟨hs, ht⟩ := NodeFilter.pairOf?_eq_some_iff.mp hpair
  refine hends (Bool.and_eq_true_iff.mpr ⟨?_, ?_⟩)
  · exact Option.isSome_iff_exists.mpr ⟨_, (hnew hsource).trans hs⟩
  · exact Option.isSome_iff_exists.mpr ⟨_, (hnew htarget).trans ht⟩

/-- The relationships whose ends pass resolve to the arrivals that pass. -/
theorem mapM_ofRelationship_filter
    (hnew : ∀ {external old}, m.internalOf? external = some old →
      m'.internalOf? external = filter.newOf? old)
    {rs : List Relationship} : ∀ {arrivals : List Arrival},
      rs.mapM (ofRelationship m p) = .ok arrivals →
      (rs.filter fun r => m'.contains r.source && m'.contains r.target).mapM (ofRelationship m' p) =
        .ok (arrivals.filterMap (through? filter)) := by
  induction rs with
  | nil =>
    intro arrivals h
    cases h
    rfl
  | cons r rs ih =>
    intro arrivals h
    rw [List.mapM_cons] at h
    obtain ⟨a, ha, h⟩ := bind_eq_ok h
    obtain ⟨rest, hrest, h⟩ := bind_eq_ok h
    cases h
    rw [List.filter_cons]
    split
    · next hends =>
      obtain ⟨a', hpass, ha'⟩ := ofRelationship_through hnew ha hends
      rw [List.filterMap_cons_some hpass, List.mapM_cons, ha', ih hrest]
      rfl
    · next hends =>
      rw [List.filterMap_cons_none (through?_eq_none hnew ha hends), ih hrest]

/-- What a relationship resolves to is between nodes, with a value for every property. -/
theorem proper_of_ofRelationship {r : Relationship} {a : Arrival}
    (h : ofRelationship m p r = .ok a) : a.Proper m.nodeCount p := by
  rw [ofRelationship] at h
  obtain ⟨⟨source, target, values⟩, hresolve, h⟩ := bind_eq_ok h
  cases h
  exact RelationshipLoader.proper_of_resolve hresolve

theorem proper_of_mapM_ofRelationship {rs : List Relationship} {arrivals : List Arrival}
    (h : rs.mapM (ofRelationship m p) = .ok arrivals) :
    ∀ a ∈ arrivals, a.Proper m.nodeCount p := by
  intro a ha
  obtain ⟨r, -, hr⟩ := exists_of_mem_mapM h ha
  exact proper_of_ofRelationship hr

end Arrival

/-! ## All relationships -/

namespace RelationshipLoader

/-- Add some relationships in external ids, one after another. -/
def addAllExternal (l : RelationshipLoader) (rs : List Relationship) :
    Except GraphError RelationshipLoader :=
  rs.foldlM (fun l r => l.addExternal r.source r.target r.properties) l

theorem addExternal_eq (l : RelationshipLoader) (r : Relationship) :
    l.addExternal r.source r.target r.properties =
      (Arrival.ofRelationship l.numbering l.projection r).map fun a =>
        l.push a.source a.target a.values := by
  rw [addExternal, Arrival.ofRelationship]
  cases resolve l.numbering l.projection r.source r.target r.properties <;> rfl

theorem numbering_push (l : RelationshipLoader) (source target : Nat) (values : List Double) :
    (l.push source target values).numbering = l.numbering := by
  cases l
  rfl

theorem projection_push (l : RelationshipLoader) (source target : Nat) (values : List Double) :
    (l.push source target values).projection = l.projection := by
  cases l
  rfl

/-- Adding relationships resolves them and stores what this gives. -/
theorem addAllExternal_eq (rs : List Relationship) (l : RelationshipLoader) :
    l.addAllExternal rs =
      (rs.mapM (Arrival.ofRelationship l.numbering l.projection)).map l.pushAll := by
  induction rs generalizing l with
  | nil => rfl
  | cons r rs ih =>
    rw [addAllExternal, List.foldlM_cons, addExternal_eq, List.mapM_cons]
    cases hr : Arrival.ofRelationship l.numbering l.projection r with
    | error e => rfl
    | ok a =>
      show (l.push a.source a.target a.values).addAllExternal rs = _
      rw [ih, numbering_push, projection_push]
      cases rs.mapM (Arrival.ofRelationship l.numbering l.projection) <;> rfl

/-- A new loader that some relationships were added to holds what they resolve to. -/
theorem of_addAllExternal_eq_ok {workers : Nat} {rs : List Relationship}
    {new filled : RelationshipLoader} (hnew : create m p workers = .ok new)
    (h : new.addAllExternal rs = .ok filled) :
    0 < workers ∧ p.validate = .ok () ∧ ∃ arrivals,
      rs.mapM (Arrival.ofRelationship m p) = .ok arrivals ∧
      filled = (blank m p workers).pushAll arrivals := by
  obtain ⟨hworkers, hvalid, rfl⟩ := of_create_eq_ok hnew
  rw [addAllExternal_eq, blank, holding] at h
  cases harrivals : rs.mapM (Arrival.ofRelationship m p) with
  | error e =>
    rw [harrivals] at h
    cases h
  | ok arrivals =>
    rw [harrivals] at h
    exact ⟨hworkers, hvalid, arrivals, rfl, (Except.ok.inj h).symm⟩

end RelationshipLoader

/-! ## Tables -/

namespace TypeTables

/-- Tables that some workers load of relationships in external ids. -/
def LoadedFrom (t : TypeTables) (m : Numbering) (p : Projection) (workers : Nat)
    (rs : List Relationship) : Prop :=
  ∃ blank filled, RelationshipLoader.create m p workers = .ok blank ∧
    blank.addAllExternal rs = .ok filled ∧ filled.build = .ok t

variable {t : TypeTables} {workers : Nat} {rs : List Relationship}

/-- Loaded tables hold what the relationships resolve to. -/
theorem LoadedFrom.exists_arrivals (h : t.LoadedFrom m p workers rs) :
    p.validate = .ok () ∧ ∃ arrivals, rs.mapM (Arrival.ofRelationship m p) = .ok arrivals ∧
      SidesFit p m.nodeCount arrivals ∧ t.Loaded m ∧ t.Holds p m.nodeCount arrivals := by
  obtain ⟨blank, filled, hcreate, hadd, hbuild⟩ := h
  obtain ⟨hworkers, hvalid, arrivals, harrivals, rfl⟩ :=
    RelationshipLoader.of_addAllExternal_eq_ok hcreate hadd
  have hproper := Arrival.proper_of_mapM_ofRelationship harrivals
  exact ⟨hvalid, arrivals, harrivals,
    RelationshipLoader.sidesFit_of_build_eq_ok hvalid hproper hbuild,
    loaded_of_build_eq_ok hworkers hvalid hproper hbuild,
    RelationshipLoader.holds_of_build_eq_ok hvalid hproper hbuild⟩

/-- Relationships that resolve are loaded. -/
theorem exists_loadedFrom (hworkers : 0 < workers) (hvalid : p.validate = .ok ())
    {arrivals : List Arrival} (harrivals : rs.mapM (Arrival.ofRelationship m p) = .ok arrivals)
    (hfit : SidesFit p m.nodeCount arrivals) :
    ∃ t : TypeTables, t.LoadedFrom m p workers rs ∧ t.Loaded m ∧
      t.Holds p m.nodeCount arrivals := by
  obtain ⟨t, hbuild, hloaded, hholds⟩ :=
    exists_loaded hworkers hvalid (Arrival.proper_of_mapM_ofRelationship harrivals) hfit
  refine ⟨t, ⟨_, _, RelationshipLoader.create_eq_ok hworkers hvalid, ?_, hbuild⟩, hloaded, hholds⟩
  rw [RelationshipLoader.addAllExternal_eq]
  show (rs.mapM (Arrival.ofRelationship m p)).map _ = _
  rw [harrivals]
  rfl

/-- Loading the relationships between selected nodes gives what passes of the loaded ones. -/
theorem LoadedFrom.exists_selected (h : t.LoadedFrom m p workers rs)
    (hnew : ∀ {external old}, m.internalOf? external = some old →
      m'.internalOf? external = filter.newOf? old)
    (hselects : ∀ {new old}, filter.oldOf? new = some old → old < m.nodeCount)
    (hcount : m'.nodeCount = filter.nodeCount) {others : Nat} (hothers : 0 < others) :
    ∃ t' : TypeTables, t'.LoadedFrom m' p others
        (rs.filter fun r => m'.contains r.source && m'.contains r.target) ∧
      t.Loaded m ∧ t'.Loaded m' ∧ p.validate = .ok () ∧
      ∃ arrivals, t.Holds p m.nodeCount arrivals ∧
        t'.Holds p m'.nodeCount (arrivals.filterMap (Arrival.through? filter)) := by
  obtain ⟨hvalid, arrivals, harrivals, hfit, hloaded, hholds⟩ := h.exists_arrivals
  have hfit' := hfit.through hvalid hselects
  rw [← hcount] at hfit'
  obtain ⟨t', hfrom, hloaded', hholds'⟩ := exists_loadedFrom hothers hvalid
    (Arrival.mapM_ofRelationship_filter hnew harrivals) hfit'
  exact ⟨t', hfrom, hloaded, hloaded', hvalid, arrivals, hholds, hholds'⟩

end TypeTables

end PagedGraph
