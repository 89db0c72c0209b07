import PagedGraph.Proofs.Load.Calls
import PagedGraph.Proofs.Load.Columns
import PagedGraph.Proofs.Load.Crowded
import PagedGraph.Proofs.Numbering.Build

/-!
# Why a graph is not built

A build can fail in each of its stages.  Of the loaders that calls make it fails for three
reasons only, as long as no node has more relationships of a type than a degree can count.

* Two nodes have one external id.  The least such id is reported, before any relationship is
  looked at (`Numbering.build_repeated`).
* A relationship has an end that no node has, or under a key of its type's projection a value
  that is no number.  `Relationship.Fault` says which error it gives.
* The columns are always made of what passes these checks (`GraphLoader.exists_buildColumns`), and
  so are the tables of a type unless its relationships crowd a node
  (`RelationshipLoader.exists_build_iff`), which fewer than `2 ^ 32` of them never do.

The result is `GraphLoader.build_fails_iff`.
-/

namespace PagedGraph

/-! ## One relationship -/

/-- A value that is there and is no number. -/
def Value.NotNumeric (value : Value) : Prop :=
  value ≠ .null ∧ (∀ n, value ≠ .int n) ∧ ∀ x, value ≠ .float x

/-- Why a relationship is refused by a projection, when nodes have some ids.  The source is looked
at first, then the target, then the values. -/
inductive Relationship.Fault (ids : List Nat) (p : Projection) (r : Relationship) :
    GraphError → Prop where
  | unknownSource (h : r.source ∉ ids) : r.Fault ids p (.unknownEnd r.source r.source r.target)
  | unknownTarget (hsource : r.source ∈ ids) (h : r.target ∉ ids) :
    r.Fault ids p (.unknownEnd r.target r.source r.target)
  | notNumeric {key : String} {value : Value} (hsource : r.source ∈ ids) (htarget : r.target ∈ ids)
    (hkey : key ∈ p.keys) (hvalue : r.properties.get? key = some value) (h : value.NotNumeric) :
    r.Fault ids p (.typeClash (.notNumeric value))

namespace RelationshipLoader

variable {m : Numbering} {properties : Properties} {property : PropertyProjection}

/-- Only a value that is no number is refused. -/
theorem propertyValue_eq_error_iff {e : GraphError} :
    propertyValue properties property = .error e ↔ ∃ value,
      properties.get? property.key = some value ∧ value.NotNumeric ∧
      e = .typeClash (.notNumeric value) := by
  rw [propertyValue]
  cases hvalue : properties.get? property.key with
  | none => simp
  | some value =>
    cases value with
    | null => simp [Value.NotNumeric]
    | int n => simp [Value.asDouble?, Value.NotNumeric]
    | float x => simp [Value.asDouble?, Value.NotNumeric]
    | intList ns => simp [Value.asDouble?, Value.NotNumeric, eq_comm]
    | floatList xs => simp [Value.asDouble?, Value.NotNumeric, eq_comm]

theorem endNode_eq_error_iff {source target endId : Nat} {e : GraphError} :
    endNode m source target endId = .error e ↔
      m.internalOf? endId = none ∧ e = .unknownEnd endId source target := by
  rw [endNode]
  cases m.internalOf? endId <;> simp [eq_comm]

end RelationshipLoader

namespace Relationship

variable {m : Numbering} {ids : List Nat} {p : Projection} {r : Relationship} {e : GraphError}

/-- A relationship has a fault if an end is no node's or a value of the projection is no number. -/
theorem exists_fault_iff : (∃ e, r.Fault ids p e) ↔
    (r.source ∉ ids ∨ r.target ∉ ids) ∨ ∃ key value, key ∈ p.keys ∧
      r.properties.get? key = some value ∧ value.NotNumeric := by
  constructor
  · rintro ⟨e, hfault⟩
    cases hfault with
    | unknownSource h => exact Or.inl (Or.inl h)
    | unknownTarget _ h => exact Or.inl (Or.inr h)
    | @notNumeric key value _ _ hkey hvalue h => exact Or.inr ⟨key, value, hkey, hvalue, h⟩
  · intro h
    by_cases hsource : r.source ∈ ids
    · by_cases htarget : r.target ∈ ids
      · obtain ⟨key, value, hkey, hvalue, h⟩ :=
          h.resolve_left fun hends => hends.elim (· hsource) (· htarget)
        exact ⟨_, .notNumeric hsource htarget hkey hvalue h⟩
      · exact ⟨_, .unknownTarget hsource htarget⟩
    · exact ⟨_, .unknownSource hsource⟩

/-- A relationship that does not resolve has a fault. -/
theorem fault_of_ofRelationship (hm : ∀ {id}, id ∈ ids ↔ ∃ node, m.internalOf? id = some node)
    (h : Arrival.ofRelationship m p r = .error e) : r.Fault ids p e := by
  have hnone : ∀ {id}, m.internalOf? id = none → id ∉ ids := fun hid hmem => by
    obtain ⟨node, hnode⟩ := hm.mp hmem
    rw [hid] at hnode
    cases hnode
  have hsome : ∀ {source target id node},
      RelationshipLoader.endNode m source target id = .ok node → id ∈ ids := fun hnode =>
    hm.mpr ⟨_, RelationshipLoader.endNode_eq_ok_iff.mp hnode⟩
  rw [Arrival.ofRelationship, RelationshipLoader.resolve] at h
  rcases bind_eq_error h with h | ⟨_, -, h⟩
  case inr => cases h
  rcases bind_eq_error h with h | ⟨source, hsource, h⟩
  · obtain ⟨hid, rfl⟩ := RelationshipLoader.endNode_eq_error_iff.mp h
    exact .unknownSource (hnone hid)
  rcases bind_eq_error h with h | ⟨target, htarget, h⟩
  · obtain ⟨hid, rfl⟩ := RelationshipLoader.endNode_eq_error_iff.mp h
    exact .unknownTarget (hsome hsource) (hnone hid)
  rcases bind_eq_error h with h | ⟨_, -, h⟩
  · obtain ⟨property, hproperty, herror⟩ := exists_of_mapM_eq_error h
    obtain ⟨value, hvalue, hnumber, rfl⟩ := RelationshipLoader.propertyValue_eq_error_iff.mp herror
    exact .notNumeric (hsome hsource) (hsome htarget) (List.mem_map_of_mem hproperty) hvalue hnumber
  · cases h

/-- A relationship with a fault does not resolve. -/
theorem Fault.not_ok (hm : ∀ {id}, id ∈ ids ↔ ∃ node, m.internalOf? id = some node)
    (h : r.Fault ids p e) (a : Arrival) : Arrival.ofRelationship m p r ≠ .ok a := by
  intro hok
  obtain ⟨hsource, htarget, hvalues⟩ := Arrival.ofRelationship_eq_ok_iff.mp hok
  cases h with
  | unknownSource h => exact h (hm.mpr ⟨_, hsource⟩)
  | unknownTarget _ h => exact h (hm.mpr ⟨_, htarget⟩)
  | @notNumeric key value _ _ hkey hvalue h =>
    obtain ⟨property, hproperty, rfl⟩ := List.mem_map.mp hkey
    obtain ⟨x, hx⟩ := exists_mapM_eq_ok_iff.mp ⟨_, hvalues⟩ property hproperty
    have herror := RelationshipLoader.propertyValue_eq_error_iff.mpr ⟨value, hvalue, h, rfl⟩
    rw [hx] at herror
    cases herror

end Relationship

/-! ## The relationships of a type -/

namespace GraphLoader

/-- The external ids of the nodes, in the order the nodes were added. -/
def ids (b : GraphLoader) : List Nat := b.nodes.toList.map (·.id)

variable {b : GraphLoader} {m : Numbering} {type : String} {rs : Array Relationship}

/-- The projection of a type is valid, whether it was given or not. -/
theorem Consistent.validate_projectionOf (h : b.Consistent) (type : String) :
    (b.projectionOf type).validate = .ok () := by
  rw [projectionOf]
  cases hp : b.projections.lookup type with
  | none => rfl
  | some p => exact h.valid hp

/-- A type is built by resolving its relationships and storing what this gives. -/
theorem Consistent.buildType_eq (h : b.Consistent) :
    b.buildType m type rs =
      rs.toList.mapM (Arrival.ofRelationship m (b.projectionOf type)) >>= fun arrivals =>
        ((RelationshipLoader.blank m (b.projectionOf type) b.workers).pushAll arrivals).build := by
  rw [buildType,
    RelationshipLoader.create_eq_ok h.workers_pos (h.validate_projectionOf type)]
  show (RelationshipLoader.addAllExternal _ rs.toList >>= _) = _
  rw [RelationshipLoader.addAllExternal_eq]
  show (Except.map _ (rs.toList.mapM (Arrival.ofRelationship m (b.projectionOf type))) >>= _) = _
  cases rs.toList.mapM (Arrival.ofRelationship m (b.projectionOf type)) <;> rfl

section BuildType

variable (hm : ∀ {id}, id ∈ b.ids ↔ ∃ node, m.internalOf? id = some node)

include hm

/-- A type is built if all its relationships resolve and crowd no node. -/
theorem Consistent.exists_buildType_iff (h : b.Consistent) :
    (∃ tables, b.buildType m type rs = .ok tables) ↔
      (∀ r ∈ rs, ∃ a, Arrival.ofRelationship m (b.projectionOf type) r = .ok a) ∧
        ∀ e, ¬ (b.projectionOf type).Crowded rs.toList b.ids e := by
  have hvalid := h.validate_projectionOf type
  rw [h.buildType_eq]
  constructor
  · rintro ⟨tables, htables⟩
    obtain ⟨arrivals, harrivals, hbuild⟩ := bind_eq_ok htables
    refine ⟨fun r hr => ?_, ?_⟩
    · exact exists_mapM_eq_ok_iff.mp ⟨arrivals, harrivals⟩ r (Array.mem_toList_iff.mpr hr)
    · exact (RelationshipLoader.exists_build_iff b.workers hvalid harrivals hm).mp ⟨tables, hbuild⟩
  · rintro ⟨hrs, hcrowded⟩
    obtain ⟨arrivals, harrivals⟩ :=
      exists_mapM_eq_ok_iff.mpr fun r hr => hrs r (Array.mem_toList_iff.mp hr)
    rw [harrivals]
    exact (RelationshipLoader.exists_build_iff b.workers hvalid harrivals hm).mpr hcrowded

/-- Otherwise the error is that of one of them, or tells the degree of a crowded node. -/
theorem Consistent.exists_of_buildType_eq_error (h : b.Consistent) {e : GraphError}
    (he : b.buildType m type rs = .error e) :
    (∃ r ∈ rs, Arrival.ofRelationship m (b.projectionOf type) r = .error e) ∨
      (b.projectionOf type).Crowded rs.toList b.ids e := by
  rw [h.buildType_eq] at he
  rcases bind_eq_error he with he | ⟨arrivals, harrivals, he⟩
  · obtain ⟨r, hr, he⟩ := exists_of_mapM_eq_error he
    exact Or.inl ⟨r, Array.mem_toList_iff.mp hr, he⟩
  · exact Or.inr (RelationshipLoader.crowded_of_build_eq_error
      (h.validate_projectionOf type) harrivals hm he)

end BuildType

/-! ## The whole graph -/

/-- Every key of a node has a value, and not only null, on some node. -/
def KeysValued (b : GraphLoader) : Prop :=
  ∀ node ∈ b.nodes, ∀ key ∈ node.properties.keys, ∃ other ∈ b.nodes, ∃ value,
    other.properties.get? key = some value ∧ value ≠ .null

theorem keysValued_of_bare (h : ∀ node ∈ b.nodes.toList, node.properties.keys = []) :
    b.KeysValued := by
  intro node hnode key hkey
  rw [h node (Array.mem_toList_iff.mpr hnode)] at hkey
  cases hkey

/-- The nodes of a loader as they are numbered. -/
def entries (b : GraphLoader) : List NodeEntry := b.nodes.toList.map fun n => (n.id, n.labels)

theorem map_fst_entries (b : GraphLoader) : b.entries.map (·.1) = b.ids := List.map_map

/-- The ids that have an internal id are those of the nodes. -/
theorem mem_ids_iff {identity : Nat} (hm : Numbering.build identity b.entries = .ok m) {id : Nat} :
    id ∈ b.ids ↔ ∃ node, m.internalOf? id = some node := by
  rw [← map_fst_entries, ← (Numbering.numbers_of_build_eq_ok hm).exists_iff]
  exact exists_congr fun node => m.internalOf?_eq_some_iff.symm

/-- Of nodes that are numbered the columns can be filled. -/
theorem Consistent.exists_columns (h : b.Consistent) (hkeys : b.KeysValued) {identity : Nat}
    (hm : Numbering.build identity b.entries = .ok m) :
    ∃ s, b.buildColumns m = .ok s ∧ s.Filled m b.kinds b.nodes.toList := by
  refine exists_buildColumns (fun node hnode => ?_) fun node hnode {key value} hvalue => ?_
  · exact (mem_ids_iff hm).mp (List.mem_map_of_mem hnode)
  · have hkey : key ∈ node.properties.keys := mem_names_iff.mpr ⟨value, hvalue⟩
    have hnode : node ∈ b.nodes := Array.mem_toList_iff.mp hnode
    obtain ⟨other, hother, value', hvalue', hnull⟩ := hkeys node hnode key hkey
    obtain ⟨kind, hkind⟩ := Value.exists_kind? hnull
    have hknown := h.kinds hother hvalue' hkind
    refine ⟨kind, hknown, fun {got} hgot => ?_⟩
    exact Option.some.inj ((h.kinds hnode hvalue hgot).symm.trans hknown)

/-- The tables of every type. -/
def buildTypes (b : GraphLoader) (m : Numbering) : Except GraphError (List (String × TypeTables)) :=
  b.relationships.mapM fun (type, relationships) => do
    let tables ← b.buildType m type relationships
    pure (type, tables)

/-- Over numbered nodes the columns are filled first, and then the tables are built. -/
theorem build_eq {identity : Nat} (hm : Numbering.build identity b.entries = .ok m) :
    b.build identity = b.buildColumns m >>= fun columns =>
      (b.buildTypes m).map fun types => { numbering := m, columns, types } := by
  rw [build]
  show (Numbering.build identity b.entries >>= _) = _
  rw [hm]
  refine congrArg (b.buildColumns m >>= ·) (funext fun columns => ?_)
  show (b.buildTypes m >>= _) = _
  cases b.buildTypes m <;> rfl

/-- Over numbered nodes a graph is built of its columns and the tables of every type. -/
theorem Consistent.exists_build_eq (h : b.Consistent) (hkeys : b.KeysValued) {identity : Nat}
    (hm : Numbering.build identity b.entries = .ok m) :
    ∃ columns, columns.Filled m b.kinds b.nodes.toList ∧
      b.build identity = (b.buildTypes m).map fun types => { numbering := m, columns, types } := by
  obtain ⟨columns, hcolumns, hfilled⟩ := h.exists_columns hkeys hm
  refine ⟨columns, hfilled, ?_⟩
  rw [build_eq hm, hcolumns]
  rfl

/-- The relationships of some type crowd a node. -/
def Crowded (b : GraphLoader) (e : GraphError) : Prop :=
  ∃ type rs, (type, rs) ∈ b.relationships ∧ (b.projectionOf type).Crowded rs.toList b.ids e

/-- The error tells a degree. -/
theorem Crowded.exists_degree {e : GraphError} (h : b.Crowded e) :
    ∃ degree, e = .resourceExhausted degree := by
  obtain ⟨type, rs, -, hcrowded⟩ := h
  cases hcrowded with
  | outgoing => exact ⟨_, rfl⟩
  | incoming => exact ⟨_, rfl⟩

/-- Fewer relationships of every type than a degree can count crowd no node. -/
theorem not_crowded_of_size_lt (h : ∀ entry ∈ b.relationships, entry.2.size < UInt32.size)
    (e : GraphError) : ¬ b.Crowded e := by
  rintro ⟨type, rs, hentry, hcrowded⟩
  exact Projection.not_crowded_of_length_lt (h _ hentry) b.ids e hcrowded

section BuildTypes

variable (hm : ∀ {id}, id ∈ b.ids ↔ ∃ node, m.internalOf? id = some node)

include hm

/-- All types are built if every relationship resolves and no node is crowded. -/
theorem Consistent.exists_buildTypes_iff (h : b.Consistent) :
    (∃ types, b.buildTypes m = .ok types) ↔
      (∀ {type r}, b.Buffers type r →
        ∃ a, Arrival.ofRelationship m (b.projectionOf type) r = .ok a) ∧ ∀ e, ¬ b.Crowded e := by
  rw [buildTypes, exists_mapM_eq_ok_iff]
  constructor
  · intro htypes
    have htype : ∀ {type rs}, (type, rs) ∈ b.relationships →
        ∃ tables, b.buildType m type rs = .ok tables := fun {type rs} hentry => by
      obtain ⟨_, hbuild⟩ := htypes (type, rs) hentry
      obtain ⟨tables, htables, -⟩ := bind_eq_ok hbuild
      exact ⟨tables, htables⟩
    constructor
    · rintro type r ⟨rs, hentry, hr⟩
      exact ((h.exists_buildType_iff hm).mp (htype hentry)).1 r hr
    · rintro e ⟨type, rs, hentry, hcrowded⟩
      exact ((h.exists_buildType_iff hm).mp (htype hentry)).2 e hcrowded
  · rintro ⟨hrs, hcrowded⟩ ⟨type, rs⟩ hentry
    obtain ⟨tables, htables⟩ := (h.exists_buildType_iff hm).mpr
      ⟨fun r hr => hrs ⟨rs, hentry, hr⟩, fun e he => hcrowded e ⟨type, rs, hentry, he⟩⟩
    refine ⟨(type, tables), ?_⟩
    show (b.buildType m type rs >>= _) = _
    rw [htables]
    rfl

/-- Otherwise the error is that of one of them, or tells the degree of a crowded node. -/
theorem Consistent.exists_of_buildTypes_eq_error (h : b.Consistent) {e : GraphError}
    (he : b.buildTypes m = .error e) :
    (∃ type r, b.Buffers type r ∧
      Arrival.ofRelationship m (b.projectionOf type) r = .error e) ∨ b.Crowded e := by
  obtain ⟨⟨type, rs⟩, hentry, he⟩ := exists_of_mapM_eq_error he
  rcases bind_eq_error he with he | ⟨tables, -, he⟩
  · rcases h.exists_of_buildType_eq_error hm he with ⟨r, hr, he⟩ | hcrowded
    · exact Or.inl ⟨type, r, ⟨rs, hentry, hr⟩, he⟩
    · exact Or.inr ⟨type, rs, hentry, hcrowded⟩
  · cases he

end BuildTypes

/-- Over numbered nodes a graph is built if every relationship resolves and no node is crowded. -/
theorem Consistent.exists_build_iff (h : b.Consistent) (hkeys : b.KeysValued) {identity : Nat}
    (hm : Numbering.build identity b.entries = .ok m) :
    (∃ g, b.build identity = .ok g) ↔
      (∀ {type r}, b.Buffers type r →
        ∃ a, Arrival.ofRelationship m (b.projectionOf type) r = .ok a) ∧ ∀ e, ¬ b.Crowded e := by
  obtain ⟨columns, -, hbuild⟩ := h.exists_build_eq hkeys hm
  rw [← h.exists_buildTypes_iff (mem_ids_iff hm), hbuild]
  cases b.buildTypes m <;> simp [Except.map]

/-- The error of a build over numbered nodes is that of a relationship, or tells the degree of a
crowded node. -/
theorem Consistent.exists_fault (h : b.Consistent) (hkeys : b.KeysValued) {identity : Nat}
    (hm : Numbering.build identity b.entries = .ok m) {e : GraphError}
    (he : b.build identity = .error e) :
    (∃ type r, b.Buffers type r ∧ r.Fault b.ids (b.projectionOf type) e) ∨ b.Crowded e := by
  obtain ⟨columns, -, hbuild⟩ := h.exists_build_eq hkeys hm
  rw [hbuild] at he
  cases htypes : b.buildTypes m with
  | ok types =>
    rw [htypes] at he
    cases he
  | error e' =>
    rw [htypes] at he
    cases he
    refine (h.exists_of_buildTypes_eq_error (mem_ids_iff hm) htypes).imp_left ?_
    rintro ⟨type, r, hr, he⟩
    exact ⟨type, r, hr, Relationship.fault_of_ofRelationship (mem_ids_iff hm) he⟩

/-- Over numbered nodes a build fails if a relationship has a fault or a node is crowded. -/
theorem Consistent.exists_build_eq_error_iff (h : b.Consistent) (hkeys : b.KeysValued)
    (hnodup : b.ids.Nodup) (identity : Nat) : (∃ e, b.build identity = .error e) ↔
      (∃ type r e, b.Buffers type r ∧ r.Fault b.ids (b.projectionOf type) e) ∨
        ∃ e, b.Crowded e := by
  rw [← map_fst_entries] at hnodup
  obtain ⟨m, hm⟩ := Numbering.exists_build_eq_ok hnodup identity
  constructor
  · rintro ⟨e, he⟩
    rcases h.exists_fault hkeys hm he with ⟨type, r, hr, hfault⟩ | hcrowded
    · exact Or.inl ⟨type, r, e, hr, hfault⟩
    · exact Or.inr ⟨e, hcrowded⟩
  · intro hreason
    cases hbuild : b.build identity with
    | error e => exact ⟨e, rfl⟩
    | ok g =>
      obtain ⟨hresolve, hcrowded⟩ := (h.exists_build_iff hkeys hm).mp ⟨g, hbuild⟩
      rcases hreason with ⟨type, r, e, hr, hfault⟩ | ⟨e, he⟩
      · obtain ⟨a, ha⟩ := hresolve hr
        exact absurd ha (hfault.not_ok (mem_ids_iff hm) a)
      · exact absurd he (hcrowded e)

/-- Without a repeated id, without a fault and without a crowded node a graph is built. -/
theorem Consistent.exists_build (h : b.Consistent) (hkeys : b.KeysValued) (hnodup : b.ids.Nodup)
    (hfaults : ∀ {type r e}, b.Buffers type r → ¬ r.Fault b.ids (b.projectionOf type) e)
    (hcrowded : ∀ e, ¬ b.Crowded e) (identity : Nat) : ∃ g, b.build identity = .ok g := by
  cases hbuild : b.build identity with
  | ok g => exact ⟨g, rfl⟩
  | error e =>
    rcases (h.exists_build_eq_error_iff hkeys hnodup identity).mp ⟨e, hbuild⟩ with
      ⟨type, r, e', hr, hfault⟩ | ⟨e', he⟩
    · exact absurd hfault (hfaults hr)
    · exact absurd he (hcrowded e')

/-- Without any properties a graph is built if the ids are all different, the ends are nodes and a
degree can count the relationships of every type. -/
theorem Consistent.exists_build_of_bare (h : b.Consistent) (hnodup : b.ids.Nodup)
    (hnodes : ∀ node ∈ b.nodes.toList, node.properties.keys = [])
    (hends : ∀ entry ∈ b.relationships, ∀ r ∈ entry.2.toList,
      r.source ∈ b.ids ∧ r.target ∈ b.ids ∧ r.properties.keys = [])
    (hsizes : ∀ entry ∈ b.relationships, entry.2.size < UInt32.size) (identity : Nat) :
    ∃ g, b.build identity = .ok g := by
  refine h.exists_build (keysValued_of_bare hnodes) hnodup ?_ (not_crowded_of_size_lt hsizes)
    identity
  rintro type r e ⟨rs, hentry, hr⟩ hfault
  obtain ⟨hsource, htarget, hkeys⟩ := hends _ hentry r (Array.mem_toList_iff.mpr hr)
  cases hfault with
  | unknownSource h => exact h hsource
  | unknownTarget _ h => exact h htarget
  | @notNumeric key value _ _ _ hvalue =>
    have hkey : key ∈ r.properties.keys := mem_names_iff.mpr ⟨value, hvalue⟩
    rw [hkeys] at hkey
    cases hkey

/-- Some relationship has a fault if one has an end that is no node's or one has a value of its
projection that is no number. -/
theorem exists_buffered_fault_iff :
    (∃ type r e, b.Buffers type r ∧ r.Fault b.ids (b.projectionOf type) e) ↔
      (∃ type r, b.Buffers type r ∧ (r.source ∉ b.ids ∨ r.target ∉ b.ids)) ∨
      ∃ type r key value, b.Buffers type r ∧ key ∈ (b.projectionOf type).keys ∧
        r.properties.get? key = some value ∧ value.NotNumeric := by
  constructor
  · rintro ⟨type, r, e, hr, hfault⟩
    rcases Relationship.exists_fault_iff.mp ⟨e, hfault⟩ with hends | ⟨key, value, hvalue⟩
    · exact Or.inl ⟨type, r, hr, hends⟩
    · exact Or.inr ⟨type, r, key, value, hr, hvalue⟩
  · rintro (⟨type, r, hr, hends⟩ | ⟨type, r, key, value, hr, hvalue⟩)
    · obtain ⟨e, hfault⟩ := Relationship.exists_fault_iff.mpr (Or.inl hends)
      exact ⟨type, r, e, hr, hfault⟩
    · obtain ⟨e, hfault⟩ := Relationship.exists_fault_iff.mpr (Or.inr ⟨key, value, hvalue⟩)
      exact ⟨type, r, e, hr, hfault⟩

/-- Nodes that repeat an external id are not built, whatever the relationships are. -/
theorem build_repeated (hrepeated : ¬ b.ids.Nodup) (identity : Nat) :
    ∃ id, b.build identity = .error (.repeatedNode id) ∧
      1 < b.ids.count id ∧ ∀ other, 1 < b.ids.count other → id ≤ other := by
  rw [← map_fst_entries] at hrepeated ⊢
  obtain ⟨id, hid, htwice, hleast⟩ := Numbering.build_repeated hrepeated identity
  refine ⟨id, ?_, htwice, hleast⟩
  show (Numbering.build identity b.entries >>= _) = _
  rw [hid]
  rfl

/-- The loaders that calls make of a new one, with refused calls among them. -/
def Reached (b : GraphLoader) : Prop := ∃ c new calls, create c = .ok new ∧ b = new.run calls

theorem Reached.consistent (h : b.Reached) : b.Consistent := by
  obtain ⟨c, new, calls, hnew, rfl⟩ := h
  exact (consistent_of_create hnew).run calls

theorem Reordered.consistent {b' : GraphLoader} (hb : b.Reordered b') (h : b.Consistent) :
    b'.Consistent where
  workers_pos := hb.workers ▸ h.workers_pos
  valid hp := h.valid (hb.projections ▸ hp)
  kinds hnode _ _ _ hvalue hkind := hb.kinds ▸ h.kinds (hb.nodes ▸ hnode) hvalue hkind

theorem Reordered.crowded_iff {b' : GraphLoader} (hb : b.Reordered b') {e : GraphError} :
    b'.Crowded e ↔ b.Crowded e := by
  have hids : b'.ids = b.ids := by rw [ids, ids, hb.nodes]
  simp only [Crowded, hb.projectionOf, hids]
  constructor
  · rintro ⟨type, rs', hentry, hcrowded⟩
    obtain ⟨rs, hentry, hperm⟩ := hb.exists_entry hentry
    exact ⟨type, rs, hentry, hcrowded.of_perm hperm.symm fun _ => id⟩
  · rintro ⟨type, rs, hentry, hcrowded⟩
    obtain ⟨rs', hentry, hperm⟩ := hb.exists_entry' hentry
    exact ⟨type, rs', hentry, hcrowded.of_perm hperm fun _ => id⟩

/-- A build of what calls have loaded, in whatever order the relationships are looked at, fails if
and only if an external id is repeated, a relationship has an end that no node has, it has under
a key of its type's projection a value that is no number, or the relationships of a type crowd a
node, which they do not if there are fewer of them than a degree can count.  A repeated id is
reported first, and the least of them.  Otherwise the error is the fault of a relationship, or
tells the degree of a crowded node. -/
theorem build_fails_iff (h : b.Reached) (hkeys : b.KeysValued) {b' : GraphLoader}
    (hb : b.Reordered b') (identity : Nat) :
    ((∃ e, b'.build identity = .error e) ↔
      ¬ b.ids.Nodup ∨
      (∃ type r, b.Buffers type r ∧ (r.source ∉ b.ids ∨ r.target ∉ b.ids)) ∨
      (∃ type r key value, b.Buffers type r ∧ key ∈ (b.projectionOf type).keys ∧
        r.properties.get? key = some value ∧ value.NotNumeric) ∨
      ∃ e, b.Crowded e) ∧
    (¬ b.ids.Nodup → ∃ id, b'.build identity = .error (.repeatedNode id) ∧
      1 < b.ids.count id ∧ ∀ other, 1 < b.ids.count other → id ≤ other) ∧
    (b.ids.Nodup → ∀ {e}, b'.build identity = .error e →
      (∃ type r, b.Buffers type r ∧ r.Fault b.ids (b.projectionOf type) e) ∨ b.Crowded e) ∧
    ((∀ entry ∈ b.relationships, entry.2.size < UInt32.size) → ∀ e, ¬ b.Crowded e) ∧
    ∀ {e}, b'.build identity = .error e → (∀ fault, e ≠ .badConfiguration fault) ∧
      (∀ aggregation, e ≠ .unmergeable aggregation) ∧ ∀ what, e ≠ .missing what := by
  have hconsistent := hb.consistent h.consistent
  have hkeys' : b'.KeysValued := by
    rw [KeysValued, hb.nodes]
    exact hkeys
  have hids : b'.ids = b.ids := by rw [ids, ids, hb.nodes]
  have hfaults : (∃ type r e, b'.Buffers type r ∧ r.Fault b'.ids (b'.projectionOf type) e) ↔
      ∃ type r e, b.Buffers type r ∧ r.Fault b.ids (b.projectionOf type) e := by
    simp only [hb.buffers_iff, hb.projectionOf, hids]
  have hfault : b.ids.Nodup → ∀ {e}, b'.build identity = .error e →
      (∃ type r, b.Buffers type r ∧ r.Fault b.ids (b.projectionOf type) e) ∨ b.Crowded e := by
    intro hnodup e he
    have hnodup' : (b'.entries.map (·.1)).Nodup := by rwa [map_fst_entries, hids]
    obtain ⟨m, hm⟩ := Numbering.exists_build_eq_ok hnodup' identity
    rcases hconsistent.exists_fault hkeys' hm he with ⟨type, r, hr, hfault⟩ | hcrowded
    · exact Or.inl ⟨type, r, hb.buffers_iff.mp hr, by rwa [hids, hb.projectionOf] at hfault⟩
    · exact Or.inr (hb.crowded_iff.mp hcrowded)
  have hrepeated : ¬ b.ids.Nodup → ∃ id, b'.build identity = .error (.repeatedNode id) ∧
      1 < b.ids.count id ∧ ∀ other, 1 < b.ids.count other → id ≤ other := by
    rw [← hids]
    exact fun h => build_repeated h identity
  refine ⟨?_, hrepeated, hfault, not_crowded_of_size_lt, fun {e} he => ?_⟩
  · by_cases hnodup : b.ids.Nodup
    · rw [hconsistent.exists_build_eq_error_iff hkeys' (hids ▸ hnodup), hfaults,
        exists_buffered_fault_iff, or_iff_right (not_not.mpr hnodup), or_assoc]
      simp only [hb.crowded_iff]
    · obtain ⟨id, hid, -⟩ := hrepeated hnodup
      exact iff_of_true ⟨_, hid⟩ (Or.inl hnodup)
  · by_cases hnodup : b.ids.Nodup
    · rcases hfault hnodup he with ⟨type, r, -, hfault⟩ | hcrowded
      · cases hfault <;> exact ⟨nofun, nofun, nofun⟩
      · obtain ⟨degree, rfl⟩ := hcrowded.exists_degree
        exact ⟨nofun, nofun, nofun⟩
    · obtain ⟨id, hid, -⟩ := hrepeated hnodup
      cases hid.symm.trans he
      exact ⟨nofun, nofun, nofun⟩

/-- A relationship with a list. -/
def listed : Relationship := ⟨7, 3, "T", .ofList [("w", .intList [1])]⟩

/-- Two nodes, and between them a relationship with a list under a key that is stored. -/
def listedCalls : List LoadCall :=
  [.node ⟨7, [], .empty⟩, .relationship listed, .project "T" { properties := [{ key := "w" }] },
    .node ⟨3, [], .empty⟩]

theorem build_fails_listed : ∃ e, (run { workers := 1 } listedCalls).build 0 = .error e := by
  have hreached : (run { workers := 1 } listedCalls).Reached := ⟨⟨1⟩, _, _, rfl, rfl⟩
  have hkeys : (run { workers := 1 } listedCalls).KeysValued := keysValued_of_bare (by decide)
  have hbuffers : (run { workers := 1 } listedCalls).Buffers "T" listed :=
    ⟨#[listed], by decide, by simp⟩
  obtain ⟨hfails, -⟩ := build_fails_iff hreached hkeys (.refl _) 0
  exact hfails.mpr (Or.inr (Or.inr (Or.inl ⟨"T", listed, "w", .intList [1], hbuffers, by decide,
    by decide, nofun, nofun, nofun⟩)))

end GraphLoader

end PagedGraph
