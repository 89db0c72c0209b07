import Mathlib.Data.List.Nodup
import PagedGraph.Proofs.View.Offered

/-!
# Tables by name

A graph owns its tables under names, and a view refers to those that it reads by the same names
(`PropertyGraph.sharedTables`, `View.shares`).  A view of a graph refers to tables of the graph only
(`PropertyGraph.Offers.mem_sharedTables`).

The names of a graph's tables are all different if no type is there twice and no type has a key
twice (`PropertyGraph.WellNamed`), which is so of every graph that calls have loaded
(`GraphLoader.wellNamed_of_build`).  Then a name finds its table, and a view can be put together
again from the names it keeps, out of any memory that has their tables (`View.readFrom?`).
-/

namespace PagedGraph

/-- What graphs and views share. -/
inductive SharedTable where
  | targets (adjacency : Adjacency)
  | values (table : ValueTable)
deriving DecidableEq

/-- Bytes of a table. -/
def SharedTable.byteSize : SharedTable → Nat
  | targets adjacency => adjacency.byteSize
  | values table => table.byteSize

/-- A name finds its table among names that are all different. -/
theorem lookup_of_mem {α β : Type} [DecidableEq α] {entries : List (α × β)}
    (hnodup : (entries.map Prod.fst).Nodup) {entry : α × β} (h : entry ∈ entries) :
    entries.lookup entry.1 = some entry.2 := by
  induction entries with
  | nil => cases h
  | cons first rest ih =>
    obtain ⟨hnew, hrest⟩ := List.nodup_cons.mp hnodup
    rcases List.mem_cons.mp h with rfl | h
    · exact List.lookup_cons_self
    · have hne : (entry.1 == first.1) = false := by
        rw [beq_eq_false_iff_ne]
        rintro heq
        exact hnew (heq ▸ List.mem_map_of_mem h)
      rw [List.lookup_cons, hne]
      exact ih hrest h

namespace PropertyGraph

variable (g : PropertyGraph)

/-- The tables of a type by name. -/
def typeTables (type : String) (t : TypeTables) : List (TableName × SharedTable) :=
  (g.tableName type false none, .targets t.outgoing)
    :: (t.incoming.toList.map fun adjacency => (g.tableName type true none, .targets adjacency))
    ++ (t.outgoingValues.map fun (key, table) => (g.tableName type false key, .values table))
    ++ (t.incomingValues.map fun (key, table) => (g.tableName type true key, .values table))

/-- All tables of a graph by name. -/
def sharedTables : List (TableName × SharedTable) := g.types.flatMap fun t => g.typeTables t.1 t.2

variable {g}

/-- These are the tables of which a graph knows the sizes. -/
theorem tableSizes_eq : g.tableSizes = g.sharedTables.map fun t => (t.1, t.2.byteSize) := by
  rw [tableSizes, sharedTables, List.map_flatMap]
  refine List.flatMap_congr fun t _ => ?_
  simp [typeTableSizes, typeTables, Function.comp_def, SharedTable.byteSize]

/-- No type is there twice, and no key of a type on one side. -/
structure WellNamed (g : PropertyGraph) : Prop where
  types : (names g.types).Nodup
  keys : ∀ {type t}, (type, t) ∈ g.types →
    (names t.outgoingValues).Nodup ∧ (names t.incomingValues).Nodup

/-- The tables of a type bear its name. -/
theorem type_of_mem_typeTables {type : String} {t : TypeTables} {entry : TableName × SharedTable}
    (h : entry ∈ g.typeTables type t) : entry.1.type = type := by
  simp only [typeTables, List.cons_append, List.mem_cons, List.mem_append, List.mem_map] at h
  rcases h with rfl | (⟨_, -, rfl⟩ | ⟨_, -, rfl⟩) | ⟨_, -, rfl⟩ <;> rfl

theorem nodup_typeTables {type : String} {t : TypeTables} (hout : (names t.outgoingValues).Nodup)
    (hin : (names t.incomingValues).Nodup) : ((g.typeTables type t).map Prod.fst).Nodup := by
  have hkeys : ∀ {inverse : Bool} {tables : List (String × ValueTable)}, (names tables).Nodup →
      (tables.map fun entry => g.tableName type inverse entry.1).Nodup := by
    intro inverse tables h
    have hmap := h.map (f := fun key => g.tableName type inverse (some key)) fun a b hab => by
      simpa [tableName] using hab
    rwa [names, List.map_map] at hmap
  have hincoming : (t.incoming.toList.map fun _ => g.tableName type true none).Nodup := by
    cases t.incoming <;> simp
  simp only [typeTables, List.map_append, List.map_cons, List.map_map, Function.comp_def,
    List.cons_append, List.nodup_cons, List.nodup_append]
  simp only [List.mem_append, List.mem_map]
  refine ⟨?_, ⟨hincoming, hkeys hout, ?_⟩, hkeys hin, ?_⟩
  · simp [tableName]
  · rintro a ⟨_, -, rfl⟩ b ⟨_, -, rfl⟩
    simp [tableName]
  · rintro a (⟨_, -, rfl⟩ | ⟨_, -, rfl⟩) b ⟨_, -, rfl⟩ <;> simp [tableName]

/-- The names of all tables are different from each other. -/
theorem WellNamed.nodup (h : g.WellNamed) : (g.sharedTables.map Prod.fst).Nodup := by
  rw [sharedTables, List.map_flatMap, List.nodup_flatMap]
  refine ⟨fun t ht => nodup_typeTables (h.keys ht).1 (h.keys ht).2, ?_⟩
  refine (List.pairwise_map.mp h.types).imp fun {t u} hne name ht hu => hne ?_
  obtain ⟨entry, hentry, rfl⟩ := List.mem_map.mp ht
  obtain ⟨entry', hentry', heq⟩ := List.mem_map.mp hu
  rw [← type_of_mem_typeTables hentry, ← type_of_mem_typeTables hentry', heq]

end PropertyGraph

/-! ## References -/

/-- The tables that a side refers to, with their names. -/
def SingleGraph.shares (sg : SingleGraph) : List (TableName × SharedTable) :=
  sg.tables.zip (.targets sg.adjacency :: sg.values.toList.map .values)

/-- The tables that a view refers to, one by one for its members. -/
def View.shares (v : View) : List (TableName × SharedTable) :=
  v.base.members.flatMap SingleGraph.shares

/-- Put a side together again from its names, out of a memory. -/
def SingleGraph.readFrom? (memory : List (TableName × SharedTable)) (sg : SingleGraph) :
    Option SingleGraph :=
  match sg.tables with
  | [name] =>
    match memory.lookup name with
    | some (.targets adjacency) => some { sg with adjacency, values := none }
    | _ => none
  | [name, property] =>
    match memory.lookup name, memory.lookup property with
    | some (.targets adjacency), some (.values table) =>
      some { sg with adjacency, values := some table }
    | _, _ => none
  | _ => none

/-- Put a view together again. -/
def View.readFrom? (memory : List (TableName × SharedTable)) (v : View) : Option View :=
  match v.base with
  | .single g => (g.readFrom? memory).map fun g => ⟨.single g, v.layers⟩
  | .union g gs => do
    let g ← g.readFrom? memory
    let gs ← gs.mapM (SingleGraph.readFrom? memory)
    pure ⟨.union g gs, v.layers⟩

/-- Steps that change nothing change nothing in a list. -/
theorem mapM_eq_some_self {α : Type} {f : α → Option α} {xs : List α}
    (h : ∀ x ∈ xs, f x = some x) : xs.mapM f = some xs := by
  induction xs with
  | nil => rfl
  | cons x xs ih =>
    obtain ⟨hx, hxs⟩ := List.forall_mem_cons.mp h
    rw [List.mapM_cons, hx, ih hxs]
    rfl

namespace PropertyGraph

variable {g : PropertyGraph} {sg : SingleGraph} {v : View}

/-- The tables of one side of a type are tables of the graph. -/
theorem mem_sharedTables_of_side {type : String} {t : TypeTables} {direction : Direction}
    {adjacency : Adjacency} {values : List (String × ValueTable)} {inverse : Bool}
    (ht : (type, t) ∈ g.types) (h : side type t direction = .ok (adjacency, values, inverse)) :
    (g.tableName type inverse none, SharedTable.targets adjacency) ∈ g.sharedTables ∧
    ∀ {key table}, (key, table) ∈ values →
      (g.tableName type inverse (some key), SharedTable.values table) ∈ g.sharedTables := by
  have hmem : ∀ {entry}, entry ∈ g.typeTables type t → entry ∈ g.sharedTables := fun hentry =>
    List.mem_flatMap.mpr ⟨_, ht, hentry⟩
  have houtgoing : ∀ {key table}, (key, table) ∈ t.outgoingValues →
      (g.tableName type false (some key), SharedTable.values table) ∈ g.sharedTables := by
    intro key table hkey
    refine hmem (List.mem_append_left _ (List.mem_append_right _ ?_))
    exact List.mem_map_of_mem (f := fun (key, table) =>
      (g.tableName type false (some key), SharedTable.values table)) hkey
  cases direction with
  | outgoing =>
    cases h
    exact ⟨hmem List.mem_cons_self, houtgoing⟩
  | incoming =>
    rw [side] at h
    split at h
    · cases h
      exact ⟨hmem List.mem_cons_self, houtgoing⟩
    · cases hincoming : t.incoming with
      | none =>
        rw [hincoming] at h
        cases h
      | some incoming =>
        rw [hincoming] at h
        cases h
        refine ⟨hmem ?_, fun {key table} hkey => hmem (List.mem_append_right _ ?_)⟩
        · simp [typeTables, hincoming]
        · exact List.mem_map_of_mem (f := fun (key, table) =>
            (g.tableName type true (some key), SharedTable.values table)) hkey
  | both => cases h

/-- A side refers to a table of targets of the graph, and with a property to its values too. -/
theorem HasSide.exists_names (h : g.HasSide sg) : ∃ name adjacency,
    (name, SharedTable.targets adjacency) ∈ g.sharedTables ∧
    (sg = ⟨g.numbering, adjacency, none, [name]⟩ ∨
      ∃ property table, (property, SharedTable.values table) ∈ g.sharedTables ∧
        sg = ⟨g.numbering, adjacency, some table, [name, property]⟩) := by
  obtain ⟨type, direction, key, h⟩ := h
  rw [single] at h
  obtain ⟨t, ht, h⟩ := bind_eq_ok h
  obtain ⟨⟨adjacency, values, inverse⟩, hside, h⟩ := bind_eq_ok h
  rw [tablesOf] at ht
  obtain ⟨_, -, ht⟩ := bind_eq_ok ht
  cases htype : g.types.lookup type with
  | none =>
    rw [htype] at ht
    cases ht
  | some tables =>
    rw [htype] at ht
    cases ht
    obtain ⟨htargets, hvalues⟩ := mem_sharedTables_of_side (mem_of_lookup htype) hside
    refine ⟨_, adjacency, htargets, ?_⟩
    cases key with
    | none =>
      cases h
      exact Or.inl rfl
    | some key =>
      cases hkey : values.lookup key with
      | none =>
        simp only [hkey] at h
        cases h
      | some table =>
        simp only [hkey] at h
        cases h
        exact Or.inr ⟨_, table, hvalues (mem_of_lookup hkey), rfl⟩

/-- A side refers to tables of the graph, under their names. -/
theorem HasSide.mem_sharedTables (h : g.HasSide sg) :
    sg.shares.map Prod.fst = sg.tables ∧ ∀ t ∈ sg.shares, t ∈ g.sharedTables := by
  obtain ⟨name, adjacency, htargets, rfl | ⟨property, table, hvalues, rfl⟩⟩ := h.exists_names
  · exact ⟨rfl, List.forall_mem_singleton.mpr htargets⟩
  · exact ⟨rfl, List.forall_mem_cons.mpr ⟨htargets, List.forall_mem_singleton.mpr hvalues⟩⟩

/-- A memory that has its tables gives a side back. -/
theorem HasSide.readFrom?_eq (h : g.HasSide sg) {memory : List (TableName × SharedTable)}
    (hmemory : ∀ t ∈ sg.shares, memory.lookup t.1 = some t.2) : sg.readFrom? memory = some sg := by
  obtain ⟨name, adjacency, -, rfl | ⟨property, table, -, rfl⟩⟩ := h.exists_names
  · have hname : memory.lookup name = some (.targets adjacency) :=
      hmemory _ List.mem_cons_self
    simp only [SingleGraph.readFrom?, hname]
  · have hname : memory.lookup name = some (.targets adjacency) :=
      hmemory _ List.mem_cons_self
    have hproperty : memory.lookup property = some (.values table) :=
      hmemory _ (List.mem_cons_of_mem _ List.mem_cons_self)
    simp only [SingleGraph.readFrom?, hname, hproperty]

/-- The members of a view are sides of the graph. -/
theorem Offers.hasSide (h : g.Offers v) : ∀ member ∈ v.base.members, g.HasSide member :=
  h.induct (P := fun v => ∀ member ∈ v.base.members, g.HasSide member)
    (fun hsg => List.forall_mem_singleton.mpr hsg) (fun hmembers => hmembers) fun _ hv _ => hv

/-- A view refers to tables of the graph, under their names. -/
theorem Offers.mem_sharedTables (h : g.Offers v) :
    v.shares.map Prod.fst = v.tables ∧ ∀ t ∈ v.shares, t ∈ g.sharedTables := by
  constructor
  · rw [View.shares, View.tables, List.map_flatMap]
    exact List.flatMap_congr fun member hmember => (h.hasSide member hmember).mem_sharedTables.1
  · intro t ht
    obtain ⟨member, hmember, ht⟩ := List.mem_flatMap.mp ht
    exact (h.hasSide member hmember).mem_sharedTables.2 t ht

/-- A memory that has its tables gives a view back. -/
theorem Offers.readFrom?_eq (h : g.Offers v) {memory : List (TableName × SharedTable)}
    (hmemory : ∀ t ∈ v.shares, memory.lookup t.1 = some t.2) : v.readFrom? memory = some v := by
  have hmembers : ∀ member ∈ v.base.members, member.readFrom? memory = some member :=
    fun member hmember => (h.hasSide member hmember).readFrom?_eq fun t ht =>
      hmemory t (List.mem_flatMap.mpr ⟨member, hmember, ht⟩)
  obtain ⟨base, layers⟩ := v
  cases base with
  | single sg =>
    simp only [View.readFrom?, hmembers sg List.mem_cons_self, Option.map_some]
  | union first others =>
    obtain ⟨hfirst, hothers⟩ := List.forall_mem_cons.mp hmembers
    simp only [View.readFrom?, hfirst, mapM_eq_some_self hothers]
    rfl

end PropertyGraph

/-! ## Built graphs -/

namespace GraphLoader

variable {b : GraphLoader}

/-- No call makes a type be there twice. -/
theorem nodup_types_step (h : (names b.relationships).Nodup) (call : LoadCall) :
    (names (call.step b).1.relationships).Nodup := by
  have houtcome := call.outcome b
  generalize call.step b = after at houtcome
  cases houtcome with
  | projected => exact nodup_names_upsert h _ _
  | invalid => exact h
  | added => exact h
  | clashing => exact h
  | related => exact nodup_names_upsert h _ _

theorem nodup_types_run (h : (names b.relationships).Nodup) (calls : List LoadCall) :
    (names (b.run calls).relationships).Nodup := by
  induction calls generalizing b with
  | nil => exact h
  | cons call calls ih => exact ih (nodup_types_step h call)

/-- A loader that calls have made has no type twice. -/
theorem Reached.nodup_types (h : b.Reached) : (names b.relationships).Nodup := by
  obtain ⟨c, new, calls, hnew, rfl⟩ := h
  rw [create] at hnew
  obtain ⟨_, -, hnew⟩ := bind_eq_ok hnew
  cases hnew
  refine nodup_types_run ?_ calls
  exact List.nodup_nil

/-- The tables of a type have no key twice. -/
theorem nodup_keys_of_buildType {m : Numbering} {type : String} {rs : Array Relationship}
    {t : TypeTables} (h : b.buildType m type rs = .ok t) :
    (names t.outgoingValues).Nodup ∧ (names t.incomingValues).Nodup := by
  rw [buildType] at h
  obtain ⟨blank, hblank, h⟩ := bind_eq_ok h
  obtain ⟨filled, hfilled, h⟩ := bind_eq_ok h
  obtain ⟨-, hvalid, arrivals, -, rfl⟩ :=
    RelationshipLoader.of_addAllExternal_eq_ok hblank hfilled
  rw [RelationshipLoader.pushAll_blank, RelationshipLoader.build] at h
  obtain ⟨outgoing, -, h⟩ := bind_eq_ok h
  obtain ⟨incoming, -, h⟩ := bind_eq_ok h
  cases h
  have hkeys : ∀ shards,
      (names (RelationshipLoader.valueTables (b.projectionOf type) shards)).Nodup := by
    intro shards
    rw [(sideLays_ofRows (b.projectionOf type) false shards).keys]
    exact Projection.nodup_keys hvalid
  refine ⟨hkeys outgoing, ?_⟩
  cases incoming with
  | none => exact List.nodup_nil
  | some incoming => exact hkeys incoming

/-- The tables of a built graph have names of their own. -/
theorem wellNamed_of_build {b' : GraphLoader} (h : b.Reached) (hb : b.Reordered b') {identity : Nat}
    {g : PropertyGraph} (hg : b'.build identity = .ok g) : g.WellNamed := by
  have htypes : (names g.types).Nodup := by
    rw [names_types_of_build hg]
    exact hb.perm_names.nodup_iff.mp h.nodup_types
  refine ⟨htypes, fun {type t} ht => ?_⟩
  obtain ⟨-, -, hbuilt⟩ := of_build_eq_ok hg
  have hname : type ∈ names b'.relationships := by
    rw [← names_types_of_build hg]
    exact List.mem_map_of_mem ht
  obtain ⟨rs, hrs⟩ := mem_names_iff.mp hname
  obtain ⟨tables, hbuild, htables⟩ := hbuilt hrs
  rw [(lookup_eq_some_iff htypes).mpr ht] at htables
  cases htables
  exact nodup_keys_of_buildType hbuild

end GraphLoader

end PagedGraph
