import PagedGraph.Proofs.View.Neighbors
import PagedGraph.Proofs.View.Transpose

/-!
# The views of a graph

`PropertyGraph.Offers g v` says that `v` is a view of `g`: one side of a type, with a property or
without, a union of types in some direction, a union put together of such sides, or a filter by
labels over such a view, or over a filter.  All are sides of the graph in the end, one or some that
are read as one, behind filters.  So what holds of every view of a graph is proved for a single
side, for a union of sides and for one more filter (`PropertyGraph.Offers.induct`).

The views of a built graph are sound (`GraphLoader.sound_of_offers`).
-/

namespace PagedGraph

/-! ## Sides of loaded tables -/

namespace SingleGraph

/-- A graph that reads one side of loaded tables, with one of its properties or with none. -/
def ReadsTables (sg : SingleGraph) : Prop :=
  ∃ (t : TypeTables) (values : List (String × ValueTable)), t.Loaded sg.numbering ∧
    ((sg.adjacency = t.outgoing ∧ values = t.outgoingValues) ∨
      (t.incoming = some sg.adjacency ∧ values = t.incomingValues)) ∧
    ∀ {table}, sg.values = some table → ∃ key, values.lookup key = some table

variable {sg : SingleGraph}

theorem ReadsTables.loaded (h : sg.ReadsTables) : sg.Loaded := by
  obtain ⟨t, values, ht, hside, -⟩ := h
  exact ⟨t, ht, hside.imp And.left And.left⟩

/-- A side holds relationships that a valid projection stores as some pairs, which are their own
transpose if the side is undirected. -/
theorem ReadsTables.exists_sideHolds (h : sg.ReadsTables) :
    ∃ (p : Projection) (pairs : Nat → Nat → List (Nat × Nat)) (arrivals : List Arrival)
      (stored : Nat → List Row) (values : List (String × ValueTable)),
      p.validate = .ok () ∧
      (sg.adjacency.isUndirected = true → TransposedPairs pairs pairs) ∧
      SideHolds p sg.numbering.nodeCount (Arrival.rows pairs arrivals) stored sg.adjacency values ∧
      ∀ {table}, sg.values = some table → ∃ key, values.lookup key = some table := by
  obtain ⟨t, values, ht, hside, hvalues⟩ := h
  obtain ⟨p, arrivals, hvalid, -, hholds⟩ := ht.exists_holds
  rcases hside with ⟨hside, rfl⟩ | ⟨hside, rfl⟩
  · obtain ⟨stored, hstored⟩ := hholds.outgoing
    refine ⟨p, p.pairs, arrivals, stored, _, hvalid, fun hundirected => ?_, hside ▸ hstored,
      hvalues⟩
    rw [hside, hholds.isUndirected] at hundirected
    exact Projection.transposedPairs_undirected (of_decide_eq_true hundirected)
  · obtain ⟨hdirected, stored, hstored⟩ := hholds.incoming hside
    refine ⟨p, p.inversePairs, arrivals, stored, _, hvalid, fun hundirected => ?_, hstored,
      hvalues⟩
    rw [hdirected] at hundirected
    cases hundirected

/-- A property has a value for every target of a node. -/
theorem ReadsTables.length_openValues (h : sg.ReadsTables) {node : Nat}
    (hnode : node < sg.numbering.nodeCount) {values : ValueCursor}
    (hopen : sg.openValues? node = some values) :
    values.toList.length = (sg.adjacency.targets node).length := by
  obtain ⟨p, pairs, arrivals, stored, tables, -, -, hstored, hvalues⟩ := h.exists_sideHolds
  obtain ⟨table, htable, rfl⟩ := Option.map_eq_some_iff.mp hopen
  obtain ⟨key, hkey⟩ := hvalues htable
  obtain ⟨column, -, hcolumn⟩ := hstored.values hkey
  have hlist := hcolumn hnode
  rw [List.length_map, ← List.length_map (f := Row.target), ← hstored.adjacency.degree hnode]
    at hlist
  rw [hlist, hstored.adjacency.targets_eq hnode, List.length_map, List.length_map]

/-- On an undirected side as many relationships lead from a node to another as back. -/
theorem ReadsTables.count_targets (h : sg.ReadsTables)
    (hundirected : sg.adjacency.isUndirected = true) {x y : Nat}
    (hx : x < sg.numbering.nodeCount) (hy : y < sg.numbering.nodeCount) :
    (sg.adjacency.targets x).count y = (sg.adjacency.targets y).count x := by
  obtain ⟨p, pairs, arrivals, stored, tables, hvalid, hpairs, hstored, -⟩ := h.exists_sideHolds
  exact hstored.count_targets_eq hvalid (hpairs hundirected) hstored hx hy

end SingleGraph

/-- The views of sides of loaded tables, of unions of such sides, and of both under filters. -/
inductive View.ReadsTables : View → Prop where
  | single {sg : SingleGraph} (h : sg.ReadsTables) : ReadsTables (.ofSingle sg)
  | union {first : SingleGraph} {others : List SingleGraph}
    (hmembers : ∀ member ∈ first :: others, member.ReadsTables)
    (hnumbering : ∀ member ∈ first :: others, member.numbering = first.numbering) :
    ReadsTables (.ofBase (.union first others))
  | under {v : View} {filter : NodeFilter} {identity workers : Nat} {labels : List String}
    (hv : ReadsTables v) (hfilter : v.numbering.filter identity labels = .ok filter) :
    ReadsTables (v.under ⟨filter, v.countThrough filter workers⟩)

theorem View.ReadsTables.sound {v : View} (h : v.ReadsTables) : v.Sound := by
  induction h with
  | single h => exact sound_ofSingle h.loaded.sound
  | union hmembers hnumbering =>
    exact sound_ofBase (BaseGraph.stores_union
      (fun member hmember => (hmembers member hmember).loaded.sound) hnumbering)
  | under _ hfilter ih => exact ih.under (selects_of_filter hfilter) _

/-- The members of a view are sound sides of one numbering. -/
theorem View.ReadsTables.members {v : View} (h : v.ReadsTables) :
    ∀ member ∈ v.base.members, member.Sound ∧ member.numbering = v.base.numbering := by
  induction h with
  | single h => exact List.forall_mem_singleton.mpr ⟨h.loaded.sound, rfl⟩
  | union hmembers hnumbering =>
    exact fun member hmember => ⟨(hmembers member hmember).loaded.sound, hnumbering member hmember⟩
  | under _ _ ih => exact ih

/-- A side of a type that was loaded reads the tables of the type. -/
theorem PropertyGraph.Holds.readsTables_single {g : PropertyGraph} {m : Numbering} {type : String}
    {tables : TypeTables} (h : g.Holds m type tables) (hloaded : tables.Loaded m)
    {direction : Direction} {key : Option String} {sg : SingleGraph}
    (hsg : g.single type direction key = .ok sg) : sg.ReadsTables := by
  obtain ⟨adjacency, values, inverse, hside, hreads⟩ := reads_of_single_eq_ok h.live h.tables hsg
  refine ⟨tables, values, (hreads.numbering.trans h.numbering) ▸ hloaded, ?_, fun htable => ?_⟩
  · rw [hreads.adjacency]
    exact of_side_eq_ok hside
  · obtain ⟨key, -, hkey⟩ := Option.bind_eq_some_iff.mp (hreads.values.symm.trans htable)
    exact ⟨key, hkey⟩

/-! ## Parts of a request -/

/-- A union has the members it is made of. -/
theorem BaseGraph.of_unite_eq_ok {members : List SingleGraph} {base : BaseGraph}
    (h : unite members = .ok base) :
    ∃ first others, members = first :: others ∧ base = .union first others := by
  cases members with
  | nil => cases h
  | cons first others =>
    rw [unite] at h
    split at h
    · cases h
      exact ⟨first, others, rfl, rfl⟩
    · cases h

/-- Graphs of one numbering are a union. -/
theorem BaseGraph.unite_eq_ok {first : SingleGraph} {others : List SingleGraph}
    (h : ∀ member ∈ first :: others, member.numbering = first.numbering) :
    unite (first :: others) = .ok (.union first others) := by
  refine if_pos (List.all_eq_true.mpr fun member hmember => decide_eq_true ?_)
  rw [h member (List.mem_cons_of_mem first hmember)]

/-- A filter is known by the number that it was given. -/
theorem Numbering.identity_of_filter_eq_ok {m : Numbering} {identity : Nat} {labels : List String}
    {filter : NodeFilter} (h : m.filter identity labels = .ok filter) :
    filter.numbering.identity = identity := by
  rw [Numbering.filter] at h
  split at h
  · cases h
  · cases h
    rfl

namespace PropertyGraph

/-- A side of a type, with a property or without, that a graph gives on request. -/
def HasSide (g : PropertyGraph) (sg : SingleGraph) : Prop :=
  ∃ type direction key, g.single type direction key = .ok sg

/-- The views that requests to a graph give, and those that are put together of them.  A filter
numbers its nodes anew, and the new numbering is not taken for the graph's. -/
inductive Offers (g : PropertyGraph) : View → Prop where
  | single {type : String} {direction : Direction} {key : Option String} {sg : SingleGraph}
    (h : g.single type direction key = .ok sg) : Offers g (.ofSingle sg)
  | union {types : List String} {direction : Direction} {base : BaseGraph}
    (h : g.union types direction = .ok base) : Offers g (.ofBase base)
  | unite {members : List SingleGraph} {base : BaseGraph}
    (hmembers : ∀ member ∈ members, g.HasSide member) (h : BaseGraph.unite members = .ok base) :
    Offers g (.ofBase base)
  | withLabels {v v' : View} {identity workers : Nat} {labels : List String} (hv : Offers g v)
    (hnew : identity ≠ g.numbering.identity)
    (h : g.withLabels v identity labels workers = .ok v') : Offers g v'
  | filtered {v v' : View} {identity workers : Nat} {labels : List String} {filter : NodeFilter}
    (hv : Offers g v) (hnew : identity ≠ g.numbering.identity)
    (hfilter : v.numbering.filter identity labels = .ok filter)
    (h : v.filtered filter workers = .ok v') : Offers g v'

variable {g : PropertyGraph} {v : View}

/-! ## Requests -/

/-- A side has the numbering of its graph. -/
theorem HasSide.numbering {sg : SingleGraph} (h : g.HasSide sg) : sg.numbering = g.numbering := by
  obtain ⟨type, direction, key, h⟩ := h
  rw [single] at h
  obtain ⟨tables, -, h⟩ := bind_eq_ok h
  obtain ⟨⟨adjacency, values, inverse⟩, -, h⟩ := bind_eq_ok h
  cases key with
  | none =>
    cases h
    rfl
  | some key =>
    cases hvalues : values.lookup key with
    | none =>
      simp only [hvalues] at h
      cases h
    | some table =>
      simp only [hvalues] at h
      cases h
      rfl

/-- Both directions of a type are its outgoing side, and its incoming side too if it is directed. -/
theorem of_unionMembers_both {type : String} {members : List SingleGraph}
    (h : g.unionMembers .both type = .ok members) :
    ∃ out, g.single type .outgoing none = .ok out ∧
      ((out.adjacency.isUndirected = true ∧ members = [out]) ∨
        (out.adjacency.isUndirected = false ∧
          ∃ inc, g.single type .incoming none = .ok inc ∧ members = [out, inc])) := by
  rw [unionMembers] at h
  obtain ⟨out, hout, h⟩ := bind_eq_ok h
  refine ⟨out, hout, ?_⟩
  split at h
  · next hundirected =>
    cases h
    exact Or.inl ⟨hundirected, rfl⟩
  · next hdirected =>
    obtain ⟨inc, hinc, h⟩ := bind_eq_ok h
    cases h
    exact Or.inr ⟨by simpa using hdirected, inc, hinc, rfl⟩

/-- What a type adds to a union are sides of the graph. -/
theorem hasSide_of_mem_unionMembers {type : String} {direction : Direction}
    {members : List SingleGraph} (h : g.unionMembers direction type = .ok members) :
    ∀ member ∈ members, g.HasSide member := by
  have hone : ∀ {direction}, (do
      let member ← g.single type direction none
      pure [member]) = .ok members → ∀ member ∈ members, g.HasSide member := by
    intro direction h
    obtain ⟨member, hmember, h⟩ := bind_eq_ok h
    cases h
    exact List.forall_mem_singleton.mpr ⟨type, direction, none, hmember⟩
  cases direction with
  | outgoing => exact hone h
  | incoming => exact hone h
  | both =>
    obtain ⟨out, hout, ⟨-, rfl⟩ | ⟨-, inc, hinc, rfl⟩⟩ := of_unionMembers_both h
    · exact List.forall_mem_singleton.mpr ⟨type, .outgoing, none, hout⟩
    · exact List.forall_mem_cons.mpr ⟨⟨type, .outgoing, none, hout⟩,
        List.forall_mem_singleton.mpr ⟨type, .incoming, none, hinc⟩⟩

/-- A union of types unites what they add, one after another. -/
theorem union_eq_ok_iff {types : List String} {direction : Direction} {base : BaseGraph} :
    g.union types direction = .ok base ↔
      ∃ added, List.Forall₂ (fun type members => g.unionMembers direction type = .ok members)
        types added ∧ BaseGraph.unite added.flatten = .ok base := by
  rw [union]
  constructor
  · intro h
    obtain ⟨added, hadded, h⟩ := bind_eq_ok h
    exact ⟨added, mapM_eq_ok_iff.mp hadded, by rwa [List.flatMap_id] at h⟩
  · rintro ⟨added, hadded, h⟩
    rw [mapM_eq_ok_iff.mpr hadded, ← h, ← List.flatMap_id]
    rfl

/-- It is made of sides of the graph. -/
theorem exists_members_of_union {types : List String} {direction : Direction} {base : BaseGraph}
    (h : g.union types direction = .ok base) :
    ∃ first others added,
      List.Forall₂ (fun type members => g.unionMembers direction type = .ok members) types added ∧
      added.flatten = first :: others ∧ base = .union first others ∧
      ∀ member ∈ first :: others, g.HasSide member := by
  obtain ⟨added, hadded, h⟩ := union_eq_ok_iff.mp h
  obtain ⟨first, others, hmembers, rfl⟩ := BaseGraph.of_unite_eq_ok h
  refine ⟨first, others, added, hadded, hmembers, rfl, fun member hmember => ?_⟩
  obtain ⟨members, hmem, hmember⟩ := List.mem_flatten.mp (hmembers ▸ hmember)
  obtain ⟨type, -, htype⟩ := exists_of_mem_right hadded hmem
  exact hasSide_of_mem_unionMembers htype member hmember

/-- A filter by labels is put over a view of the graph's own nodes. -/
theorem of_withLabels_eq_ok {v' : View} {identity workers : Nat} {labels : List String}
    (h : g.withLabels v identity labels workers = .ok v') :
    v.numbering.identity = g.numbering.identity ∧ ∃ filter,
      g.numbering.filter identity labels = .ok filter ∧ v.filtered filter workers = .ok v' := by
  rw [withLabels] at h
  obtain ⟨_, -, h⟩ := bind_eq_ok h
  split at h
  · cases h
  · next hsame =>
    obtain ⟨filter, hfilter, h⟩ := bind_eq_ok h
    exact ⟨not_not.mp hsame, filter, hfilter, h⟩

/-! ## Induction -/

/-- A view with the graph's numbering by name has it. -/
theorem Offers.numbering_eq (h : g.Offers v)
    (hidentity : v.numbering.identity = g.numbering.identity) : v.numbering = g.numbering := by
  have hfiltered : ∀ {v v' : View} {m : Numbering} {identity workers : Nat} {labels : List String}
      {filter : NodeFilter}, identity ≠ g.numbering.identity →
      m.filter identity labels = .ok filter → v.filtered filter workers = .ok v' →
      v'.numbering.identity ≠ g.numbering.identity := by
    intro v v' m identity workers labels filter hnew hfilter hview
    rw [View.of_filtered_eq_ok hview]
    exact (Numbering.identity_of_filter_eq_ok hfilter).trans_ne hnew
  cases h with
  | single h => exact HasSide.numbering ⟨_, _, _, h⟩
  | union h =>
    obtain ⟨first, others, -, -, -, rfl, hmembers⟩ := exists_members_of_union h
    exact (hmembers first List.mem_cons_self).numbering
  | unite hmembers h =>
    obtain ⟨first, others, rfl, rfl⟩ := BaseGraph.of_unite_eq_ok h
    exact (hmembers first List.mem_cons_self).numbering
  | withLabels _ hnew h =>
    obtain ⟨-, filter, hfilter, h⟩ := of_withLabels_eq_ok h
    exact absurd hidentity (hfiltered hnew hfilter h)
  | filtered _ hnew hfilter h => exact absurd hidentity (hfiltered hnew hfilter h)

/-- What holds of a side, of a union of sides and under one more filter holds of every view. -/
theorem Offers.induct {P : View → Prop} (h : g.Offers v)
    (single : ∀ {sg}, g.HasSide sg → P (.ofSingle sg))
    (union : ∀ {first others}, (∀ member ∈ first :: others, g.HasSide member) →
      P (.ofBase (.union first others)))
    (under : ∀ {v filter identity labels workers}, g.Offers v → P v →
      v.numbering.filter identity labels = .ok filter →
      P (v.under ⟨filter, v.countThrough filter workers⟩)) : P v := by
  induction h with
  | single h => exact single ⟨_, _, _, h⟩
  | union h =>
    obtain ⟨first, others, -, -, -, rfl, hmembers⟩ := exists_members_of_union h
    exact union hmembers
  | unite hmembers h =>
    obtain ⟨first, others, rfl, rfl⟩ := BaseGraph.of_unite_eq_ok h
    exact union hmembers
  | withLabels hv _ h ih =>
    obtain ⟨hidentity, filter, hfilter, h⟩ := of_withLabels_eq_ok h
    rw [View.of_filtered_eq_ok h]
    exact under hv ih (hv.numbering_eq hidentity ▸ hfilter)
  | filtered hv _ hfilter h ih =>
    rw [View.of_filtered_eq_ok h]
    exact under hv ih hfilter

end PropertyGraph

namespace GraphLoader

variable {b : GraphLoader} {identity : Nat} {g : PropertyGraph}

theorem readsTables_of_hasSide (h : b.build identity = .ok g) {sg : SingleGraph}
    (hsg : g.HasSide sg) : sg.ReadsTables := by
  obtain ⟨type, direction, key, hsg⟩ := hsg
  have htype : type ∈ g.typeNames := by
    rw [PropertyGraph.typeNames, mem_sortedNames]
    exact PropertyGraph.mem_names_of_single hsg
  obtain ⟨-, tables, -, hg, hloaded, -⟩ := exists_holds_of_build h htype
  exact hg.readsTables_single hloaded hsg

/-- A type that is stored both ways has both sides, with no property or with any of the type's. -/
theorem exists_single_of_build (h : b.build identity = .ok g) {type : String}
    (htype : type ∈ g.typeNames)
    (hboth : (b.projectionOf type).orientation = .undirected ∨
      (b.projectionOf type).withInverse = true)
    {direction : Direction} (hdirection : direction ≠ .both) {key : Option String}
    (hkey : ∀ k ∈ key, k ∈ (b.projectionOf type).keys) :
    ∃ sg, g.single type direction key = .ok sg := by
  obtain ⟨-, tables, arrivals, hg, -, hholds⟩ := exists_holds_of_build h htype
  cases direction with
  | outgoing =>
    obtain ⟨stored, hside⟩ := hholds.outgoing
    exact (PropertyGraph.exists_single_iff hg.live hg.tables rfl).mpr (hside.keys ▸ hkey)
  | incoming =>
    obtain ⟨_, _, _, _, _, hrequest, -, hside⟩ := hholds.exists_incoming hboth type
    exact (PropertyGraph.exists_single_iff hg.live hg.tables hrequest).mpr (hside.keys ▸ hkey)
  | both => exact absurd rfl hdirection

/-- The views of a built graph are made of its tables. -/
theorem readsTables_of_offers (h : b.build identity = .ok g) {v : View}
    (hv : g.Offers v) : v.ReadsTables :=
  hv.induct (fun hsg => .single (readsTables_of_hasSide h hsg))
    (fun hmembers => .union
      (fun member hmember => readsTables_of_hasSide h (hmembers member hmember))
      fun member hmember => (hmembers member hmember).numbering.trans
        (hmembers _ List.mem_cons_self).numbering.symm)
    fun _ hv hfilter => .under hv hfilter

/-- The graph of the parallel relationships, and both sides of its type. -/
theorem exists_build_parallelCalls : ∃ g, (run { workers := 1 } parallelCalls).build 0 = .ok g ∧
    ∀ direction ≠ .both, ∀ key : Option String, (∀ k ∈ key, k = "w") →
      ∃ sg, g.single "T" direction key = .ok sg := by
  have hreached : (run { workers := 1 } parallelCalls).Reached := ⟨⟨1⟩, _, _, rfl, rfl⟩
  obtain ⟨g, hg⟩ :=
    hreached.consistent.exists_build_of_bare (by decide) (by decide) (by decide) (by decide) 0
  have htype : "T" ∈ g.typeNames := by
    rw [PropertyGraph.typeNames, mem_sortedNames, names_types_of_build hg]
    decide
  have hkeys : ((run { workers := 1 } parallelCalls).projectionOf "T").keys = ["w"] := by decide
  refine ⟨g, hg, fun direction hdirection key hkey => ?_⟩
  refine exists_single_of_build hg htype (Or.inr (by decide)) hdirection fun k hk => ?_
  rw [hkeys, hkey k hk]
  exact List.mem_cons_self

end GraphLoader

end PagedGraph
