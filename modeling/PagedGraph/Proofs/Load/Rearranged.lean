import PagedGraph.Proofs.Load.Accepted
import PagedGraph.Proofs.Load.Faults

/-!
# Nodes in another order

Calls that add nodes may come in any order, and before or behind the relationships of the nodes
(`Rearranged`).  The loader holds its nodes in another order then, and the graph that is built is
the same.

* `GraphLoader.Gathers` says what a loader holds after calls, whatever order the types and the
  relationships of a type are in.  All that follows is said of such loaders.
* A key that a node has and no kind is known of makes a build fail, so after a build that
  succeeds the columns are filled (`GraphLoader.Gathers.keysValued`).
* The calls in another order are accepted too, and what they give is built, with the same
  numbering and the same columns (`GraphLoader.Gathers.exists_build`).
-/

namespace PagedGraph

/-! ## Calls in another order -/

/-- The same calls, those that add nodes in another order and at other places. -/
structure Rearranged (calls calls' : List LoadCall) : Prop where
  nodes : (nodesOf calls).Perm (nodesOf calls')
  others : calls.filter (·.node?.isNone) = calls'.filter (·.node?.isNone)

namespace Rearranged

variable {calls calls' : List LoadCall}

/-- What no node is taken from is taken alike. -/
theorem filterMap_eq (h : Rearranged calls calls') {α : Type} {f : LoadCall → Option α}
    (hf : ∀ n, f (.node n) = none) : calls.filterMap f = calls'.filterMap f := by
  have hothers : ∀ calls : List LoadCall,
      calls.filterMap f = (calls.filter (·.node?.isNone)).filterMap f := by
    intro calls
    rw [List.filterMap_filter]
    refine congrArg (List.filterMap · calls) (funext fun call => ?_)
    cases call with
    | node n => exact hf n
    | project => rfl
    | relationship => rfl
  rw [hothers, h.others, ← hothers]

theorem relationshipsOf_eq (h : Rearranged calls calls') (type : String) :
    relationshipsOf calls type = relationshipsOf calls' type := h.filterMap_eq fun _ => rfl

theorem lastProjection?_eq (h : Rearranged calls calls') (type : String) :
    lastProjection? calls type = lastProjection? calls' type :=
  congrArg List.getLast? (h.filterMap_eq fun _ => rfl)

theorem mem_project_iff (h : Rearranged calls calls') {type : String} {p : Projection} :
    .project type p ∈ calls ↔ .project type p ∈ calls' := by
  have hothers : ∀ calls : List LoadCall,
      .project type p ∈ calls.filter (·.node?.isNone) ↔ .project type p ∈ calls := fun calls =>
    List.mem_filter.trans (and_iff_left rfl)
  rw [← hothers, h.others, hothers]

theorem mentionsType_eq (h : Rearranged calls calls') (type : String) :
    mentionsType calls type = mentionsType calls' type := by
  have hothers : ∀ calls : List LoadCall,
      mentionsType calls type = (calls.filter (·.node?.isNone)).any (LoadCall.mentions type) := by
    intro calls
    rw [mentionsType, List.any_filter]
    refine congrArg (List.any calls) (funext fun call => ?_)
    cases call <;> rfl
  rw [hothers, h.others, ← hothers]

theorem kindGiven_iff (h : Rearranged calls calls') {key : String} {kind : ValueKind} :
    KindGiven (nodesOf calls) key kind ↔ KindGiven (nodesOf calls') key kind :=
  exists_congr fun _ => and_congr_left fun _ => h.nodes.mem_iff

end Rearranged

namespace GraphLoader

theorem Acceptable.rearranged {calls calls' : List LoadCall} (h : Acceptable calls)
    (hcalls : Rearranged calls calls') : Acceptable calls' where
  valid hmem := h.valid (hcalls.mem_project_iff.mpr hmem)
  oneKind hgiven hgiven' :=
    h.oneKind (hcalls.kindGiven_iff.mpr hgiven) (hcalls.kindGiven_iff.mpr hgiven')

/-! ## What calls leave in a loader -/

/-- A loader holds what calls gave it, with the types and their relationships in some order. -/
structure Gathers (b : GraphLoader) (calls : List LoadCall) : Prop where
  consistent : b.Consistent
  nodes : b.nodes.toList = nodesOf calls
  kinds : ∀ {key kind}, b.kinds.lookup key = some kind ↔ KindGiven (nodesOf calls) key kind
  projectionOf : ∀ type, b.projectionOf type = (lastProjection? calls type).getD {}
  nodup : (names b.relationships).Nodup
  mem_names_iff : ∀ {type}, type ∈ names b.relationships ↔ mentionsType calls type = true
  relationships : ∀ {type rs}, b.relationships.lookup type = some rs →
    rs.toList.Perm (relationshipsOf calls type)

/-- Accepted calls are gathered, in whatever order relationships are looked at. -/
theorem gathers_of_accepts {c : LoadSettings} {new b : GraphLoader} (hnew : create c = .ok new)
    {calls : List LoadCall} (h : new.Accepts calls) (hb : (new.run calls).Reordered b) :
    b.Gathers calls := by
  have hloads := loads_run hnew h
  constructor
  case consistent => exact hb.consistent ((consistent_of_create hnew).run calls)
  case nodes => rw [hb.nodes, hloads.nodes]
  case kinds =>
    intro key kind
    rw [hb.kinds, hloads.kinds]
  case projectionOf =>
    intro type
    rw [hb.projectionOf, GraphLoader.projectionOf, hloads.projections]
  case nodup => exact hb.perm_names.nodup_iff.mp hloads.nodup
  case mem_names_iff =>
    intro type
    rw [← hb.perm_names.mem_iff, PagedGraph.mem_names_iff, hloads.relationships]
    cases mentionsType calls type <;> simp
  case relationships =>
    intro type rs' hrs'
    obtain ⟨rs, hrs, hperm⟩ := hb.exists_entry (mem_of_lookup hrs')
    rw [← lookup_eq_some_iff hloads.nodup, hloads.relationships] at hrs
    split at hrs
    · cases hrs
      exact hperm.symm
    · cases hrs

variable {b b' : GraphLoader} {calls calls' : List LoadCall}

namespace Gathers

/-- The relationships that wait are those the calls gave. -/
theorem buffers_iff (h : b.Gathers calls) {type : String} {r : Relationship} :
    b.Buffers type r ↔ r ∈ relationshipsOf calls type := by
  constructor
  · rintro ⟨rs, hentry, hr⟩
    have hperm := h.relationships ((lookup_eq_some_iff h.nodup).mpr hentry)
    exact hperm.mem_iff.mp (Array.mem_toList_iff.mpr hr)
  · intro hr
    have hmentions : mentionsType calls type = true := by
      by_contra hnot
      rw [relationshipsOf_eq_nil (Bool.not_eq_true _ ▸ hnot)] at hr
      cases hr
    obtain ⟨rs, hrs⟩ := PagedGraph.mem_names_iff.mp (h.mem_names_iff.mpr hmentions)
    exact ⟨rs, mem_of_lookup hrs, Array.mem_toList_iff.mp ((h.relationships hrs).mem_iff.mpr hr)⟩

/-- What is built has a value for every key of a node. -/
theorem keysValued (h : b.Gathers calls) {identity : Nat} {g : PropertyGraph}
    (hg : b.build identity = .ok g) : b.KeysValued := by
  rw [build] at hg
  obtain ⟨m, hm, hg⟩ := bind_eq_ok hg
  obtain ⟨columns, hcolumns, -⟩ := bind_eq_ok hg
  intro node hnode key hkey
  have hnodes : ∀ node ∈ b.nodes.toList, ∃ i, m.internalOf? node.id = some i := fun node hnode =>
    (mem_ids_iff hm).mp (List.mem_map_of_mem hnode)
  obtain ⟨kind, hkind⟩ := PagedGraph.mem_names_iff.mp
    (mem_names_kinds_of_buildColumns hnodes hcolumns (Array.mem_toList_iff.mpr hnode) hkey)
  obtain ⟨other, hother, value, hvalue, hsome⟩ := h.kinds.mp hkind
  rw [← h.nodes] at hother
  refine ⟨other, Array.mem_toList_iff.mp hother, value, hvalue, ?_⟩
  rintro rfl
  cases hsome

/-- In what is built all ends are nodes. -/
theorem ends_mem_ids (h : b.Gathers calls) {identity : Nat} {g : PropertyGraph}
    (hg : b.build identity = .ok g) {type : String} {r : Relationship}
    (hr : r ∈ relationshipsOf calls type) : r.source ∈ b.ids ∧ r.target ∈ b.ids := by
  obtain ⟨-, hm, -⟩ := of_build_eq_ok hg
  obtain ⟨hresolve, -⟩ := (h.consistent.exists_build_iff (h.keysValued hg) hm).mp ⟨g, hg⟩
  obtain ⟨a, ha⟩ := hresolve (h.buffers_iff.mpr hr)
  obtain ⟨hsource, htarget, -⟩ := Arrival.ofRelationship_eq_ok_iff.mp ha
  exact ⟨(mem_ids_iff hm).mpr ⟨_, hsource⟩, (mem_ids_iff hm).mpr ⟨_, htarget⟩⟩

end Gathers

/-! ## The same graph -/

/-- Nodes of which every key has a value are such nodes in any order. -/
theorem KeysValued.of_perm (h : b.KeysValued) (hnodes : b.nodes.toList.Perm b'.nodes.toList) :
    b'.KeysValued := by
  have hmem : ∀ {node}, node ∈ b'.nodes ↔ node ∈ b.nodes := by
    intro node
    rw [← Array.mem_toList_iff, ← Array.mem_toList_iff, hnodes.mem_iff]
  intro node hnode key hkey
  obtain ⟨other, hother, hvalue⟩ := h node (hmem.mp hnode) key hkey
  exact ⟨other, hmem.mpr hother, hvalue⟩

/-- The columns of what is built are filled with the values of the nodes. -/
theorem Consistent.filled_of_build (h : b.Consistent) (hkeys : b.KeysValued) {identity : Nat}
    {g : PropertyGraph} (hg : b.build identity = .ok g) :
    g.columns.Filled g.numbering b.kinds b.nodes.toList := by
  obtain ⟨-, hm, -⟩ := of_build_eq_ok hg
  obtain ⟨columns, hfilled, hbuild⟩ := h.exists_build_eq hkeys hm
  rw [hbuild] at hg
  cases htypes : b.buildTypes g.numbering with
  | error e =>
    rw [htypes] at hg
    cases hg
  | ok types =>
    rw [htypes] at hg
    rwa [← congrArg PropertyGraph.columns (Except.ok.inj hg)]

namespace Gathers

variable (h : b.Gathers calls) (h' : b'.Gathers calls') (hcalls : Rearranged calls calls')
  {identity identity' : Nat} {g g' : PropertyGraph}

include h h' hcalls

theorem perm_nodes : b.nodes.toList.Perm b'.nodes.toList := by
  rw [h.nodes, h'.nodes]
  exact hcalls.nodes

theorem perm_entries : b.entries.Perm b'.entries := (h.perm_nodes h' hcalls).map _

theorem projectionOf_eq (type : String) : b.projectionOf type = b'.projectionOf type := by
  rw [h.projectionOf, h'.projectionOf, hcalls.lastProjection?_eq]

/-- Of one type both hold the same relationships. -/
theorem perm_relationships {type : String} {rs rs' : Array Relationship}
    (hrs : b.relationships.lookup type = some rs) (hrs' : b'.relationships.lookup type = some rs') :
    rs.toList.Perm rs'.toList := by
  have hperm := h'.relationships hrs'
  rw [← hcalls.relationshipsOf_eq] at hperm
  exact (h.relationships hrs).trans hperm.symm

/-- A type of the one loader is a type of the other. -/
theorem exists_lookup {type : String} {rs' : Array Relationship}
    (hrs' : b'.relationships.lookup type = some rs') :
    ∃ rs, b.relationships.lookup type = some rs := by
  have htype := h'.mem_names_iff.mp (PagedGraph.mem_names_iff.mpr ⟨rs', hrs'⟩)
  rw [← hcalls.mentionsType_eq, ← h.mem_names_iff] at htype
  exact PagedGraph.mem_names_iff.mp htype

/-- A node that is crowded in one loader is crowded in the other. -/
theorem crowded_of_rearranged {e : GraphError} (he : b'.Crowded e) : b.Crowded e := by
  obtain ⟨type, rs', hentry, hcrowded⟩ := he
  have hrs' := (lookup_eq_some_iff h'.nodup).mpr hentry
  obtain ⟨rs, hrs⟩ := h.exists_lookup h' hcalls hrs'
  have hids : b'.ids ⊆ b.ids := ((h.perm_nodes h' hcalls).map Node.id).symm.subset
  rw [← h.projectionOf_eq h' hcalls] at hcrowded
  exact ⟨type, rs, mem_of_lookup hrs,
    hcrowded.of_perm (h.perm_relationships h' hcalls hrs hrs').symm hids⟩

/-- What is built of calls is built of them in another order, with the same numbering. -/
theorem exists_build (hg : b.build identity = .ok g) (identity' : Nat) :
    ∃ g', b'.build identity' = .ok g' ∧
      g'.numbering = { g.numbering with identity := identity' } := by
  have hkeys := h.keysValued hg
  obtain ⟨-, hm, -⟩ := of_build_eq_ok hg
  have hm' := Numbering.build_eq_of_perm hm (h.perm_entries h' hcalls) identity'
  obtain ⟨hresolve, hcrowded⟩ := (h.consistent.exists_build_iff hkeys hm).mp ⟨g, hg⟩
  obtain ⟨g', hg'⟩ := (h'.consistent.exists_build_iff
      (hkeys.of_perm (h.perm_nodes h' hcalls)) hm').mpr
    ⟨fun {type r} hr => by
      rw [h'.buffers_iff, ← hcalls.relationshipsOf_eq, ← h.buffers_iff] at hr
      rw [← h.projectionOf_eq h' hcalls]
      exact hresolve hr,
    fun e he => hcrowded e (h.crowded_of_rearranged h' hcalls he)⟩
  obtain ⟨-, hnumbering, -⟩ := of_build_eq_ok hg'
  exact ⟨g', hg', Except.ok.inj (hnumbering.symm.trans hm')⟩

theorem lookup_kinds_eq (key : String) : b.kinds.lookup key = b'.kinds.lookup key :=
  Option.ext fun kind => by rw [h.kinds, h'.kinds, hcalls.kindGiven_iff]

/-- Both graphs have the same types. -/
theorem typeNames_eq (hg : b.build identity = .ok g) (hg' : b'.build identity' = .ok g') :
    g.typeNames = g'.typeNames := by
  refine sortedNames_eq fun type => ?_
  rw [names_types_of_build hg, names_types_of_build hg', h.mem_names_iff, h'.mem_names_iff,
    hcalls.mentionsType_eq]

/-- Both graphs have the same columns. -/
theorem get?_columns_eq (hg : b.build identity = .ok g) (hg' : b'.build identity' = .ok g')
    (hnumbering : g'.numbering = { g.numbering with identity := identity' }) (key : String) :
    g.columns.get? key = g'.columns.get? key := by
  have hkeys := h.keysValued hg
  have hfilled := h.consistent.filled_of_build hkeys hg
  have hfilled' := h'.consistent.filled_of_build (h'.keysValued hg') hg'
  rw [hnumbering] at hfilled'
  obtain ⟨-, hm, -⟩ := of_build_eq_ok hg
  have hnodup : (b.nodes.toList.map (·.id)).Nodup := by
    have h := Numbering.nodup_of_build_eq_ok hm
    rwa [List.map_map] at h
  refine hfilled.hold.get?_eq (hfilled'.hold.congr fun i key => ?_)
    (h.lookup_kinds_eq h' hcalls) key
  exact (Columns.valueAmong_eq_of_perm hnodup (h.perm_nodes h' hcalls) i key).symm

theorem keys_columns_eq (hg : b.build identity = .ok g) (hg' : b'.build identity' = .ok g') :
    g.columns.keys = g'.columns.keys := by
  have hfilled := h.consistent.filled_of_build (h.keysValued hg) hg
  have hfilled' := h'.consistent.filled_of_build (h'.keysValued hg') hg'
  refine sortedNames_eq fun key => ?_
  rw [hfilled.hold.names, hfilled'.hold.names, PagedGraph.mem_names_iff, PagedGraph.mem_names_iff]
  simp only [h.lookup_kinds_eq h' hcalls]

theorem keysOf_columns_eq (hg : b.build identity = .ok g) (hg' : b'.build identity' = .ok g')
    (label : String) : g.columns.keysOf label = g'.columns.keysOf label := by
  have hfilled := h.consistent.filled_of_build (h.keysValued hg) hg
  have hfilled' := h'.consistent.filled_of_build (h'.keysValued hg') hg'
  refine sortedNames_eq fun key => ?_
  rw [← Columns.mem_keysOf, ← Columns.mem_keysOf, hfilled.mem_keysOf, hfilled'.mem_keysOf]
  simp only [(h.perm_nodes h' hcalls).mem_iff]

end Gathers

end GraphLoader

end PagedGraph
