import PagedGraph.Proofs.Load.External
import PagedGraph.Proofs.View.Induced

/-!
# Filtering is loading less

A filter by labels over one side of a type shows what a graph would show that was loaded
from the selected nodes and the relationships between them (`View.SameContents`).

* Both sides of the loaded type hold, node by node, the rows that pass the filter
  (`SideHolds.weighted_through`).
* The same requests for a side succeed on either graph
  (`TypeTables.Holds.exists_side`, `PropertyGraph.exists_single`).
-/

namespace PagedGraph

/-! ## One side -/

/-- A graph that reads a side, with the property of a key if one is given. -/
structure SingleGraph.Reads (sg : SingleGraph) (m : Numbering) (adjacency : Adjacency)
    (values : List (String × ValueTable)) (key : Option String) : Prop where
  numbering : sg.numbering = m
  adjacency : sg.adjacency = adjacency
  values : sg.values = key.bind fun k => values.lookup k
  known : sg.values.isSome = key.isSome

/-- What a row shows: its target, and the value of a column or a fallback. -/
def Row.shown (column : Option Nat) (fallback : Double) (row : Row) : Nat × Double :=
  (row.target, (column.map row.valueOf).getD fallback)

/-- A row that passes shows the new id of its target. -/
theorem Row.map_shown_filterMap (filter : NodeFilter) (column : Option Nat) (fallback : Double)
    (rows : List Row) :
    (rows.filterMap (through? filter)).map (shown column fallback) =
      (rows.map (shown column fallback)).filterMap fun (t, value) =>
        (filter.newOf? t).map (·, value) := by
  rw [List.map_filterMap, List.filterMap_map]
  refine congrArg (List.filterMap · rows) (funext fun row => ?_)
  show (row.through? filter).map _ = (filter.newOf? row.target).map _
  rw [through?, Option.map_map]
  rfl

namespace SideHolds

variable {p : Projection} {n : Nat} {rows stored : Nat → List Row} {adjacency : Adjacency}
  {values : List (String × ValueTable)}

/-- A graph that reads a side shows the stored rows, all with the values of one column. -/
theorem weighted_eq (h : SideHolds p n rows stored adjacency values) {sg : SingleGraph}
    {m : Numbering} {key : Option String} (hsg : sg.Reads m adjacency values key)
    (fallback : Double)
    {node : Nat} (hnode : node < n) :
    sg.weighted fallback node =
      (stored node).map (Row.shown (key.bind p.keys.idxOf?) fallback) := by
  have htargets : sg.adjacency.targets node = (stored node).map Row.target := by
    rw [hsg.adjacency, h.adjacency.targets_eq hnode]
  have hdegree : sg.adjacency.degree node = (stored node).length := by
    rw [hsg.adjacency, h.adjacency.degree hnode, List.length_map]
  rw [SingleGraph.weighted, SingleGraph.openValues?, htargets, hdegree]
  have hvalues := hsg.values
  have hknown := hsg.known
  cases htable : sg.values with
  | none =>
    rw [htable] at hknown
    obtain rfl : key = none := Option.isNone_iff_eq_none.mp (by simpa using hknown)
    exact List.map_map
  | some table =>
    rw [htable] at hvalues
    obtain ⟨k, rfl, hlookup⟩ := Option.bind_eq_some_iff.mp hvalues.symm
    obtain ⟨column, hcolumn, hstores⟩ := h.values hlookup
    have hlist := hstores hnode
    rw [List.length_map] at hlist
    show ((stored node).map Row.target).zip (table.openValues node _).toList = _
    rw [hlist, Option.bind_some, hcolumn, List.zip_map']
    rfl

/-- A side that holds the relationships that pass has the targets that pass. -/
theorem targets_through {filter : NodeFilter} {n' : Nat} {pairs : Nat → Nat → List (Nat × Nat)}
    {arrivals : List Arrival} {stored' : Nat → List Row} {adjacency' : Adjacency}
    {values' : List (String × ValueTable)} (hvalid : p.validate = .ok ())
    (hpairs : PassesPairs filter pairs)
    (h : SideHolds p n (Arrival.rows pairs arrivals) stored adjacency values)
    (h' : SideHolds p n' (Arrival.rows pairs (arrivals.filterMap (Arrival.through? filter)))
      stored' adjacency' values')
    {new old : Nat} (hnew : new < n') (hold : old < n) (hpass : filter.oldOf? new = some old) :
    adjacency'.targets new = (adjacency.targets old).filterMap filter.newOf? := by
  rw [h.adjacency.targets_eq hold, h'.adjacency.targets_eq hnew,
    arranged_filterMap hvalid hpairs h.arranged h'.arranged hpass, Row.map_target_filterMap]

/-- It shows them with the values they had. -/
theorem weighted_through {filter : NodeFilter} {n' : Nat} {pairs : Nat → Nat → List (Nat × Nat)}
    {arrivals : List Arrival} {stored' : Nat → List Row} {adjacency' : Adjacency}
    {values' : List (String × ValueTable)} (hvalid : p.validate = .ok ())
    (hpairs : PassesPairs filter pairs)
    (h : SideHolds p n (Arrival.rows pairs arrivals) stored adjacency values)
    (h' : SideHolds p n' (Arrival.rows pairs (arrivals.filterMap (Arrival.through? filter)))
      stored' adjacency' values')
    {sg sg' : SingleGraph} {m m' : Numbering} {key : Option String}
    (hsg : sg.Reads m adjacency values key) (hsg' : sg'.Reads m' adjacency' values' key)
    (fallback : Double) {new old : Nat} (hnew : new < n') (hold : old < n)
    (hpass : filter.oldOf? new = some old) :
    sg'.weighted fallback new = (sg.weighted fallback old).filterMap fun (t, value) =>
      (filter.newOf? t).map (·, value) := by
  rw [h.weighted_eq hsg fallback hold, h'.weighted_eq hsg' fallback hnew,
    arranged_filterMap hvalid hpairs h.arranged h'.arranged hpass, Row.map_shown_filterMap]

end SideHolds

/-! ## Requests -/

/-- A side of a type is one of its adjacencies. -/
theorem PropertyGraph.of_side_eq_ok {type : String} {t : TypeTables} {direction : Direction}
    {adjacency : Adjacency} {values : List (String × ValueTable)} {inverse : Bool}
    (h : side type t direction = .ok (adjacency, values, inverse)) :
    (adjacency = t.outgoing ∧ values = t.outgoingValues) ∨
      (t.incoming = some adjacency ∧ values = t.incomingValues) := by
  cases direction with
  | outgoing =>
    cases h
    exact Or.inl ⟨rfl, rfl⟩
  | incoming =>
    rw [side] at h
    split at h
    · cases h
      exact Or.inl ⟨rfl, rfl⟩
    · cases hincoming : t.incoming with
      | none =>
        rw [hincoming] at h
        cases h
      | some side =>
        rw [hincoming] at h
        cases h
        exact Or.inr ⟨rfl, rfl⟩
  | both => cases h

/-- What a side of a type holds, another type loaded alike holds on the same side. -/
theorem TypeTables.Holds.exists_side {t t' : TypeTables} {p : Projection} {n n' : Nat}
    {arrivals arrivals' : List Arrival} (h : t.Holds p n arrivals) (h' : t'.Holds p n' arrivals')
    {type : String} {direction : Direction} {adjacency : Adjacency}
    {values : List (String × ValueTable)} {inverse : Bool}
    (hside : PropertyGraph.side type t direction = .ok (adjacency, values, inverse)) :
    ∃ adjacency' values',
      PropertyGraph.side type t' direction = .ok (adjacency', values', inverse) ∧
      ∃ pairs, (pairs = p.pairs ∨ pairs = p.inversePairs) ∧
        (∃ stored, SideHolds p n (Arrival.rows pairs arrivals) stored adjacency values) ∧
        ∃ stored', SideHolds p n' (Arrival.rows pairs arrivals') stored' adjacency' values' := by
  have hundirected : t'.outgoing.isUndirected = t.outgoing.isUndirected :=
    h'.isUndirected.trans h.isUndirected.symm
  have hincoming : t'.incoming.isSome = t.incoming.isSome :=
    h'.isSome_incoming.trans h.isSome_incoming.symm
  cases direction with
  | outgoing =>
    cases hside
    exact ⟨_, _, rfl, p.pairs, Or.inl rfl, h.outgoing, h'.outgoing⟩
  | incoming =>
    rw [PropertyGraph.side] at hside
    rw [PropertyGraph.side, hundirected]
    split at hside
    · next hboth =>
      cases hside
      rw [if_pos hboth]
      exact ⟨_, _, rfl, p.pairs, Or.inl rfl, h.outgoing, h'.outgoing⟩
    · next hdirected =>
      rw [if_neg hdirected]
      cases hinverse : t.incoming with
      | none =>
        rw [hinverse] at hside
        cases hside
      | some adjacency =>
        rw [hinverse] at hside hincoming
        cases hside
        obtain ⟨adjacency', hinverse'⟩ := Option.isSome_iff_exists.mp hincoming
        rw [hinverse']
        exact ⟨_, _, rfl, p.inversePairs, Or.inr rfl, (h.incoming hinverse).2,
          (h'.incoming hinverse').2⟩
  | both => cases hside

namespace PropertyGraph

variable {g : PropertyGraph} {type : String} {tables : TypeTables} {direction : Direction}
  {key : Option String}

theorem tablesOf_eq_ok (hlive : g.released = false) (htables : g.types.lookup type = some tables) :
    g.tablesOf type = .ok tables := by
  rw [tablesOf, checkLive, hlive, htables]
  rfl

/-- A request that succeeds reads a side of the type. -/
theorem reads_of_single_eq_ok (hlive : g.released = false)
    (htables : g.types.lookup type = some tables) {sg : SingleGraph}
    (h : g.single type direction key = .ok sg) :
    ∃ adjacency values inverse, side type tables direction = .ok (adjacency, values, inverse) ∧
      sg.Reads g.numbering adjacency values key := by
  rw [single] at h
  obtain ⟨t, ht, h⟩ := bind_eq_ok h
  rw [tablesOf_eq_ok hlive htables] at ht
  obtain rfl := Except.ok.inj ht
  obtain ⟨⟨adjacency, values, inverse⟩, hside, h⟩ := bind_eq_ok h
  refine ⟨adjacency, values, inverse, hside, ?_⟩
  cases key with
  | none =>
    cases h
    exact ⟨rfl, rfl, rfl, rfl⟩
  | some key =>
    cases hvalues : values.lookup key with
    | none =>
      simp only [hvalues] at h
      cases h
    | some table =>
      simp only [hvalues] at h
      cases h
      exact ⟨rfl, rfl, hvalues.symm, rfl⟩

/-- A request for a side and for one of its keys succeeds. -/
theorem exists_single (hlive : g.released = false) (htables : g.types.lookup type = some tables)
    {adjacency : Adjacency} {values : List (String × ValueTable)} {inverse : Bool}
    (hside : side type tables direction = .ok (adjacency, values, inverse))
    (hkey : ∀ {k}, key = some k → k ∈ names values) :
    ∃ sg, g.single type direction key = .ok sg ∧ sg.Reads g.numbering adjacency values key := by
  rw [single, tablesOf_eq_ok hlive htables]
  simp only [bind, Except.bind, hside]
  cases key with
  | none => exact ⟨_, rfl, rfl, rfl, rfl, rfl⟩
  | some key =>
    obtain ⟨table, hvalues⟩ := mem_names_iff.mp (hkey rfl)
    simp only [hvalues]
    exact ⟨_, rfl, rfl, rfl, hvalues.symm, rfl⟩

end PropertyGraph

/-! ## Views -/

namespace View

/-- Two views of the same nodes that show the same relationships. -/
structure SameContents (v w : View) : Prop where
  nodeCount : v.nodeCount = w.nodeCount
  externalOf? : v.numbering.externalOf? = w.numbering.externalOf?
  internalOf? : v.numbering.internalOf? = w.numbering.internalOf?
  hasLabel : v.numbering.hasLabel = w.numbering.hasLabel
  targets : v.targets = w.targets
  degree : ∀ {node}, node < v.nodeCount → v.degree node = w.degree node
  /-- Relationships under a filter are counted in 64 bits. -/
  relationshipCount : v.CountFits → v.relationshipCount = w.relationshipCount
  weighted? : v.weighted? = w.weighted?

theorem weighted?_ofSingle (sg : SingleGraph) (fallback : Double) (node : Nat) :
    (ofSingle sg).weighted? fallback node =
      if node < sg.numbering.nodeCount then some (sg.weighted fallback node) else none := by
  rw [weighted?, root?, ofSingle, ofBase, rootThrough?]
  show Option.map _ (if node < sg.numbering.nodeCount then _ else _) = _
  split
  · exact congrArg some (List.append_nil _)
  · rfl

theorem Sound.targets_eq_nil {v : View} (h : v.Sound) {node : Nat} (hnode : v.nodeCount ≤ node) :
    v.targets node = [] := by
  rw [targets, targets?, h.closed hnode]
  rfl

theorem targets_ofSingle {sg : SingleGraph} (h : sg.Sound) {node : Nat}
    (hnode : node < sg.numbering.nodeCount) :
    (ofSingle sg).targets node = sg.adjacency.targets node :=
  targets_ofBase (BaseGraph.stores_single h) hnode

/-- A view of one side under a filter shows what a side shows that has, under new ids, the
relationships that pass. -/
theorem sameContents_under {sg sg' : SingleGraph} (h : sg.Sound) (h' : sg'.Sound)
    {filter : NodeFilter} (hselects : Selects filter (ofSingle sg)) {entries : List NodeEntry}
    (hnumbers : filter.numbering.Numbers entries) (hnumbers' : sg'.numbering.Numbers entries)
    (htargets : ∀ {new old}, filter.oldOf? new = some old →
      sg'.adjacency.targets new = (sg.adjacency.targets old).filterMap filter.newOf?)
    (hweighted : ∀ fallback {new old}, filter.oldOf? new = some old →
      sg'.weighted fallback new = (sg.weighted fallback old).filterMap fun (t, value) =>
        (filter.newOf? t).map (·, value)) (workers : Nat) :
    ((ofSingle sg).under ⟨filter, (ofSingle sg).countThrough filter workers⟩).SameContents
      (ofSingle sg') := by
  have hbase : (ofSingle sg).Sound := sound_ofSingle h
  have hsound := hbase.under hselects workers
  have hsound' : (ofSingle sg').Sound := sound_ofSingle h'
  have hcount := hnumbers.nodeCount_eq hnumbers'
  have hsame : ((ofSingle sg).under ⟨filter, (ofSingle sg).countThrough filter workers⟩).targets =
      (ofSingle sg').targets := by
    funext node
    rcases Nat.lt_or_ge node filter.numbering.nodeCount with hlt | hle
    · obtain ⟨old, hold⟩ := NodeFilter.exists_oldOf? (filter.oldIds_size ▸ hlt)
      rw [targets_under hbase hselects _ hold, targets_ofSingle h (hselects hold),
        targets_ofSingle h' (hcount ▸ hlt), htargets hold]
    · rw [hsound.targets_eq_nil hle,
        hsound'.targets_eq_nil (Nat.le_trans (Nat.le_of_eq hcount.symm) hle)]
  constructor
  case nodeCount => exact hcount
  case externalOf? => exact hnumbers.externalOf?_eq hnumbers'
  case internalOf? => exact hnumbers.internalOf?_eq hnumbers'
  case hasLabel => exact hnumbers.hasLabel_eq hnumbers'
  case targets => exact hsame
  case degree =>
    intro node hnode
    rw [hsound.degree hnode, hsound'.degree (Nat.lt_of_lt_of_eq hnode hcount), hsame]
  case relationshipCount =>
    intro hfits
    rw [hsound.relationshipCount_of_fits hfits, relationshipCount_ofSingle h', targetCount,
      targetCount, hsame]
    exact congrArg (fun n => addUp ((List.range n).map _)) hcount
  case weighted? =>
    funext fallback node
    rw [weighted?_under, weighted?_ofSingle]
    rcases Nat.lt_or_ge node filter.numbering.nodeCount with hlt | hle
    · obtain ⟨old, hold⟩ := NodeFilter.exists_oldOf? (filter.oldIds_size ▸ hlt)
      have hlt' : old < sg.numbering.nodeCount := hselects hold
      rw [if_pos (hcount ▸ hlt), hold, Option.bind_some, weighted?_ofSingle, if_pos hlt',
        hweighted fallback hold]
      rfl
    · have hnone : filter.oldOf? node = none :=
        Array.getElem?_eq_none (Nat.le_trans (Nat.le_of_eq filter.oldIds_size) hle)
      rw [if_neg (Nat.not_lt.mpr (hcount ▸ hle)), hnone, Option.bind_none]

end View

/-! ## Loading less -/

/-- A live graph over a numbering, with some tables for a type. -/
structure PropertyGraph.Holds (g : PropertyGraph) (m : Numbering) (type : String)
    (tables : TypeTables) : Prop where
  live : g.released = false
  numbering : g.numbering = m
  tables : g.types.lookup type = some tables

namespace PropertyGraph

variable {m : Numbering} {type : String} {tables : TypeTables} {g : PropertyGraph}

/-- A side of a type that was loaded is a side of loaded tables. -/
theorem Holds.loaded_single (h : g.Holds m type tables) (hloaded : tables.Loaded m)
    {direction : Direction} {key : Option String} {sg : SingleGraph}
    (hsg : g.single type direction key = .ok sg) : sg.numbering = m ∧ sg.Loaded := by
  obtain ⟨adjacency, values, inverse, hside, hreads⟩ :=
    reads_of_single_eq_ok h.live h.tables hsg
  have hnumbering : sg.numbering = m := hreads.numbering.trans h.numbering
  refine ⟨hnumbering, tables, hnumbering ▸ hloaded, ?_⟩
  rw [hreads.adjacency]
  exact (of_side_eq_ok hside).imp And.left And.left

theorem Holds.sound_single (h : g.Holds m type tables) (hloaded : tables.Loaded m)
    {direction : Direction} {key : Option String} {sg : SingleGraph}
    (hsg : g.single type direction key = .ok sg) : sg.Sound :=
  (h.loaded_single hloaded hsg).2.sound

/-- A filter over one side shows what a graph shows that was loaded from the selected nodes and the
relationships between them. -/
theorem Holds.exists_sameContents {m' : Numbering} {tables' : TypeTables} {g' : PropertyGraph}
    (h : g.Holds m type tables) (h' : g'.Holds m' type tables')
    (hloaded : tables.Loaded m) (hloaded' : tables'.Loaded m') {labels : List String}
    (hknown : ∀ label ∈ labels, m.knowsLabel label = true) {entries : List NodeEntry}
    (hnumbers : m.Numbers entries)
    (hnumbers' : m'.Numbers (entries.filter fun entry => labels.any entry.2.contains))
    {p : Projection} (hvalid : p.validate = .ok ()) {identity : Nat} {arrivals : List Arrival}
    (hholds : tables.Holds p m.nodeCount arrivals)
    (hholds' : tables'.Holds p m'.nodeCount (arrivals.filterMap (Arrival.through?
      (m.select identity labels))))
    {direction : Direction} {key : Option String} {sg : SingleGraph}
    (hsg : g.single type direction key = .ok sg) {workers : Nat} (hworkers : 0 < workers) :
    ∃ v' sg', g.withLabels (.ofSingle sg) identity labels workers = .ok v' ∧
      g'.single type direction key = .ok sg' ∧ v'.SameContents (.ofSingle sg') := by
  obtain ⟨hnumbering, hside⟩ := h.loaded_single hloaded hsg
  obtain ⟨adjacency, values, inverse, hrequest, hreads⟩ :=
    reads_of_single_eq_ok h.live h.tables hsg
  obtain ⟨adjacency', values', hrequest', pairs, hpairs, ⟨stored, hstored⟩, stored', hstored'⟩ :=
    hholds.exists_side hholds' hrequest
  have hpass : PassesPairs (m.select identity labels) pairs := by
    rcases hpairs with rfl | rfl
    · exact p.passesPairs_pairs
    · exact p.passesPairs_inversePairs
  have hkey : ∀ {k}, key = some k → k ∈ names values' := by
    rintro k rfl
    obtain ⟨table, htable⟩ := Option.isSome_iff_exists.mp hreads.known
    obtain ⟨column, hcolumn, -⟩ := hstored.values (hreads.values.symm.trans htable)
    rw [hstored'.keys]
    exact List.isSome_idxOf?.mp (Option.isSome_iff_exists.mpr ⟨column, hcolumn⟩)
  obtain ⟨sg', hsg', hreads'⟩ := exists_single h'.live h'.tables hrequest' hkey
  obtain ⟨hnumbering', hside'⟩ := h'.loaded_single hloaded' hsg'
  have hbase : (View.ofSingle sg).numbering = g.numbering := hreads.numbering
  have hknown' : ∀ label ∈ labels, g.numbering.knowsLabel label = true := h.numbering ▸ hknown
  have hlt : ∀ {new old},
      (m.select identity labels).oldOf? new = some old →
      new < m'.nodeCount ∧ old < m.nodeCount := by
    intro new old hold
    refine ⟨?_, Numbering.lt_of_oldOf?_select hold⟩
    rw [← (hnumbers.select identity labels).nodeCount_eq hnumbers', ← NodeFilter.oldIds_size]
    exact NodeFilter.lt_of_oldOf? hold
  refine ⟨_, sg', withLabels_eq_ok h.live hbase hknown' hworkers identity, hsg', ?_⟩
  rw [h.numbering]
  refine View.sameContents_under hside.sound hside'.sound ?_ (hnumbers.select identity labels)
    (hnumbering'.symm ▸ hnumbers') ?_ ?_ workers
  · rw [← h.numbering]
    exact selects_select hbase identity labels
  · intro new old hold
    rw [hreads.adjacency, hreads'.adjacency]
    exact hstored.targets_through hvalid hpass hstored' (hlt hold).1 (hlt hold).2 hold
  · intro fallback new old hold
    exact hstored.weighted_through hvalid hpass hstored' hreads hreads' fallback (hlt hold).1
      (hlt hold).2 hold

/-- A graph loaded from the selected nodes and the relationships between them, with the same
projection and in the same order, shows what a filter over one side shows. -/
theorem Holds.exists_reload (h : g.Holds m type tables) {labels : List String}
    (hknown : ∀ label ∈ labels, m.knowsLabel label = true) {entries : List NodeEntry} {first : Nat}
    (hbuild : Numbering.build first entries = .ok m) {p : Projection} {loaders : Nat}
    {rs : List Relationship} (hfrom : tables.LoadedFrom m p loaders rs) (second : Nat)
    {others : Nat}
    (hothers : 0 < others) :
    ∃ (m' : Numbering) (tables' : TypeTables),
      Numbering.build second (entries.filter fun entry => labels.any entry.2.contains) = .ok m' ∧
      tables'.LoadedFrom m' p others
        (rs.filter fun r => m'.contains r.source && m'.contains r.target) ∧
      ∀ {g' : PropertyGraph} {direction : Direction} {key : Option String} {sg : SingleGraph}
        {workers : Nat}, g'.Holds m' type tables' → g.single type direction key = .ok sg →
        0 < workers → ∀ identity, ∃ v' sg',
          g.withLabels (.ofSingle sg) identity labels workers = .ok v' ∧
          g'.single type direction key = .ok sg' ∧ v'.SameContents (.ofSingle sg') := by
  have hnumbers := Numbering.numbers_of_build_eq_ok hbuild
  have hnodup : ((entries.filter fun entry => labels.any entry.2.contains).map (·.1)).Nodup :=
    (Numbering.nodup_of_build_eq_ok hbuild).sublist (List.filter_sublist.map _)
  obtain ⟨m', hbuild'⟩ := Numbering.exists_build_eq_ok hnodup second
  have hnumbers' := Numbering.numbers_of_build_eq_ok hbuild'
  have hselection := hnumbers.select 0 labels
  have hnew : ∀ {external old}, m.internalOf? external = some old → m'.internalOf? external =
      (m.select 0 labels).newOf? old := by
    intro external old hold
    rw [← hselection.internalOf?_eq hnumbers']
    exact Numbering.internalOf?_select hold
  have hcount : m'.nodeCount = (m.select 0 labels).nodeCount := by
    rw [← hselection.nodeCount_eq hnumbers']
    exact (NodeFilter.oldIds_size _).symm
  obtain ⟨tables', hfrom', hloaded, hloaded', hvalid, arrivals, hholds, hholds'⟩ :=
    hfrom.exists_selected hnew Numbering.lt_of_oldOf?_select hcount hothers
  refine ⟨m', tables', hbuild', hfrom', ?_⟩
  intro g' direction key sg workers h' hsg hworkers identity
  -- The new ids of a selection do not depend on its identity.
  have hpassed : tables'.Holds p m'.nodeCount (arrivals.filterMap (Arrival.through?
      (m.select identity labels))) := hholds'
  exact h.exists_sameContents h' hloaded hloaded' hknown hnumbers hnumbers' hvalid hholds hpassed
    hsg hworkers

/-- A filter by labels shows what the nodes with at least one of the labels induce, over every view
of the graph's nodes.  Over one side of a type, it shows what a graph shows that was loaded from
these nodes and the relationships between them. -/
theorem withLabels_induces (hlive : g.released = false) {labels : List String}
    (hknown : ∀ label ∈ labels, g.numbering.knowsLabel label = true) :
    (∀ {v : View} {workers : Nat}, v.Loaded → v.numbering = g.numbering → 0 < workers →
      ∀ identity, ∃ v', g.withLabels v identity labels workers = .ok v' ∧
        v'.Induced v (g.numbering.withSomeLabel labels)) ∧
    ∀ {type : String} {tables : TypeTables} {entries : List NodeEntry} {first : Nat}
      {p : Projection} {loaders : Nat} {rs : List Relationship} {others : Nat},
      g.types.lookup type = some tables → Numbering.build first entries = .ok g.numbering →
      tables.LoadedFrom g.numbering p loaders rs → 0 < others → ∀ second,
      ∃ (m' : Numbering) (tables' : TypeTables),
        Numbering.build second (entries.filter fun entry => labels.any entry.2.contains) = .ok m' ∧
        tables'.LoadedFrom m' p others
          (rs.filter fun r => m'.contains r.source && m'.contains r.target) ∧
        ∀ {g' : PropertyGraph} {direction : Direction} {key : Option String} {sg : SingleGraph}
          {workers : Nat}, g'.Holds m' type tables' → g.single type direction key = .ok sg →
          0 < workers → ∀ identity, ∃ v' sg',
            g.withLabels (.ofSingle sg) identity labels workers = .ok v' ∧
            g'.single type direction key = .ok sg' ∧ v'.SameContents (.ofSingle sg') := by
  refine ⟨fun hv hnumbering hworkers identity =>
    exists_withLabels hlive hv hnumbering hknown hworkers identity, ?_⟩
  intro type tables entries first p loaders rs others htables hbuild hfrom hothers second
  have hholds : g.Holds g.numbering type tables := ⟨hlive, rfl, htables⟩
  exact hholds.exists_reload hknown hbuild hfrom second hothers

/-- Three nodes, of which the first two have the label. -/
theorem withLabels_induces_threeNodes :
    ∃ tables : TypeTables,
      (∃ v', withLabels
          { numbering := View.threeNodes, columns := .empty, types := [("T", tables)] }
          View.threeNodeView 1 ["A"] 1 = .ok v' ∧ v'.Induced View.threeNodeView [0, 1]) ∧
      ∃ (m' : Numbering) (tables' : TypeTables),
        Numbering.build 2 [(1, ["A"]), (2, ["A", "B"])] = .ok m' ∧
        ∃ v' sg', withLabels
            { numbering := View.threeNodes, columns := .empty, types := [("T", tables)] }
            (.ofSingle ⟨View.threeNodes, tables.outgoing, none, [⟨0, "T", false, none⟩]⟩)
            1 ["A"] 1 =
              .ok v' ∧
          single { numbering := m', columns := .empty, types := [("T", tables')] }
            "T" .outgoing none =
            .ok sg' ∧ v'.SameContents (.ofSingle sg') := by
  have hone : View.threeNodes.internalOf? 1 = some 0 :=
    (Numbering.internalOf?_eq_some_iff _).mpr rfl
  have htwo : View.threeNodes.internalOf? 2 = some 1 :=
    (Numbering.internalOf?_eq_some_iff _).mpr rfl
  have hthree : View.threeNodes.internalOf? 3 = some 2 :=
    (Numbering.internalOf?_eq_some_iff _).mpr rfl
  have hresolve : [(⟨1, 2, "T", .empty⟩ : Relationship), ⟨3, 2, "T", .empty⟩,
      ⟨1, 3, "T", .empty⟩].mapM
      (Arrival.ofRelationship View.threeNodes { orientation := .undirected }) =
        .ok View.threeNodeArrivals := by
    rw [List.mapM_cons,
      (Arrival.ofRelationship_eq_ok_iff (a := ⟨0, 1, []⟩)).mpr ⟨hone, htwo, rfl⟩, List.mapM_cons,
      (Arrival.ofRelationship_eq_ok_iff (a := ⟨2, 1, []⟩)).mpr ⟨hthree, htwo, rfl⟩, List.mapM_cons,
      (Arrival.ofRelationship_eq_ok_iff (a := ⟨0, 2, []⟩)).mpr ⟨hone, hthree, rfl⟩]
    rfl
  obtain ⟨tables, hfrom, hloaded, -⟩ := TypeTables.exists_loadedFrom Nat.one_pos rfl
    hresolve (Arrival.sidesFit_of_length_lt (by decide) _)
  have hbuild : Numbering.build 0 [(1, ["A"]), (2, ["A", "B"]), (3, ["B"])] =
      .ok View.threeNodes := Numbering.build_of_perm_ascending (by decide) (.refl _)
  have hnodes : View.threeNodes.withSomeLabel ["A"] = [0, 1] :=
    (Numbering.withSomeLabel_ofAscending (by decide) ["A"]).trans (by decide)
  have hknown : ∀ label ∈ ["A"], View.threeNodes.knowsLabel label = true :=
    fun _ => Numbering.knowsLabel_ofAscending _ (@List.mem_cons_self _ (1, ["A"]) _)
  have htables : [("T", tables)].lookup "T" = some tables := rfl
  obtain ⟨hinduces, hreloads⟩ := withLabels_induces
    (g := { numbering := View.threeNodes, columns := .empty, types := [("T", tables)] }) rfl hknown
  obtain ⟨v', hv', hinduced⟩ := hinduces View.loaded_threeNodeView rfl Nat.one_pos 1
  refine ⟨tables, ⟨v', hv', hnodes ▸ hinduced⟩, ?_⟩
  obtain ⟨m', tables', hbuild', -, hshows⟩ := hreloads htables hbuild hfrom Nat.one_pos 2
  exact ⟨m', tables', hbuild', hshows ⟨rfl, rfl, rfl⟩ rfl Nat.one_pos 1⟩

end PropertyGraph

end PagedGraph
