import PagedGraph.Load.Relationships
import PagedGraph.Proofs.Load.Row
import PagedGraph.Proofs.Load.Shards
import PagedGraph.Proofs.Load.Tables

/-!
# The states of a relationship loader

Every relationship that arrives at a loader is stored as rows of its ends (`Arrival.calls`).
`RelationshipLoader.holding m p size outgoing incoming` is the loader after these calls, one list
for each side.  A loader starts without calls (`create_eq_ok`), and every relationship that
arrives puts its calls behind the others (`push_holding`, `pushAll_blank`).

Building a loader stores the rows of every node as they are arranged, if a degree can count them
(`arranged_eq_ok`, `of_arranged_eq_error`), and writes the tables of what this gives
(`exists_build_lays`).  `TypeTables.Lays` says of tables that they have the runs of these rows,
`TypeTables.Holds` that they read back the rows, and the one gives the other
(`TypeTables.Lays.holds`).
-/

namespace PagedGraph

/-- The rows of some pairs that have a node in front, with the same values for each. -/
def Row.ofPairs (pairs : List (Nat × Nat)) (values : List Double) (node : Nat) : List Row :=
  (pairs.filter fun pair => pair.1 = node).map fun pair => ⟨pair.2, values⟩

namespace Projection

variable {p : Projection} {source target x y : Nat}

/-- The ends of a stored pair are those of the relationship. -/
theorem mem_pairs (h : (x, y) ∈ p.pairs source target) :
    (x = source ∧ y = target) ∨ (x = target ∧ y = source) := by
  rw [pairs] at h
  split at h
  · cases h
  · cases horientation : p.orientation with
    | natural => simpa [horientation] using Or.inl (by simpa [horientation] using h)
    | reverse => simpa [horientation] using Or.inr (by simpa [horientation] using h)
    | undirected =>
      simp only [horientation] at h
      split at h
      · exact Or.inl (by simpa using h)
      · simpa using h

theorem mem_inversePairs (h : (x, y) ∈ p.inversePairs source target) :
    (y, x) ∈ p.pairs source target := by
  rw [inversePairs] at h
  split at h
  · obtain ⟨⟨a, b⟩, hpair, heq⟩ := List.mem_map.mp h
    cases heq
    exact hpair
  · cases h

end Projection

/-- A relationship that arrives at a loader, in internal ids. -/
structure Arrival where
  source : Nat
  target : Nat
  values : List Double
deriving DecidableEq, Repr, Inhabited

namespace Arrival

/-- A relationship between nodes, with a value for every property. -/
structure Proper (n : Nat) (p : Projection) (a : Arrival) : Prop where
  source_lt : a.source < n
  target_lt : a.target < n
  length_values : a.values.length = p.properties.length

instance (n : Nat) (p : Projection) : DecidablePred (Proper n p) := fun a =>
  decidable_of_iff
    (a.source < n ∧ a.target < n ∧ a.values.length = p.properties.length)
    ⟨fun h => ⟨h.1, h.2.1, h.2.2⟩, fun h => ⟨h.1, h.2, h.3⟩⟩

/-- The rows that some relationships are stored as, when each is stored as some pairs. -/
def calls (pairs : Nat → Nat → List (Nat × Nat)) (arrivals : List Arrival) : List (Nat × Row) :=
  arrivals.flatMap fun a => (pairs a.source a.target).map fun pair => (pair.1, ⟨pair.2, a.values⟩)

/-- The rows that some relationships give a node. -/
def rows (pairs : Nat → Nat → List (Nat × Nat)) (arrivals : List Arrival) (node : Nat) :
    List Row :=
  arrivals.flatMap fun a => Row.ofPairs (pairs a.source a.target) a.values node

theorem ofCalls_calls (pairs : Nat → Nat → List (Nat × Nat)) (arrivals : List Arrival)
    (node : Nat) : Row.ofCalls (calls pairs arrivals) node = rows pairs arrivals node := by
  rw [Row.ofCalls, calls, rows, List.filter_flatMap, List.map_flatMap]
  refine List.flatMap_congr fun a _ => ?_
  rw [List.filter_map, List.map_map]
  rfl

variable {n : Nat} {p : Projection} {arrivals : List Arrival}

/-- Relationships between nodes are stored as rows of nodes. -/
theorem takes_calls {pairs : Nat → Nat → List (Nat × Nat)}
    (hpairs : ∀ {source target x y}, (x, y) ∈ pairs source target →
      (x = source ∧ y = target) ∨ (x = target ∧ y = source))
    (h : ∀ a ∈ arrivals, a.Proper n p) :
    ShardedRows.Takes n p.properties.length (calls pairs arrivals) := by
  have hmem : ∀ call ∈ calls pairs arrivals, ∃ a ∈ arrivals,
      (call.1, call.2.target) ∈ pairs a.source a.target ∧ call.2.values = a.values := by
    intro call hcall
    obtain ⟨a, ha, hcall⟩ := List.mem_flatMap.mp hcall
    obtain ⟨pair, hpair, rfl⟩ := List.mem_map.mp hcall
    exact ⟨a, ha, hpair, rfl⟩
  refine ⟨fun call hcall => ?_, fun call hcall => ?_⟩
  · obtain ⟨a, ha, hpair, -⟩ := hmem call hcall
    rcases hpairs hpair with ⟨hsource, -⟩ | ⟨hsource, -⟩
    · exact hsource ▸ (h a ha).source_lt
    · exact hsource ▸ (h a ha).target_lt
  · obtain ⟨a, ha, -, hvalues⟩ := hmem call hcall
    exact hvalues ▸ (h a ha).length_values

theorem takes_pairs (h : ∀ a ∈ arrivals, a.Proper n p) :
    ShardedRows.Takes n p.properties.length (calls p.pairs arrivals) :=
  takes_calls Projection.mem_pairs h

theorem takes_inversePairs (h : ∀ a ∈ arrivals, a.Proper n p) :
    ShardedRows.Takes n p.properties.length (calls p.inversePairs arrivals) :=
  takes_calls (fun hpair => (Projection.mem_pairs (Projection.mem_inversePairs hpair)).symm.imp
    And.symm And.symm) h

/-- Every row has a value for every property. -/
theorem length_values_rows {pairs : Nat → Nat → List (Nat × Nat)}
    (h : ∀ a ∈ arrivals, a.Proper n p) {node : Nat} :
    ∀ row ∈ rows pairs arrivals node, row.values.length = p.aggregations.length := by
  intro row hrow
  obtain ⟨a, ha, hrow⟩ := List.mem_flatMap.mp hrow
  obtain ⟨pair, -, rfl⟩ := List.mem_map.mp hrow
  rw [Projection.aggregations, List.length_map]
  exact (h a ha).length_values

end Arrival

namespace RelationshipLoader

/-- The loader after some calls for each side. -/
def holding (m : Numbering) (p : Projection) (size : Nat) (outgoing incoming : List (Nat × Row)) :
    RelationshipLoader :=
  ⟨m, p, .ofCalls m.nodeCount size outgoing,
    if p.storesInverse then some (.ofCalls m.nodeCount size incoming) else none⟩

/-- A relationship between nodes with a value for every property is stored. -/
theorem addWith?_eq_some {l : RelationshipLoader} {a : Arrival}
    (h : a.Proper l.numbering.nodeCount l.projection) :
    l.addWith? a.source a.target a.values = some (l.push a.source a.target a.values) :=
  if_pos (by simp [hasNode, hasValues, h.source_lt, h.target_lt, h.length_values])

/-- A loader without rows. -/
def blank (m : Numbering) (p : Projection) (workers : Nat) : RelationshipLoader :=
  holding m p (nodesPerShard m.nodeCount workers) [] []

/-- Store some relationships, one after another. -/
def pushAll (l : RelationshipLoader) (arrivals : List Arrival) : RelationshipLoader :=
  arrivals.foldl (fun l a => l.push a.source a.target a.values) l

variable {m : Numbering} {p : Projection}

/-- A loader starts without rows. -/
theorem create_eq_ok {workers : Nat} (hworkers : 0 < workers) (hvalid : p.validate = .ok ()) :
    create m p workers = .ok (blank m p workers) := by
  rw [create, checkWorkers_eq_ok hworkers, hvalid, ShardedRows.ofNodes_eq_ofCalls]
  rfl

variable (m p) (size : Nat)

/-- A relationship puts its calls behind the others. -/
theorem push_holding (outgoing incoming : List (Nat × Row)) (a : Arrival) :
    (holding m p size outgoing incoming).push a.source a.target a.values =
      holding m p size (outgoing ++ Arrival.calls p.pairs [a])
        (incoming ++ Arrival.calls p.inversePairs [a]) := by
  simp only [push, holding, ShardedRows.pushPairs_ofCalls, Arrival.calls, List.flatMap_singleton]
  split
  · rw [Option.map_some, ShardedRows.pushPairs_ofCalls]
  · rfl

/-- Some relationships put their calls behind the others, in the order they arrive. -/
theorem pushAll_holding (arrivals : List Arrival) (outgoing incoming : List (Nat × Row)) :
    (holding m p size outgoing incoming).pushAll arrivals =
      holding m p size (outgoing ++ Arrival.calls p.pairs arrivals)
        (incoming ++ Arrival.calls p.inversePairs arrivals) := by
  induction arrivals generalizing outgoing incoming with
  | nil => simp [pushAll, Arrival.calls]
  | cons a arrivals ih =>
    rw [pushAll, List.foldl_cons, push_holding, ← pushAll, ih]
    simp only [Arrival.calls, List.flatMap_cons, List.flatMap_nil, List.append_assoc,
      List.append_nil]

theorem pushAll_blank (workers : Nat) (arrivals : List Arrival) :
    (blank m p workers).pushAll arrivals =
      holding m p (nodesPerShard m.nodeCount workers) (Arrival.calls p.pairs arrivals)
        (Arrival.calls p.inversePairs arrivals) := by
  rw [blank, pushAll_holding]
  simp only [List.nil_append]

end RelationshipLoader

/-! ## Storing the rows of every node -/

/-- The number of targets of every node can be written in front of its run. -/
def RowsFit (p : Projection) (n : Nat) (rows : Nat → List Row) : Prop :=
  ∀ node < n,
    (storedTargets p.aggregation.collapses ((rows node).map Row.target)).length < UInt32.size

/-- So can those of every node on each side that some relationships are stored on. -/
structure SidesFit (p : Projection) (n : Nat) (arrivals : List Arrival) : Prop where
  outgoing : RowsFit p n (Arrival.rows p.pairs arrivals)
  incoming : p.storesInverse = true → RowsFit p n (Arrival.rows p.inversePairs arrivals)

/-- In a valid projection the rows of every node can be arranged. -/
theorem exists_arranged {p : Projection} (hvalid : p.validate = .ok ()) (rows : Nat → List Row) :
    ∃ stored : Nat → List Row,
      (∀ node, Row.arrange p.aggregation.collapses p.aggregations (rows node) = .ok (stored node)) ∧
      ∀ node, (stored node).map Row.target =
        storedTargets p.aggregation.collapses ((rows node).map Row.target) := by
  have h := fun node =>
    Row.exists_arrange (fun hc => Projection.collapses_of_validate hvalid hc) (rows node)
  choose stored hstored using h
  exact ⟨stored, fun node => (hstored node).1, fun node => (hstored node).2⟩

/-! ## What tables hold -/

/-- The table of a key is that of the first property with this key. -/
theorem RelationshipLoader.lookup_mapIdx {key : String} {table : ValueTable}
    (properties : List PropertyProjection) :
    ∀ {f : Nat → PropertyProjection → ValueTable},
      (properties.mapIdx fun column property => (property.key, f column property)).lookup key =
        some table →
      ∃ column property, (properties.map (·.key)).idxOf? key = some column ∧
        table = f column property := by
  induction properties with
  | nil =>
    intro f h
    cases h
  | cons first rest ih =>
    intro f h
    rw [List.mapIdx_cons, List.lookup_cons] at h
    rw [List.map_cons, List.idxOf?_cons]
    by_cases hkey : first.key = key
    · have htrue : (key == first.key) = true := by simpa using hkey.symm
      rw [htrue] at h
      exact ⟨0, first, by simp [hkey], (Option.some.inj h).symm⟩
    · have hfalse : (key == first.key) = false := by simpa using Ne.symm hkey
      rw [hfalse] at h
      obtain ⟨column, property, hcolumn, htable⟩ := ih h
      exact ⟨column + 1, property, by simp [hkey, hcolumn], htable⟩

/-- One side of a type holds the rows of every node as they are arranged. -/
structure SideHolds (p : Projection) (n : Nat) (rows stored : Nat → List Row)
    (adjacency : Adjacency) (values : List (String × ValueTable)) : Prop where
  arranged : ∀ node,
    Row.arrange p.aggregation.collapses p.aggregations (rows node) = .ok (stored node)
  map_target : ∀ node, (stored node).map Row.target =
    storedTargets p.aggregation.collapses ((rows node).map Row.target)
  adjacency : adjacency.Stores n fun node => (stored node).map Row.target
  keys : names values = p.keys
  values : ∀ {key table}, values.lookup key = some table →
    ∃ column, p.keys.idxOf? key = some column ∧
      table.Stores n fun node => (stored node).map (Row.valueOf column)

/-- The tables of one side, wherever in their pages the runs of its rows lie. -/
structure SideLays (p : Projection) (isUndirected : Bool) (shards : List (List (List Row)))
    (adjacency : Adjacency) (values : List (String × ValueTable)) : Prop where
  adjacency : adjacency.LaysRows isUndirected shards
  /-- There is a table of runs for every property. -/
  values : ∃ tables : Nat → RunTable, (∀ column, (tables column).Lays (columnRuns column shards)) ∧
    values = p.properties.mapIdx fun column property =>
      (property.key, ⟨tables column, property.defaultValue⟩)

/-- The tables that shards write one after another. -/
theorem sideLays_ofRows (p : Projection) (isUndirected : Bool) (shards : List (List (List Row))) :
    SideLays p isUndirected shards (.ofRows isUndirected shards)
      (RelationshipLoader.valueTables p shards) :=
  ⟨Adjacency.laysRows_ofRows isUndirected shards,
    fun column => .ofShards (columnRuns column shards), fun _ => RunTable.lays_ofShards _, rfl⟩

namespace SideLays

variable {p : Projection} {isUndirected : Bool} {adjacency : Adjacency}
  {values : List (String × ValueTable)}

/-- The properties of a side have the keys of its projection. -/
theorem keys {shards : List (List (List Row))}
    (h : SideLays p isUndirected shards adjacency values) : names values = p.keys := by
  obtain ⟨tables, -, rfl⟩ := h.values
  exact List.ext_getElem (by simp [names, Projection.keys]) (by simp [names, Projection.keys])

/-- The tables of arranged rows hold them. -/
theorem holds (hvalid : p.validate = .ok ()) {n size : Nat} (hsize : 0 < size)
    {rows stored : Nat → List Row}
    (h : SideLays p isUndirected (cutRows n size stored) adjacency values)
    (hvalues : ∀ node, ∀ row ∈ rows node, row.values.length = p.aggregations.length)
    (harranged : ∀ node,
      Row.arrange p.aggregation.collapses p.aggregations (rows node) = .ok (stored node))
    (htargets : ∀ node, (stored node).map Row.target =
      storedTargets p.aggregation.collapses ((rows node).map Row.target))
    (hfit : RowsFit p n rows) : SideHolds p n rows stored adjacency values where
  arranged := harranged
  map_target := htargets
  adjacency := by
    refine h.adjacency.stores (flatten_cutRows n hsize stored) ?_ ?_
    · intro node _
      rw [htargets]
      exact pairwise_storedTargets ..
    · intro node hnode
      have hlen := hfit node hnode
      rwa [← htargets, List.length_map] at hlen
  keys := h.keys
  values {key table} hlookup := by
    obtain ⟨tables, htables, rfl⟩ := h.values
    obtain ⟨column, property, hcolumn, rfl⟩ :=
      RelationshipLoader.lookup_mapIdx p.properties hlookup
    obtain ⟨hlt, -⟩ := List.idxOf?_eq_some_iff.mp hcolumn
    have hcolumns : ∀ node, Row.column column (stored node) =
        (stored node).map (Row.valueOf column) := by
      refine fun node => Row.column_eq_map fun row hrow => ?_
      rw [Row.length_values_of_arrange (fun hc => Projection.collapses_of_validate hvalid hc)
        (hvalues node) (harranged node) row hrow]
      simpa [Projection.aggregations] using hlt
    refine ⟨column, hcolumn, ?_⟩
    rw [← funext hcolumns]
    exact ValueTable.stores_of_lays (htables column) (flatten_cutRows n hsize stored)

end SideLays

/-- The tables of a type hold the rows of some relationships, on each side that is stored. -/
structure TypeTables.Holds (t : TypeTables) (p : Projection) (n : Nat) (arrivals : List Arrival) :
    Prop where
  outgoing : ∃ stored,
    SideHolds p n (Arrival.rows p.pairs arrivals) stored t.outgoing t.outgoingValues
  isUndirected : t.outgoing.isUndirected = decide (p.orientation = .undirected)
  isSome_incoming : t.incoming.isSome = p.storesInverse
  incoming : ∀ {side}, t.incoming = some side → side.isUndirected = false ∧ ∃ stored,
    SideHolds p n (Arrival.rows p.inversePairs arrivals) stored side t.incomingValues

/-- The tables of a type, wherever in their pages the runs of some rows lie. -/
structure TypeTables.Lays (t : TypeTables) (p : Projection)
    (outgoing incoming : List (List (List Row))) : Prop where
  outgoing : SideLays p (p.orientation = .undirected) outgoing t.outgoing t.outgoingValues
  isSome_incoming : t.incoming.isSome = p.storesInverse
  incoming : ∀ {side}, t.incoming = some side → SideLays p false incoming side t.incomingValues

/-- The tables of the rows of some relationships hold them. -/
theorem TypeTables.Lays.holds {t : TypeTables} {p : Projection} (hvalid : p.validate = .ok ())
    {n size : Nat} (hsize : 0 < size) {arrivals : List Arrival} {outRows inRows : Nat → List Row}
    (h : t.Lays p (cutRows n size outRows) (cutRows n size inRows))
    (hproper : ∀ a ∈ arrivals, a.Proper n p)
    (hout : ∀ node, Row.arrange p.aggregation.collapses p.aggregations
      (Arrival.rows p.pairs arrivals node) = .ok (outRows node))
    (hin : ∀ node, Row.arrange p.aggregation.collapses p.aggregations
      (Arrival.rows p.inversePairs arrivals node) = .ok (inRows node))
    (houtTargets : ∀ node, (outRows node).map Row.target =
      storedTargets p.aggregation.collapses ((Arrival.rows p.pairs arrivals node).map Row.target))
    (hinTargets : ∀ node, (inRows node).map Row.target = storedTargets p.aggregation.collapses
      ((Arrival.rows p.inversePairs arrivals node).map Row.target))
    (hfit : SidesFit p n arrivals) : t.Holds p n arrivals := by
  refine ⟨⟨outRows, ?_⟩, h.outgoing.adjacency.isUndirected, h.isSome_incoming,
    fun hside => ⟨(h.incoming hside).adjacency.isUndirected, inRows, ?_⟩⟩
  · exact h.outgoing.holds hvalid hsize (fun _ => Arrival.length_values_rows hproper) hout
      houtTargets hfit.outgoing
  · have hinverse : p.storesInverse = true := by
      rw [← h.isSome_incoming, hside]
      rfl
    exact (h.incoming hside).holds hvalid hsize (fun _ => Arrival.length_values_rows hproper)
      hin hinTargets (hfit.incoming hinverse)

/-! ## Building -/

namespace RelationshipLoader

section Arranged

variable {p : Projection} {n size : Nat} {calls : List (Nat × Row)} {stored : Nat → List Row}
  (hcalls : ShardedRows.Takes n p.properties.length calls) (hsize : 0 < size)
  (hstored : ∀ node, Row.arrange p.aggregation.collapses p.aggregations (Row.ofCalls calls node) =
    .ok (stored node))

include hcalls hsize hstored

/-- The rows of every node are stored as they are arranged, if a degree can count them. -/
theorem arranged_eq_mapM : arranged p n (.ofCalls n size calls) =
    (cutRows n size stored).mapM fun nodes => nodes.mapM fun rows =>
      if rows.length < UInt32.size then .ok rows else .error (.resourceExhausted rows.length) := by
  rw [arranged, ShardedRows.shardRows_ofCalls hcalls hsize, settleShards, cutRows, cutRows,
    List.mapM_map, List.mapM_map]
  refine congrArg (List.mapM · _) (funext fun r => ?_)
  rw [Function.comp_apply, Function.comp_apply, List.mapM_map, List.mapM_map]
  exact congrArg (List.mapM · _) (funext fun node => Row.settle_sort (hstored node))

theorem arranged_eq_ok (hfit : ∀ node < n, (stored node).length < UInt32.size) :
    arranged p n (.ofCalls n size calls) = .ok (cutRows n size stored) := by
  have hrows : ∀ nodes ∈ cutRows n size stored, ∀ rows ∈ nodes, rows.length < UInt32.size := by
    intro nodes hnodes rows hrows
    have hmem := List.mem_flatten.mpr ⟨nodes, hnodes, hrows⟩
    rw [flatten_cutRows n hsize] at hmem
    obtain ⟨node, hnode, rfl⟩ := List.mem_map.mp hmem
    exact hfit node (List.mem_range.mp hnode)
  rw [arranged_eq_mapM hcalls hsize hstored]
  refine (mapM_eq_ok (g := id) fun nodes hnodes => ?_).trans (congrArg _ (List.map_id _))
  refine (mapM_eq_ok (g := id) fun rows hmem => ?_).trans (congrArg _ (List.map_id _))
  exact if_pos (hrows nodes hnodes rows hmem)

/-- The only error is that a degree cannot count the rows of a node. -/
theorem of_arranged_eq_error {e : GraphError}
    (h : arranged p n (.ofCalls n size calls) = .error e) :
    ∃ node < n, UInt32.size ≤ (stored node).length ∧
      e = .resourceExhausted (stored node).length := by
  rw [arranged_eq_mapM hcalls hsize hstored] at h
  obtain ⟨nodes, hnodes, h⟩ := exists_of_mapM_eq_error h
  obtain ⟨rows, hrows, h⟩ := exists_of_mapM_eq_error h
  have hmem := List.mem_flatten.mpr ⟨nodes, hnodes, hrows⟩
  rw [flatten_cutRows n hsize] at hmem
  obtain ⟨node, hnode, rfl⟩ := List.mem_map.mp hmem
  split at h
  · cases h
  · next hlong =>
    exact ⟨node, List.mem_range.mp hnode, Nat.not_lt.mp hlong, (Except.error.inj h).symm⟩

theorem length_lt_of_arranged_eq_ok {shards : List (List (List Row))}
    (h : arranged p n (.ofCalls n size calls) = .ok shards) :
    ∀ node < n, (stored node).length < UInt32.size := by
  intro node hnode
  have hmem : stored node ∈ (cutRows n size stored).flatten := by
    rw [flatten_cutRows n hsize]
    exact List.mem_map_of_mem (List.mem_range.mpr hnode)
  obtain ⟨nodes, hnodes, hrows⟩ := List.mem_flatten.mp hmem
  rw [arranged_eq_mapM hcalls hsize hstored] at h
  obtain ⟨_, hshard⟩ := exists_mapM_eq_ok_iff.mp ⟨_, h⟩ nodes hnodes
  obtain ⟨_, hrow⟩ := exists_mapM_eq_ok_iff.mp ⟨_, hshard⟩ _ hrows
  by_contra hlong
  rw [if_neg hlong] at hrow
  cases hrow

end Arranged

section Built

variable {m : Numbering} {p : Projection} {arrivals : List Arrival}
  {outRows inRows : Nat → List Row}
  (hproper : ∀ a ∈ arrivals, a.Proper m.nodeCount p)
  (hout : ∀ node, Row.arrange p.aggregation.collapses p.aggregations
    (Arrival.rows p.pairs arrivals node) = .ok (outRows node))
  (hin : ∀ node, Row.arrange p.aggregation.collapses p.aggregations
    (Arrival.rows p.inversePairs arrivals node) = .ok (inRows node))

include hproper hout hin

/-- Building writes the tables of the arranged rows, if a degree can count them. -/
theorem exists_build_lays (workers : Nat)
    (houtFit : ∀ node < m.nodeCount, (outRows node).length < UInt32.size)
    (hinFit : p.storesInverse = true → ∀ node < m.nodeCount,
      (inRows node).length < UInt32.size) :
    let size := nodesPerShard m.nodeCount workers
    ∃ t, ((blank m p workers).pushAll arrivals).build = .ok t ∧
      t.Lays p (cutRows m.nodeCount size outRows) (cutRows m.nodeCount size inRows) := by
  have hsize := nodesPerShard_pos m.nodeCount workers
  simp only [← Arrival.ofCalls_calls] at hout hin
  rw [pushAll_blank]
  simp only [build, holding,
    arranged_eq_ok (Arrival.takes_pairs hproper) hsize hout houtFit]
  cases hinverse : p.storesInverse with
  | false =>
    refine ⟨_, rfl, sideLays_ofRows .., hinverse.symm, fun hside => ?_⟩
    cases hside
  | true =>
    simp only [if_true, Option.mapM_some,
      arranged_eq_ok (Arrival.takes_inversePairs hproper) hsize hin (hinFit hinverse)]
    refine ⟨_, rfl, sideLays_ofRows .., hinverse.symm, fun hside => ?_⟩
    cases hside
    exact sideLays_ofRows ..

/-- A build succeeds only if degrees can count the arranged rows. -/
theorem length_lt_of_build_eq_ok {workers : Nat} {t : TypeTables}
    (h : ((blank m p workers).pushAll arrivals).build = .ok t) :
    (∀ node < m.nodeCount, (outRows node).length < UInt32.size) ∧
      (p.storesInverse = true → ∀ node < m.nodeCount, (inRows node).length < UInt32.size) := by
  have hsize := nodesPerShard_pos m.nodeCount workers
  simp only [← Arrival.ofCalls_calls] at hout hin
  rw [pushAll_blank, build] at h
  obtain ⟨outgoing, houtgoing, h⟩ := bind_eq_ok h
  obtain ⟨incoming, hincoming, -⟩ := bind_eq_ok h
  refine ⟨length_lt_of_arranged_eq_ok (Arrival.takes_pairs hproper) hsize hout houtgoing,
    fun hinverse => ?_⟩
  rw [holding, if_pos hinverse, Option.mapM_some] at hincoming
  obtain ⟨shards, hshards, -⟩ := bind_eq_ok hincoming
  exact length_lt_of_arranged_eq_ok (Arrival.takes_inversePairs hproper) hsize hin hshards

/-- It fails only if a degree cannot count the rows of a node. -/
theorem of_build_eq_error {workers : Nat} {e : GraphError}
    (h : ((blank m p workers).pushAll arrivals).build = .error e) :
    ∃ node < m.nodeCount,
      (UInt32.size ≤ (outRows node).length ∧ e = .resourceExhausted (outRows node).length) ∨
        p.storesInverse = true ∧ UInt32.size ≤ (inRows node).length ∧
          e = .resourceExhausted (inRows node).length := by
  have hsize := nodesPerShard_pos m.nodeCount workers
  simp only [← Arrival.ofCalls_calls] at hout hin
  rw [pushAll_blank, build] at h
  rcases bind_eq_error h with h | ⟨outgoing, -, h⟩
  · obtain ⟨node, hnode, hlong⟩ :=
      of_arranged_eq_error (Arrival.takes_pairs hproper) hsize hout h
    exact ⟨node, hnode, Or.inl hlong⟩
  rcases bind_eq_error h with h | ⟨incoming, -, h⟩
  · cases hinverse : p.storesInverse with
    | false =>
      rw [holding, hinverse] at h
      cases h
    | true =>
      rw [holding, if_pos hinverse, Option.mapM_some] at h
      rcases bind_eq_error h with h | ⟨shards, -, h⟩
      · obtain ⟨node, hnode, hlong⟩ :=
          of_arranged_eq_error (Arrival.takes_inversePairs hproper) hsize hin h
        exact ⟨node, hnode, Or.inr ⟨rfl, hlong⟩⟩
      · cases h
  · cases h

end Built

end RelationshipLoader

namespace RelationshipLoader

variable {m : Numbering} {p : Projection} {workers : Nat} {arrivals : List Arrival}

/-- A loader that relationships were stored in can be built. -/
theorem exists_build (workers : Nat) (hvalid : p.validate = .ok ())
    (hproper : ∀ a ∈ arrivals, a.Proper m.nodeCount p) (hfit : SidesFit p m.nodeCount arrivals) :
    ∃ tables, ((blank m p workers).pushAll arrivals).build = .ok tables ∧
      tables.Holds p m.nodeCount arrivals := by
  have hsize := nodesPerShard_pos m.nodeCount workers
  obtain ⟨outRows, hout, houtTargets⟩ := exists_arranged hvalid (Arrival.rows p.pairs arrivals)
  obtain ⟨inRows, hin, hinTargets⟩ :=
    exists_arranged hvalid (Arrival.rows p.inversePairs arrivals)
  have hlength : ∀ {rows stored : Nat → List Row}, RowsFit p m.nodeCount rows →
      (∀ node, (stored node).map Row.target =
        storedTargets p.aggregation.collapses ((rows node).map Row.target)) →
      ∀ node < m.nodeCount, (stored node).length < UInt32.size := by
    intro rows stored hrows htargets node hnode
    have hlt := hrows node hnode
    rwa [← htargets, List.length_map] at hlt
  obtain ⟨tables, hbuild, hlays⟩ := exists_build_lays hproper hout hin workers
    (hlength hfit.outgoing houtTargets) fun hinverse => hlength (hfit.incoming hinverse) hinTargets
  exact ⟨tables, hbuild,
    hlays.holds hvalid hsize hproper hout hin houtTargets hinTargets hfit⟩

/-- What is built can be counted by degrees. -/
theorem sidesFit_of_build_eq_ok (hvalid : p.validate = .ok ())
    (hproper : ∀ a ∈ arrivals, a.Proper m.nodeCount p) {t : TypeTables}
    (h : ((blank m p workers).pushAll arrivals).build = .ok t) :
    SidesFit p m.nodeCount arrivals := by
  obtain ⟨outRows, houtRows, houtTargets⟩ := exists_arranged hvalid (Arrival.rows p.pairs arrivals)
  obtain ⟨inRows, hinRows, hinTargets⟩ :=
    exists_arranged hvalid (Arrival.rows p.inversePairs arrivals)
  obtain ⟨hout, hin⟩ := length_lt_of_build_eq_ok hproper houtRows hinRows h
  refine ⟨fun node hnode => ?_, fun hinverse node hnode => ?_⟩
  · rw [← houtTargets, List.length_map]
    exact hout node hnode
  · rw [← hinTargets, List.length_map]
    exact hin hinverse node hnode

/-- In a valid projection a build fails in one way only. -/
theorem exists_of_build_eq_error (hvalid : p.validate = .ok ())
    (hproper : ∀ a ∈ arrivals, a.Proper m.nodeCount p) {e : GraphError}
    (h : ((blank m p workers).pushAll arrivals).build = .error e) :
    ∃ degree, UInt32.size ≤ degree ∧ e = .resourceExhausted degree := by
  obtain ⟨outRows, houtRows, -⟩ := exists_arranged hvalid (Arrival.rows p.pairs arrivals)
  obtain ⟨inRows, hinRows, -⟩ := exists_arranged hvalid (Arrival.rows p.inversePairs arrivals)
  obtain ⟨node, -, ⟨hlong, he⟩ | ⟨-, hlong, he⟩⟩ := of_build_eq_error hproper houtRows hinRows h
  · exact ⟨_, hlong, he⟩
  · exact ⟨_, hlong, he⟩

/-- What is built holds the relationships. -/
theorem holds_of_build_eq_ok (hvalid : p.validate = .ok ())
    (hproper : ∀ a ∈ arrivals, a.Proper m.nodeCount p) {t : TypeTables}
    (h : ((blank m p workers).pushAll arrivals).build = .ok t) :
    t.Holds p m.nodeCount arrivals := by
  obtain ⟨tables, htables, hholds⟩ :=
    exists_build workers hvalid hproper (sidesFit_of_build_eq_ok hvalid hproper h)
  rw [h] at htables
  cases htables
  exact hholds

end RelationshipLoader

end PagedGraph
