import PagedGraph.Adjacency.Estimate
import PagedGraph.Proofs.Load.RoundTrip
import PagedGraph.Proofs.Load.Sizes

/-!
# The size of what is loaded

The bytes and pages of loaded relationships follow from the targets that are stored for
every node, and the pages also from the shards.  `Adjacency.Sized` says how, and
`SideSized` adds the properties, which take eight bytes for every relationship.

Calls between nodes are loaded into tables of these sizes (`Built.sized`).
-/

namespace PagedGraph

/-! ## Runs -/

/-- The bytes of a run of targets, none for no targets. -/
def runLength (targets : List Nat) : Nat :=
  if targets = [] then 0 else degreeHeader + Leb128.deltaSize targets

theorem length_targetRun (targets : List Nat) : (targetRun targets).length = runLength targets := by
  cases targets with
  | nil => rfl
  | cons t rest =>
    rw [runLength, if_neg (List.cons_ne_nil _ _), targetRun]
    simp

/-- The lengths of the runs of every shard. -/
def runLengths (shards : List NodeRange) (targets : Nat → List Nat) : List (List Nat) :=
  shards.map fun shard => shard.nodes.map fun node => runLength (targets node)

theorem flatten_runLengths (n : Nat) {size : Nat} (hsize : 0 < size) (targets : Nat → List Nat) :
    (runLengths (cutRanges n size) targets).flatten =
      (List.range n).map fun node => runLength (targets node) := by
  rw [← flatMap_nodes_cutRanges n hsize, List.map_flatMap, runLengths, ← List.flatMap_def]

/-! ## Sides -/

/-- The size of an adjacency of some targets, whose runs were written shard by shard. -/
structure Adjacency.Sized (t : Adjacency) (n : Nat) (shards : List NodeRange)
    (targets : Nat → List Nat) : Prop where
  nodeCount : t.nodeCount = n
  relationshipCount : t.relationshipCount = addUp ((List.range n).map fun u => (targets u).length)
  byteSize : t.pages.byteSize = addUp ((List.range n).map fun u => runLength (targets u))
  pageCount : t.pages.pageCount = 1 + (pageSizes (runLengths shards targets)).length

theorem Adjacency.LaysRows.sized {t : Adjacency} {isUndirected : Bool} {n size : Nat}
    (hsize : 0 < size) {stored : Nat → List Row} {targets : Nat → List Nat}
    (h : t.LaysRows isUndirected (cutRows n size stored))
    (htargets : ∀ node, (stored node).map Row.target = targets node) :
    t.Sized n (cutRanges n size) targets := by
  have hlengths : (targetRuns (cutRows n size stored)).map (fun runs => runs.map List.length) =
      runLengths (cutRanges n size) targets := by
    simp only [targetRuns, cutRows, runLengths, List.map_map, Function.comp_def, length_targetRun,
      htargets]
  have hrows := flatten_cutRows n hsize stored
  constructor
  case nodeCount =>
    refine h.runs.size_offsets.trans ?_
    rw [targetRuns, flatten_map_map, List.length_map, length_of_flatten_eq hrows]
  case relationshipCount =>
    rw [h.relationshipCount_eq, hrows, List.map_map]
    simp only [Function.comp_def, ← htargets, List.length_map]
  case byteSize =>
    rw [h.runs.byteSize, List.map_flatten, hlengths, flatten_runLengths n hsize]
  case pageCount =>
    rw [h.runs.pageCount, hlengths]

/-- A property takes eight bytes for every relationship, and its offset table. -/
theorem RunTable.Lays.byteSize_columnRuns {t : RunTable} {column n size : Nat} (hsize : 0 < size)
    {stored : Nat → List Row} (h : t.Lays (columnRuns column (cutRows n size stored)))
    (hcolumn : ∀ node, ∀ row ∈ stored node, column < row.values.length) :
    t.byteSize = estimateValues n (addUp ((List.range n).map fun u => (stored u).length)) := by
  have hrows := flatten_cutRows n hsize stored
  have hoffsets : t.offsets.size = n := by
    refine h.size_offsets.trans ?_
    rw [columnRuns, flatten_map_map, List.length_map, length_of_flatten_eq hrows]
  have hpages : t.pages.byteSize = addUp ((List.range n).map fun u => (stored u).length) * 8 := by
    rw [h.byteSize, columnRuns, flatten_map_map, hrows, List.map_map, List.map_map, ← addUp_map_mul]
    simp only [Function.comp_def, PageTable.length_valueRun, Row.column_eq_map (hcolumn _),
      List.length_map, Nat.mul_comm 8]
  rw [RunTable.byteSize, RunTable.offsetTableBytes, hoffsets, hpages, estimateValues]

/-- The size of one side: of its adjacency, and of one table for each property. -/
structure SideSized (p : Projection) (n : Nat) (shards : List NodeRange) (targets : Nat → List Nat)
    (side : Adjacency) (values : List (String × ValueTable)) : Prop where
  adjacency : side.Sized n shards targets
  keys : names values = p.keys
  values : ∀ entry ∈ values, entry.2.byteSize = estimateValues n side.relationshipCount

theorem SideLays.sized {p : Projection} {isUndirected : Bool} {n size : Nat} (hsize : 0 < size)
    {stored : Nat → List Row} {side : Adjacency} {values : List (String × ValueTable)}
    (h : SideLays p isUndirected (cutRows n size stored) side values) {targets : Nat → List Nat}
    (htargets : ∀ node, (stored node).map Row.target = targets node)
    (hvalues : ∀ node, ∀ row ∈ stored node, row.values.length = p.aggregations.length) :
    SideSized p n (cutRanges n size) targets side values where
  adjacency := h.adjacency.sized hsize htargets
  keys := h.keys
  values entry hentry := by
    obtain ⟨tables, htables, rfl⟩ := h.values
    obtain ⟨column, hcolumn, rfl⟩ := List.mem_mapIdx.mp hentry
    rw [(h.adjacency.sized hsize htargets).relationshipCount]
    simp only [← htargets, List.length_map]
    refine (htables column).byteSize_columnRuns hsize fun node row hrow => ?_
    rwa [hvalues node row hrow, Projection.aggregations, List.length_map]

/-! ## Calls -/

/-- The sizes of the tables that calls are loaded into. -/
structure TypeTables.Sized (t : TypeTables) (p : Projection) (n : Nat) (shards : List NodeRange)
    (calls : List AddCall) : Prop where
  outgoing : SideSized p n shards (p.storedOutgoing calls) t.outgoing t.outgoingValues
  /-- The incoming side is built if the projection stores it. -/
  isSome_incoming : t.incoming.isSome = p.storesInverse
  incoming : ∀ side, t.incoming = some side →
    SideSized p n shards (p.storedIncoming calls) side t.incomingValues

/-- An incoming side is there only if the projection stores one. -/
theorem TypeTables.Sized.storesInverse {t : TypeTables} {p : Projection} {n : Nat}
    {shards : List NodeRange} {calls : List AddCall} (h : t.Sized p n shards calls)
    {side : Adjacency} (hside : t.incoming = some side) : p.storesInverse = true := by
  rw [← h.isSome_incoming, hside]
  rfl

/-- The tables of the rows of calls have the sizes that the stored targets ask for. -/
theorem TypeTables.Lays.sized {t : TypeTables} {p : Projection} (hvalid : p.validate = .ok ())
    {n size : Nat} (hsize : 0 < size) {calls : List AddCall} {outRows inRows : Nat → List Row}
    (h : t.Lays p (cutRows n size outRows) (cutRows n size inRows))
    (hproper : ∀ a ∈ calls.map (AddCall.arrival p), a.Proper n p)
    (hout : ∀ node, Row.arrange p.aggregation.collapses p.aggregations
      (Arrival.rows p.pairs (calls.map (AddCall.arrival p)) node) = .ok (outRows node))
    (hin : ∀ node, Row.arrange p.aggregation.collapses p.aggregations
      (Arrival.rows p.inversePairs (calls.map (AddCall.arrival p)) node) = .ok (inRows node))
    (houtTargets : ∀ node, (outRows node).map Row.target =
      storedTargets p.aggregation.collapses
        ((Arrival.rows p.pairs (calls.map (AddCall.arrival p)) node).map Row.target))
    (hinTargets : ∀ node, (inRows node).map Row.target =
      storedTargets p.aggregation.collapses
        ((Arrival.rows p.inversePairs (calls.map (AddCall.arrival p)) node).map Row.target)) :
    t.Sized p n (cutRanges n size) calls := by
  have hstored : ∀ {pairs : Nat → Nat → List (Nat × Nat)} {stored : Nat → List Row},
      (∀ node, Row.arrange p.aggregation.collapses p.aggregations
        (Arrival.rows pairs (calls.map (AddCall.arrival p)) node) = .ok (stored node)) →
      ∀ node, ∀ row ∈ stored node, row.values.length = p.aggregations.length :=
    fun harranged node => Row.length_values_of_arrange
      (fun hc => Projection.collapses_of_validate hvalid hc)
      (Arrival.length_values_rows hproper) (harranged node)
  refine ⟨?_, h.isSome_incoming, fun side hside => ?_⟩
  · refine h.outgoing.sized hsize (fun node => ?_) (hstored hout)
    rw [houtTargets, p.map_target_outgoing, ← p.stored_eq, Projection.storedOutgoing]
  · have hinverse : p.storesInverse = true := by
      rw [← h.isSome_incoming, hside]
      rfl
    refine (h.incoming hside).sized hsize (fun node => ?_) (hstored hin)
    rw [hinTargets, Projection.map_target_incoming hinverse, ← p.stored_eq,
      Projection.storedIncoming]

/-- Calls between nodes are loaded into tables of the sizes that the stored targets ask for. -/
theorem Built.sized {m : Numbering} {p : Projection} {workers : Nat} {calls : List AddCall}
    {tables : TypeTables} (h : Built m p workers calls tables)
    (hends : ∀ call ∈ calls, call.source < m.nodeCount ∧ call.target < m.nodeCount)
    (hvalues : ∀ call ∈ calls, (call.arrival p).values.length = p.properties.length) :
    tables.Sized p m.nodeCount (shardsOf m.nodeCount workers) calls := by
  have hsize := nodesPerShard_pos m.nodeCount workers
  obtain ⟨blank, filled, hblank, hfilled, hbuild⟩ := h
  obtain ⟨-, hvalid, rfl⟩ := RelationshipLoader.of_create_eq_ok hblank
  have hproper := RelationshipLoader.proper_arrival hends hvalues
  rw [RelationshipLoader.foldlM_run?_eq_some hproper] at hfilled
  cases hfilled
  replace hproper := List.forall_mem_map.mpr hproper
  obtain ⟨outRows, hout, houtTargets⟩ :=
    exists_arranged hvalid (Arrival.rows p.pairs (calls.map (AddCall.arrival p)))
  obtain ⟨inRows, hin, hinTargets⟩ :=
    exists_arranged hvalid (Arrival.rows p.inversePairs (calls.map (AddCall.arrival p)))
  obtain ⟨houtFit, hinFit⟩ := RelationshipLoader.length_lt_of_build_eq_ok hproper hout hin hbuild
  obtain ⟨built, hbuilt, hlays⟩ :=
    RelationshipLoader.exists_build_lays hproper hout hin workers houtFit hinFit
  obtain rfl := Except.ok.inj (hbuild.symm.trans hbuilt)
  exact hlays.sized hvalid hsize hproper hout hin houtTargets hinTargets

end PagedGraph
