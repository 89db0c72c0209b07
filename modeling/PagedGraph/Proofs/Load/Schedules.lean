import PagedGraph.Proofs.Load.Aligned
import PagedGraph.Proofs.Load.Layout
import PagedGraph.Proofs.Load.Turns

/-!
# Builds whose shards take turns

`RelationshipLoader.build` writes the shards of every table one after another.  Workers write
them at the same time, every table with a counter of its own, so a build may leave any
tables whose shards took turns.  `RelationshipLoader.MayBuild l t` says that the tables `t` are
such.

* The tables of `RelationshipLoader.build` are (`mayBuild_of_build_eq_ok`).
* All of them hold the same rows (`MayBuild.holds`), and have the same sizes
  (`MayBuild.sized`).

So the tables of calls read back the same targets and values whatever the order of turns was,
and nothing but the places of the runs depends on it (`exists_aligned_of_mayBeBuilt`).
-/

namespace PagedGraph

/-- The tables of one side, whose shards took turns in some order for each. -/
structure SideWritten (p : Projection) (isUndirected : Bool) (shards : List (List (List Row)))
    (adjacency : Adjacency) (values : List (String × ValueTable)) : Prop where
  adjacency : ∃ table : RunTable, table.Written (targetRuns shards) ∧
    adjacency = { Adjacency.ofRows isUndirected shards with toRunTable := table }
  values : ∃ tables : Nat → RunTable,
    (∀ column, (tables column).Written (columnRuns column shards)) ∧
      values = p.properties.mapIdx fun column property =>
        (property.key, ⟨tables column, property.defaultValue⟩)

/-- Shards that write one after another. -/
theorem sideWritten_ofRows (p : Projection) (isUndirected : Bool)
    (shards : List (List (List Row))) :
    SideWritten p isUndirected shards (.ofRows isUndirected shards)
      (RelationshipLoader.valueTables p shards) :=
  ⟨⟨_, RunTable.written_ofShards _, rfl⟩,
    fun column => .ofShards (columnRuns column shards), fun _ => RunTable.written_ofShards _, rfl⟩

theorem SideWritten.lays {p : Projection} {isUndirected : Bool} {shards : List (List (List Row))}
    {adjacency : Adjacency} {values : List (String × ValueTable)}
    (h : SideWritten p isUndirected shards adjacency values) :
    SideLays p isUndirected shards adjacency values := by
  obtain ⟨⟨table, htable, rfl⟩, tables, htables, rfl⟩ := h
  exact ⟨⟨htable.lays, rfl, rfl⟩, tables, fun column => (htables column).lays, rfl⟩

namespace RelationshipLoader

/-- The tables that the shards of a loader may leave. -/
def MayBuild (l : RelationshipLoader) (t : TypeTables) : Prop :=
  ∃ outgoing incoming,
    arranged l.projection l.numbering.nodeCount l.outgoing = .ok outgoing ∧
    l.incoming.mapM (arranged l.projection l.numbering.nodeCount) = .ok incoming ∧
    SideWritten l.projection (l.projection.orientation = .undirected) outgoing t.outgoing
      t.outgoingValues ∧
    match incoming with
    | none => t.incoming = none ∧ t.incomingValues = []
    | some shards => ∃ side, t.incoming = some side ∧
      SideWritten l.projection false shards side t.incomingValues

/-- What is built is what shards leave that write one after another. -/
theorem mayBuild_of_build_eq_ok {l : RelationshipLoader} {t : TypeTables} (h : l.build = .ok t) :
    l.MayBuild t := by
  rw [build] at h
  obtain ⟨outgoing, houtgoing, h⟩ := bind_eq_ok h
  obtain ⟨incoming, hincoming, h⟩ := bind_eq_ok h
  cases h
  refine ⟨outgoing, incoming, houtgoing, hincoming, sideWritten_ofRows .., ?_⟩
  cases incoming with
  | none => exact ⟨rfl, rfl⟩
  | some shards => exact ⟨_, rfl, sideWritten_ofRows ..⟩

/-- Whether a build succeeds does not depend on the turns. -/
theorem MayBuild.exists_build {l : RelationshipLoader} {t : TypeTables} (h : l.MayBuild t) :
    ∃ built, l.build = .ok built := by
  obtain ⟨outgoing, incoming, houtgoing, hincoming, -⟩ := h
  rw [build]
  simp only [houtgoing, hincoming]
  exact ⟨_, rfl⟩

variable {m : Numbering} {p : Projection} {workers : Nat} {arrivals : List Arrival}

/-- What a loader may build lays the rows of every node as they are arranged. -/
theorem MayBuild.lays (hproper : ∀ a ∈ arrivals, a.Proper m.nodeCount p) {t : TypeTables}
    (h : ((blank m p workers).pushAll arrivals).MayBuild t) {outRows inRows : Nat → List Row}
    (hout : ∀ node, Row.arrange p.aggregation.collapses p.aggregations
      (Arrival.rows p.pairs arrivals node) = .ok (outRows node))
    (hin : ∀ node, Row.arrange p.aggregation.collapses p.aggregations
      (Arrival.rows p.inversePairs arrivals node) = .ok (inRows node)) :
    let size := nodesPerShard m.nodeCount workers
    t.Lays p (cutRows m.nodeCount size outRows) (cutRows m.nodeCount size inRows) := by
  intro size
  have hsize : 0 < size := nodesPerShard_pos m.nodeCount workers
  obtain ⟨built, hbuilt⟩ := h.exists_build
  obtain ⟨houtFit, hinFit⟩ := length_lt_of_build_eq_ok hproper hout hin hbuilt
  simp only [← Arrival.ofCalls_calls] at hout hin
  rw [pushAll_blank] at h
  obtain ⟨outgoing, incoming, houtgoing, hincoming, hwritten, hinverse⟩ := h
  have houtRows := arranged_eq_ok (Arrival.takes_pairs hproper) hsize hout houtFit
  obtain rfl := Except.ok.inj (houtgoing.symm.trans houtRows)
  cases hstores : p.storesInverse with
  | false =>
    rw [holding, hstores] at hincoming
    cases hincoming
    refine ⟨hwritten.lays, ?_, fun hside => ?_⟩
    · rw [hinverse.1, hstores]
      rfl
    · rw [hinverse.1] at hside
      cases hside
  | true =>
    have hinRows := arranged_eq_ok (Arrival.takes_inversePairs hproper) hsize hin (hinFit hstores)
    rw [holding, if_pos hstores, Option.mapM_some, hinRows] at hincoming
    cases hincoming
    obtain ⟨side, hside, hlays⟩ := hinverse
    refine ⟨hwritten.lays, ?_, fun hother => ?_⟩
    · rw [hside, hstores]
      rfl
    · obtain rfl := Option.some.inj (hside.symm.trans hother)
      exact hlays.lays

/-- Whatever a loader may build holds the relationships. -/
theorem MayBuild.holds (hvalid : p.validate = .ok ())
    (hproper : ∀ a ∈ arrivals, a.Proper m.nodeCount p) {t : TypeTables}
    (h : ((blank m p workers).pushAll arrivals).MayBuild t) : t.Holds p m.nodeCount arrivals := by
  obtain ⟨built, hbuilt⟩ := h.exists_build
  obtain ⟨outRows, hout, houtTargets⟩ := exists_arranged hvalid (Arrival.rows p.pairs arrivals)
  obtain ⟨inRows, hin, hinTargets⟩ :=
    exists_arranged hvalid (Arrival.rows p.inversePairs arrivals)
  exact (h.lays hproper hout hin).holds hvalid (nodesPerShard_pos m.nodeCount workers) hproper
    hout hin houtTargets hinTargets (sidesFit_of_build_eq_ok hvalid hproper hbuilt)

/-- Whatever a loader may build of calls has the sizes that the stored targets ask for. -/
theorem MayBuild.sized (hvalid : p.validate = .ok ()) {calls : List AddCall}
    (hproper : ∀ a ∈ calls.map (AddCall.arrival p), a.Proper m.nodeCount p) {t : TypeTables}
    (h : ((blank m p workers).pushAll (calls.map (AddCall.arrival p))).MayBuild t) :
    t.Sized p m.nodeCount (shardsOf m.nodeCount workers) calls := by
  obtain ⟨outRows, hout, houtTargets⟩ :=
    exists_arranged hvalid (Arrival.rows p.pairs (calls.map (AddCall.arrival p)))
  obtain ⟨inRows, hin, hinTargets⟩ :=
    exists_arranged hvalid (Arrival.rows p.inversePairs (calls.map (AddCall.arrival p)))
  exact (h.lays hproper hout hin).sized hvalid (nodesPerShard_pos m.nodeCount workers) hproper
    hout hin houtTargets hinTargets

end RelationshipLoader

/-! ## Calls -/

/-- The tables that calls may be loaded into. -/
def MayBeBuilt (m : Numbering) (p : Projection) (workers : Nat) (calls : List AddCall)
    (tables : TypeTables) : Prop :=
  ∃ blank filled, RelationshipLoader.create m p workers = .ok blank ∧
    calls.foldlM AddCall.run? blank = some filled ∧ filled.MayBuild tables

/-- What calls are loaded into when shards write one after another. -/
theorem Built.mayBeBuilt {m : Numbering} {p : Projection} {workers : Nat} {calls : List AddCall}
    {tables : TypeTables} (h : Built m p workers calls tables) :
    MayBeBuilt m p workers calls tables := by
  obtain ⟨blank, filled, hblank, hfilled, hbuild⟩ := h
  exact ⟨blank, filled, hblank, hfilled, RelationshipLoader.mayBuild_of_build_eq_ok hbuild⟩

/-- In whatever order shards take turns, calls are loaded into tables that read back the same
targets and the same values, and have the same sizes. -/
theorem exists_aligned_of_mayBeBuilt {m : Numbering} {p : Projection} {calls : List AddCall}
    (hvalid : p.validate = .ok ())
    (hends : ∀ call ∈ calls, call.source < m.nodeCount ∧ call.target < m.nodeCount)
    (hvalues : ∀ call ∈ calls, (call.arrival p).values.length = p.properties.length) :
    ∃ outgoing incoming : Nat → Nat → List Double,
      p.AlignedSide p.outgoingTargets calls outgoing ∧
      (p.storesInverse = true → p.AlignedSide p.incomingTargets calls incoming) ∧
      ∀ {workers : Nat} {tables : TypeTables}, MayBeBuilt m p workers calls tables →
        tables.Decodes m.nodeCount p calls ∧
        tables.Sized p m.nodeCount (shardsOf m.nodeCount workers) calls ∧
        p.ReadsValues m.nodeCount tables.outgoing tables.outgoingValues outgoing ∧
        ∀ side, tables.incoming = some side →
          p.ReadsValues m.nodeCount side tables.incomingValues incoming := by
  have hproper := RelationshipLoader.proper_arrival hends hvalues
  have harrivals := List.forall_mem_map.mpr hproper
  obtain ⟨outgoing, incoming, hout, hin, hreads⟩ := exists_readsValues hvalid harrivals
  refine ⟨outgoing, incoming, hout, hin, ?_⟩
  rintro workers tables ⟨blank, filled, hblank, hfilled, hbuilt⟩
  obtain ⟨-, -, rfl⟩ := RelationshipLoader.of_create_eq_ok hblank
  rw [RelationshipLoader.foldlM_run?_eq_some hproper] at hfilled
  cases hfilled
  have hholds := hbuilt.holds hvalid harrivals
  exact ⟨hholds.decodes, hbuilt.sized hvalid harrivals, hreads hholds⟩

end PagedGraph
