import PagedGraph.Proofs.Codec.Leb128
import PagedGraph.Proofs.Load.Layout
import PagedGraph.Proofs.Load.Loaded

/-!
# What an adjacency takes is as estimated

The bytes of all runs lie between the two ends of the estimate, since a target takes a byte
at least, and no more than the id of the last node.  There are no more runs than nodes, and
no more than relationships (`estimateAdjacency_runs`).

The result is `exists_built_estimated`.  Calls between nodes are loaded into tables whose
runs take what the stored targets ask for, and nothing else, whatever the number of workers.
This is in the estimated range, and what is estimated as one number is exact.
-/

namespace PagedGraph

/-- An amount is in a range. -/
def SizeRange.Contains (r : SizeRange) (amount : Nat) : Prop := r.min ≤ amount ∧ amount ≤ r.max

/-- A known amount may be added on both sides. -/
theorem SizeRange.contains_add_exactly {r : SizeRange} {amount : Nat} (h : r.Contains amount)
    (known : Nat) : (r.add (.exactly known)).Contains (amount + known) :=
  ⟨Nat.add_le_add_right h.1 known, Nat.add_le_add_right h.2 known⟩

/-! ## Runs -/

/-- The bytes in front of the targets of a run. -/
def headerLength (targets : List Nat) : Nat := if targets = [] then 0 else degreeHeader

theorem runLength_eq (targets : List Nat) :
    runLength targets = headerLength targets + Leb128.deltaSize targets := by
  rw [runLength, headerLength]
  split
  · next h => rw [h]; rfl
  · rfl

theorem headerLength_le (targets : List Nat) : headerLength targets ≤ degreeHeader := by
  rw [headerLength]
  split
  · exact Nat.zero_le _
  · exact Nat.le_refl _

theorem headerLength_le_mul (targets : List Nat) :
    headerLength targets ≤ targets.length * degreeHeader := by
  rw [headerLength]
  split
  · exact Nat.zero_le _
  · next h => exact Nat.le_mul_of_pos_left _ (List.length_pos_iff.mpr h)

variable {targets : Nat → List Nat}

/-- There are no more headers than nodes, and no more than targets. -/
theorem addUp_headerLength_le (nodes : List Nat) :
    addUp (nodes.map fun u => headerLength (targets u)) ≤
      min nodes.length (addUp (nodes.map fun u => (targets u).length)) * degreeHeader := by
  have hle : ∀ bytes ∈ nodes.map fun u => headerLength (targets u), bytes ≤ degreeHeader := by
    intro bytes hbytes
    obtain ⟨u, -, rfl⟩ := List.mem_map.mp hbytes
    exact headerLength_le (targets u)
  have hnodes := addUp_le_mul hle
  have htargets := addUp_map_le fun u (_ : u ∈ nodes) => headerLength_le_mul (targets u)
  rw [List.length_map] at hnodes
  rw [addUp_map_mul] at htargets
  rw [Nat.min_def]
  split
  · exact hnodes
  · exact htargets

/-- Where there is a target, there is a header. -/
theorem le_addUp_headerLength (nodes : List Nat)
    (h : 0 < addUp (nodes.map fun u => (targets u).length)) :
    degreeHeader ≤ addUp (nodes.map fun u => headerLength (targets u)) := by
  induction nodes with
  | nil => cases h
  | cons u rest ih =>
    rw [List.map_cons, addUp_cons] at h ⊢
    by_cases hu : targets u = []
    · rw [hu, List.length_nil, Nat.zero_add] at h
      exact Nat.le_trans (ih h) (Nat.le_add_left ..)
    · rw [headerLength, if_neg hu]
      exact Nat.le_add_right ..

/-- The runs of nodes whose targets are nodes take what is estimated. -/
theorem estimateAdjacency_runs {n : Nat} (htargets : ∀ u < n, ∀ t ∈ targets u, t < n) :
    (estimateAdjacency n (addUp ((List.range n).map fun u => (targets u).length))).runs.Contains
      (addUp ((List.range n).map fun u => runLength (targets u))) := by
  have hleast : addUp ((List.range n).map fun u => (targets u).length) ≤
      addUp ((List.range n).map fun u => Leb128.deltaSize (targets u)) :=
    addUp_map_le fun u _ => Leb128.length_le_deltaSize (targets u)
  have hmost : addUp ((List.range n).map fun u => Leb128.deltaSize (targets u)) ≤
      addUp ((List.range n).map fun u => (targets u).length) * Leb128.size (n - 1) := by
    rw [← addUp_map_mul]
    refine addUp_map_le fun u hu => Leb128.deltaSize_le fun t ht => ?_
    exact Nat.le_sub_one_of_lt (htargets u (List.mem_range.mp hu) t ht)
  have hheaders := @addUp_headerLength_le targets (List.range n)
  rw [List.length_range] at hheaders
  simp only [runLength_eq, addUp_map_add]
  constructor
  · simp only [estimateAdjacency]
    split
    · next hpos => exact Nat.add_le_add (le_addUp_headerLength _ hpos) hleast
    · rw [Nat.zero_add]
      exact Nat.le_trans hleast (Nat.le_add_left ..)
  · exact Nat.add_le_add hheaders hmost

/-! ## Sides -/

/-- What is estimated of an adjacency is what it takes. -/
structure Adjacency.Estimated (t : Adjacency) (n : Nat) (targets : Nat → List Nat) : Prop where
  /-- The pages hold a run for every node with targets, and nothing else. -/
  byteSize : t.pages.byteSize = addUp ((List.range n).map fun u =>
    if targets u = [] then 0 else degreeHeader + Leb128.deltaSize (targets u))
  runs : (estimateAdjacency n t.relationshipCount).runs.Contains t.pages.byteSize
  offsets : (estimateAdjacency n t.relationshipCount).offsets = t.offsetTableBytes
  total : (estimateAdjacency n t.relationshipCount).total.Contains t.byteSize

theorem Adjacency.Sized.estimated {t : Adjacency} {n : Nat} {shards : List NodeRange}
    {targets : Nat → List Nat} (h : t.Sized n shards targets)
    (htargets : ∀ u < n, ∀ t ∈ targets u, t < n) : t.Estimated n targets := by
  have hruns : (estimateAdjacency n t.relationshipCount).runs.Contains t.pages.byteSize := by
    rw [h.relationshipCount, h.byteSize]
    exact estimateAdjacency_runs htargets
  have hoffsets : (estimateAdjacency n t.relationshipCount).offsets = t.offsetTableBytes := by
    rw [RunTable.offsetTableBytes, show t.offsets.size = n from h.nodeCount]
    rfl
  refine ⟨h.byteSize, hruns, hoffsets, ?_⟩
  rw [AdjacencyEstimate.total, hoffsets]
  exact SizeRange.contains_add_exactly hruns _

/-- What is estimated of a side and its properties is what they take. -/
structure SideEstimated (p : Projection) (n : Nat) (targets : Nat → List Nat) (side : Adjacency)
    (values : List (String × ValueTable)) : Prop where
  adjacency : side.Estimated n targets
  /-- There is a table for every property of the projection. -/
  keys : names values = p.keys
  values : ∀ entry ∈ values, entry.2.byteSize = estimateValues n side.relationshipCount

theorem SideSized.estimated {p : Projection} {n : Nat} {shards : List NodeRange}
    {targets : Nat → List Nat} {side : Adjacency} {values : List (String × ValueTable)}
    (h : SideSized p n shards targets side values)
    (htargets : ∀ u < n, ∀ t ∈ targets u, t < n) : SideEstimated p n targets side values where
  adjacency := h.adjacency.estimated htargets
  keys := h.keys
  values := h.values

/-! ## Calls -/

namespace Projection

variable {p : Projection} {node source target t : Nat}

/-- A target that a relationship gives a node is one of its ends. -/
theorem mem_outgoingTargets (h : t ∈ p.outgoingTargets node source target) :
    t = source ∨ t = target := by
  rw [← map_target_ofPairs_pairs []] at h
  obtain ⟨row, hrow, rfl⟩ := List.mem_map.mp h
  obtain ⟨pair, hpair, rfl⟩ := List.mem_map.mp hrow
  rcases mem_pairs (List.mem_of_mem_filter hpair) with ⟨-, htarget⟩ | ⟨-, htarget⟩
  · exact .inr htarget
  · exact .inl htarget

theorem mem_incomingTargets (hinverse : p.storesInverse = true)
    (h : t ∈ p.incomingTargets node source target) : t = source ∨ t = target := by
  rw [← map_target_ofPairs_inversePairs hinverse []] at h
  obtain ⟨row, hrow, rfl⟩ := List.mem_map.mp h
  obtain ⟨pair, hpair, rfl⟩ := List.mem_map.mp hrow
  have hstored := mem_inversePairs (List.mem_of_mem_filter hpair)
  rcases mem_pairs hstored with ⟨htarget, -⟩ | ⟨htarget, -⟩
  · exact .inl htarget
  · exact .inr htarget

end Projection

/-- What is stored after calls between nodes are nodes. -/
theorem lt_of_mem_storedTargets {calls : List AddCall} {n t : Nat} {collapses : Bool}
    {targets : AddCall → List Nat}
    (hends : ∀ call ∈ calls, call.source < n ∧ call.target < n)
    (htargets : ∀ call, ∀ t ∈ targets call, t = call.source ∨ t = call.target)
    (h : t ∈ storedTargets collapses (calls.flatMap targets)) : t < n := by
  obtain ⟨call, hcall, ht⟩ := List.mem_flatMap.mp (mem_storedTargets.mp h)
  rcases htargets call t ht with rfl | rfl
  · exact (hends call hcall).1
  · exact (hends call hcall).2

namespace Projection

variable {p : Projection} {calls : List AddCall} {n : Nat}

theorem lt_of_mem_storedOutgoing (hends : ∀ call ∈ calls, call.source < n ∧ call.target < n) :
    ∀ u < n, ∀ t ∈ p.storedOutgoing calls u, t < n := by
  intro u _ t ht
  rw [storedOutgoing, stored_eq] at ht
  exact lt_of_mem_storedTargets hends (fun _ _ => mem_outgoingTargets) ht

theorem lt_of_mem_storedIncoming (hinverse : p.storesInverse = true)
    (hends : ∀ call ∈ calls, call.source < n ∧ call.target < n) :
    ∀ u < n, ∀ t ∈ p.storedIncoming calls u, t < n := by
  intro u _ t ht
  rw [storedIncoming, stored_eq] at ht
  exact lt_of_mem_storedTargets hends (fun _ _ => mem_incomingTargets hinverse) ht

end Projection

/-- What is estimated of the tables of calls is what they take, on each side that is stored. -/
structure TypeTables.Estimated (t : TypeTables) (n : Nat) (p : Projection) (calls : List AddCall) :
    Prop where
  outgoing : SideEstimated p n (p.storedOutgoing calls) t.outgoing t.outgoingValues
  /-- The incoming side is built if the projection stores it. -/
  isSome_incoming : t.incoming.isSome = p.storesInverse
  incoming : ∀ side, t.incoming = some side →
    SideEstimated p n (p.storedIncoming calls) side t.incomingValues

/-- What calls between nodes are loaded into takes as many bytes as estimated, for any number of
workers.  The bytes of its runs are those of the stored targets, which the tables read back as.
Calls are loaded exactly if every degree fits in front of its run. -/
theorem exists_built_estimated {m : Numbering} {p : Projection} {workers : Nat}
    {calls : List AddCall} (hworkers : 0 < workers) (hvalid : p.validate = .ok ())
    (hends : ∀ call ∈ calls, call.source < m.nodeCount ∧ call.target < m.nodeCount)
    (hvalues : ∀ call ∈ calls, (call.arrival p).values.length = p.properties.length) :
    ((∃ tables, Built m p workers calls tables) ↔ DegreesFit m.nodeCount p calls) ∧
      ∀ tables, Built m p workers calls tables →
        tables.Decodes m.nodeCount p calls ∧ tables.Estimated m.nodeCount p calls := by
  refine ⟨exists_built_iff hworkers hvalid hends hvalues, fun tables hbuilt => ?_⟩
  have hsized := hbuilt.sized hends hvalues
  refine ⟨(hbuilt.holds hends hvalues).2.decodes, ?_, hsized.isSome_incoming, fun side hside => ?_⟩
  · exact hsized.outgoing.estimated (Projection.lt_of_mem_storedOutgoing hends)
  · have hinverse := hsized.storesInverse hside
    refine (hsized.incoming side hside).estimated ?_
    exact Projection.lt_of_mem_storedIncoming hinverse hends

/-- Three nodes, and relationships with a weight that are stored both ways. -/
theorem exists_built_estimated_threeNodes :
    ∃ tables, Built (.ofAscending 0 [(1, []), (2, []), (4, [])] (by decide))
        { withInverse := true, properties := [{ key := "weight" }] } 2
        [.valued 0 1 [.one], .plain 2 1, .plain 0 0] tables ∧
      tables.Decodes 3 { withInverse := true, properties := [{ key := "weight" }] }
        [.valued 0 1 [.one], .plain 2 1, .plain 0 0] ∧
      tables.Estimated 3 { withInverse := true, properties := [{ key := "weight" }] }
        [.valued 0 1 [.one], .plain 2 1, .plain 0 0] := by
  obtain ⟨hexists, hall⟩ :=
    @exists_built_estimated (.ofAscending 0 [(1, []), (2, []), (4, [])] (by decide))
      { withInverse := true, properties := [{ key := "weight" }] } 2
      [.valued 0 1 [.one], .plain 2 1, .plain 0 0] (by decide) rfl (by decide) (by decide)
  obtain ⟨tables, hbuilt⟩ := hexists.mpr (.of_length (by decide))
  obtain ⟨hdecodes, hestimated⟩ := hall tables hbuilt
  exact ⟨tables, hbuilt, hdecodes, hestimated⟩

end PagedGraph
