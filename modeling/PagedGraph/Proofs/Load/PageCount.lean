import PagedGraph.Proofs.Load.Estimate

/-!
# How many pages an adjacency has

The estimate of pages divides the estimated bytes by the size of a page.  The pages that are
there are those the shards fill, each for itself, and page 0.  So there can be more than
estimated, since the last page of a shard is left partly empty, and so is any page that the
next run does not fit into.  And there can be fewer, since a run longer than a page takes
one page only.

`Adjacency.Paged` says how many pages there are, and when this is in the estimated range:
not below it if every run fits into a page, and not above it if less than a page is left
free in all.  Every shard with a run has a page, and there are no more pages besides than
twice the bytes need.  `exists_built_paged` is the result for the tables of calls, and
`exists_built_outside_estimate` has calls for both ends of the range that miss it.
-/

namespace PagedGraph

/-! ## Pages for bytes -/

theorem pagesFor_le {bytes pages : Nat} (h : bytes ≤ pages * pageSize) :
    pagesFor bytes ≤ 1 + pages := by
  have hpos := pageSize_pos
  refine Nat.add_le_add_left (Nat.lt_succ_iff.mp ?_) 1
  rw [Nat.div_lt_iff_lt_mul hpos, Nat.succ_mul]
  omega

theorem le_pagesFor {bytes pages : Nat} (h : pages * pageSize < bytes + pageSize) :
    1 + pages ≤ pagesFor bytes := by
  refine Nat.add_le_add_left ((Nat.le_div_iff_mul_le pageSize_pos).mpr ?_) 1
  omega

theorem pagesFor_mono {bytes more : Nat} (h : bytes ≤ more) : pagesFor bytes ≤ pagesFor more :=
  Nat.add_le_add_left (Nat.div_le_div_right (Nat.sub_le_sub_right (Nat.add_le_add_right h _) 1)) 1

/-! ## Pages of shards -/

/-- Bytes that are left free in pages of some sizes. -/
def freeBytes (sizes : List Nat) : Nat := addUp (sizes.map fun size => pageSize - size)

/-- Pages are filled or free. -/
theorem length_mul_le (sizes : List Nat) :
    sizes.length * pageSize ≤ addUp sizes + freeBytes sizes := by
  induction sizes with
  | nil => exact Nat.le_of_eq (Nat.zero_mul _)
  | cons size rest ih =>
    rw [freeBytes] at ih ⊢
    rw [List.length_cons, Nat.succ_mul, List.map_cons, addUp_cons, addUp_cons]
    omega

/-- The shards whose runs have bytes. -/
def filledShards (shards : List (List Nat)) : List (List Nat) :=
  shards.filter fun lens => addUp lens ≠ 0

/-- A shard with runs has a page. -/
theorem length_filledShards_le (shards : List (List Nat)) :
    (filledShards shards).length ≤ (pageSizes shards).length := by
  induction shards with
  | nil => exact Nat.le_refl _
  | cons lens rest ih =>
    rw [filledShards] at ih ⊢
    rw [pageSizes, List.flatMap_cons, List.length_append, ← pageSizes]
    by_cases hlens : addUp lens = 0
    · rw [List.filter_cons_of_neg (by simpa using hlens)]
      exact Nat.le_trans ih (Nat.le_add_left ..)
    · have hpage : 0 < (packed 0 lens).length := by
        refine List.length_pos_iff.mpr fun hnone => hlens ?_
        rw [← Nat.zero_add (addUp lens), ← addUp_packed, hnone, addUp_nil]
      rw [List.filter_cons_of_pos (by simpa using hlens), List.length_cons, Nat.add_comm]
      exact Nat.add_le_add hpage ih

/-- Besides a page for each shard with runs, there are no more pages than twice the bytes need. -/
theorem length_pageSizes_mul_le (shards : List (List Nat)) :
    (pageSizes shards).length * pageSize ≤
      (filledShards shards).length * pageSize + 2 * addUp shards.flatten := by
  induction shards with
  | nil => exact Nat.le_refl _
  | cons lens rest ih =>
    rw [filledShards] at ih ⊢
    rw [pageSizes, List.flatMap_cons, List.length_append, ← pageSizes, Nat.add_mul,
      List.flatten_cons, addUp_append, Nat.mul_add]
    by_cases hlens : addUp lens = 0
    · rw [List.filter_cons_of_neg (by simpa using hlens), packed_eq_nil hlens, List.length_nil]
      omega
    · have hpages := length_packed_mul_le lens 0
      rw [List.filter_cons_of_pos (by simpa using hlens), List.length_cons, Nat.succ_mul]
      omega

/-! ## Adjacencies -/

/-- The shards that have a run to write. -/
def shardsWithRuns (shards : List NodeRange) (targets : Nat → List Nat) : List NodeRange :=
  shards.filter fun shard => shard.nodes.any fun u => targets u ≠ []

theorem runLength_eq_zero {targets : List Nat} : runLength targets = 0 ↔ targets = [] := by
  rw [← length_targetRun, List.length_eq_zero_iff, targetRun_eq_nil]

theorem addUp_eq_zero {ns : List Nat} : addUp ns = 0 ↔ ∀ n ∈ ns, n = 0 := by
  induction ns with
  | nil => simp
  | cons n ns ih => rw [addUp_cons, Nat.add_eq_zero_iff, ih, List.forall_mem_cons]

theorem length_filledShards_runLengths (shards : List NodeRange) (targets : Nat → List Nat) :
    (filledShards (runLengths shards targets)).length = (shardsWithRuns shards targets).length := by
  rw [filledShards, runLengths, List.filter_map, List.length_map, shardsWithRuns]
  refine congrArg List.length (List.filter_congr fun shard _ => ?_)
  rw [Function.comp_apply, Bool.eq_iff_iff, List.any_eq_true, decide_eq_true_eq, ne_eq,
    addUp_eq_zero]
  simp [runLength_eq_zero]

/-- How many pages an adjacency has that was written shard by shard. -/
structure Adjacency.Paged (t : Adjacency) (n : Nat) (shards : List NodeRange)
    (targets : Nat → List Nat) : Prop where
  /-- Every shard fills pages of its own. -/
  pageCount : t.pages.pageCount = 1 + (pageSizes (runLengths shards targets)).length
  /-- If every run fits into a page, there are the pages that are estimated at least. -/
  min_le : (∀ u < n, runLength (targets u) ≤ pageSize) →
    (estimateAdjacency n t.relationshipCount).pages.min ≤ t.pages.pageCount
  /-- If less than a page is left free, there are the pages that are estimated at most. -/
  le_max : freeBytes (pageSizes (runLengths shards targets)) < pageSize →
    t.pages.pageCount ≤ (estimateAdjacency n t.relationshipCount).pages.max
  /-- Every shard with a run has a page. -/
  shards_le : 1 + (shardsWithRuns shards targets).length ≤ t.pages.pageCount
  /-- Besides these, there are no more pages than twice the bytes need. -/
  le_shards : t.pages.pageCount ≤
    1 + (shardsWithRuns shards targets).length + 2 * t.pages.byteSize / pageSize

theorem Adjacency.Sized.paged {t : Adjacency} {n size : Nat} {targets : Nat → List Nat}
    (hsize : 0 < size) (h : t.Sized n (cutRanges n size) targets)
    (htargets : ∀ u < n, ∀ t ∈ targets u, t < n) : t.Paged n (cutRanges n size) targets := by
  have hbytes : addUp (runLengths (cutRanges n size) targets).flatten = t.pages.byteSize := by
    rw [flatten_runLengths n hsize, h.byteSize]
  have hsizes := addUp_pageSizes (runLengths (cutRanges n size) targets)
  have hruns := (h.estimated htargets).runs
  have hfilled := length_filledShards_runLengths (cutRanges n size) targets
  refine ⟨h.pageCount, fun hfits => ?_, fun hfree => ?_, ?_, ?_⟩
  · refine Nat.le_trans (pagesFor_mono hruns.1) ?_
    rw [h.pageCount]
    refine pagesFor_le ?_
    rw [← hbytes, ← hsizes]
    refine addUp_le_mul (le_pageSize_of_mem_pageSizes fun len hlen => ?_)
    rw [flatten_runLengths n hsize] at hlen
    obtain ⟨u, hu, rfl⟩ := List.mem_map.mp hlen
    exact hfits u (List.mem_range.mp hu)
  · refine Nat.le_trans ?_ (pagesFor_mono hruns.2)
    rw [h.pageCount]
    refine le_pagesFor ?_
    rw [← hbytes, ← hsizes]
    have hle := length_mul_le (pageSizes (runLengths (cutRanges n size) targets))
    omega
  · rw [h.pageCount, ← hfilled]
    exact Nat.add_le_add_left (length_filledShards_le _) 1
  · rw [h.pageCount, ← hfilled, Nat.add_assoc]
    have hle := length_pageSizes_mul_le (runLengths (cutRanges n size) targets)
    rw [hbytes] at hle
    refine Nat.add_le_add_left ?_ 1
    rw [← Nat.mul_add_div pageSize_pos, Nat.le_div_iff_mul_le pageSize_pos, Nat.mul_comm pageSize]
    exact hle

/-! ## Calls -/

/-- How many pages the tables of calls have, on each side that is stored. -/
structure TypeTables.Paged (t : TypeTables) (n : Nat) (p : Projection) (shards : List NodeRange)
    (calls : List AddCall) : Prop where
  outgoing : t.outgoing.Paged n shards (p.storedOutgoing calls)
  /-- The incoming side is built if the projection stores it. -/
  isSome_incoming : t.incoming.isSome = p.storesInverse
  incoming : ∀ side, t.incoming = some side → side.Paged n shards (p.storedIncoming calls)

/-- The tables of calls have the pages that their shards fill.  These are as many as estimated, if
every run fits into a page and the shards leave less than a page free.  Calls are loaded exactly
if every degree fits in front of its run. -/
theorem exists_built_paged {m : Numbering} {p : Projection} {workers : Nat}
    {calls : List AddCall} (hworkers : 0 < workers) (hvalid : p.validate = .ok ())
    (hends : ∀ call ∈ calls, call.source < m.nodeCount ∧ call.target < m.nodeCount)
    (hvalues : ∀ call ∈ calls, (call.arrival p).values.length = p.properties.length) :
    ((∃ tables, Built m p workers calls tables) ↔ DegreesFit m.nodeCount p calls) ∧
      ∀ tables, Built m p workers calls tables →
        tables.Decodes m.nodeCount p calls ∧
          tables.Paged m.nodeCount p (shardsOf m.nodeCount workers) calls := by
  refine ⟨exists_built_iff hworkers hvalid hends hvalues, fun tables hbuilt => ?_⟩
  have hsize := nodesPerShard_pos m.nodeCount workers
  have hsized := hbuilt.sized hends hvalues
  refine ⟨(hbuilt.holds hends hvalues).2.decodes, ?_, hsized.isSome_incoming, fun side hside => ?_⟩
  · exact hsized.outgoing.adjacency.paged hsize (Projection.lt_of_mem_storedOutgoing hends)
  · have hinverse := hsized.storesInverse hside
    exact (hsized.incoming side hside).adjacency.paged hsize
      (Projection.lt_of_mem_storedIncoming hinverse hends)

/-- Three nodes, each in a shard of its own, and relationships that are stored both ways. -/
theorem exists_built_paged_threeNodes :
    ∃ tables, Built (.ofAscending 0 [(1, []), (2, []), (4, [])] (by decide))
        { withInverse := true, aggregation := .single } 1
        [.plain 0 1, .plain 2 1, .plain 0 1] tables ∧
      tables.Decodes 3 { withInverse := true, aggregation := .single }
        [.plain 0 1, .plain 2 1, .plain 0 1] ∧
      tables.Paged 3 { withInverse := true, aggregation := .single } (shardsOf 3 1)
        [.plain 0 1, .plain 2 1, .plain 0 1] := by
  obtain ⟨hexists, hall⟩ :=
    @exists_built_paged (.ofAscending 0 [(1, []), (2, []), (4, [])] (by decide))
      { withInverse := true, aggregation := .single } 1
      [.plain 0 1, .plain 2 1, .plain 0 1] Nat.one_pos rfl (by decide) (by decide)
  obtain ⟨tables, hbuilt⟩ := hexists.mpr (.of_length (by decide))
  obtain ⟨hdecodes, hpaged⟩ := hall tables hbuilt
  exact ⟨tables, hbuilt, hdecodes, hpaged⟩

/-! ## Builds outside the estimate -/

/-- Self-loops on one node, in a run longer than a page, take page 0 and one more. -/
theorem exists_built_loops {m : Numbering} (hm : m.nodeCount = 1) {count : Nat}
    (hlong : pageSize < degreeHeader + count) (hfit : count < UInt32.size) :
    ∃ tables, Built m {} 1 (List.replicate count (.plain 0 0)) tables ∧
      tables.outgoing.relationshipCount = count ∧ tables.outgoing.pages.pageCount = 2 := by
  have hends : ∀ call ∈ List.replicate count (AddCall.plain 0 0),
      call.source < m.nodeCount ∧ call.target < m.nodeCount := by
    intro call hcall
    rw [List.eq_of_mem_replicate hcall, hm]
    exact ⟨Nat.one_pos, Nat.one_pos⟩
  have hsorted : (List.replicate count 0).mergeSort (· ≤ ·) = List.replicate count 0 :=
    List.mergeSort_of_pairwise (by simp [List.pairwise_replicate])
  have htargets : ({} : Projection).storedOutgoing (List.replicate count (.plain 0 0)) 0 =
      List.replicate count 0 := by
    rw [Projection.storedOutgoing, List.flatMap_replicate]
    exact (congrArg (Projection.stored {}) List.flatten_replicate_singleton).trans hsorted
  have hlength : runLength (List.replicate count 0) =
      degreeHeader + Leb128.deltaSize (List.replicate count 0) := by
    refine if_neg (List.ne_nil_of_length_pos ?_)
    have hpage : degreeHeader < pageSize := by decide
    rw [List.length_replicate]
    omega
  have hleast := Leb128.length_le_deltaSize (List.replicate count 0)
  rw [List.length_replicate] at hleast
  have hvalues : ∀ call ∈ List.replicate count (AddCall.plain 0 0),
      (call.arrival {}).values.length = ({} : Projection).properties.length := by
    intro call hcall
    rw [List.eq_of_mem_replicate hcall]
    rfl
  obtain ⟨tables, hbuilt, -⟩ := @exists_built m {} 1 _ Nat.one_pos rfl hends hvalues
    (.of_length (by rwa [List.length_replicate]))
  have hsized := hbuilt.sized hends hvalues
  refine ⟨tables, hbuilt, ?_, ?_⟩
  · rw [hsized.outgoing.adjacency.relationshipCount, hm, List.range_one, List.map_singleton,
      htargets, List.length_replicate]
    rfl
  · have hrun : runLengths (shardsOf 1 1) (({} : Projection).storedOutgoing
        (List.replicate count (.plain 0 0))) =
          [[degreeHeader + Leb128.deltaSize (List.replicate count 0)]] := by
      rw [← hlength, ← htargets]
      rfl
    rw [hsized.outgoing.adjacency.pageCount, hm, hrun, pageSizes, List.flatMap_singleton, packed,
      if_pos (by omega)]
    rfl

/-- Two runs of five bytes lie in pages of their own, where one page is estimated at most, and a
run of 262145 bytes is one page, where two are estimated at least. -/
theorem exists_built_outside_estimate :
    (∃ tables, Built (.ofAscending 0 [(1, []), (2, [])] (by decide)) {} 1
        [.plain 0 1, .plain 1 0] tables ∧
      (estimateAdjacency 2 tables.outgoing.relationshipCount).pages.max <
        tables.outgoing.pages.pageCount) ∧
    ∃ tables, Built (.ofAscending 0 [(1, [])] (by decide)) {} 1
        (List.replicate 262141 (.plain 0 0)) tables ∧
      tables.outgoing.pages.pageCount <
        (estimateAdjacency 1 tables.outgoing.relationshipCount).pages.min := by
  constructor
  · obtain ⟨tables, hbuilt, -⟩ :=
      @exists_built (.ofAscending 0 [(1, []), (2, [])] (by decide)) {} 1
        [.plain 0 1, .plain 1 0] Nat.one_pos rfl (by decide) (by decide) (.of_length (by decide))
    have hsized := hbuilt.sized (by decide) (by decide)
    have hzero : ({} : Projection).storedOutgoing [.plain 0 1, .plain 1 0] 0 = [1] :=
      List.mergeSort_singleton 1
    have hone : ({} : Projection).storedOutgoing [.plain 0 1, .plain 1 0] 1 = [0] :=
      List.mergeSort_singleton 0
    have hruns : runLengths (shardsOf 2 1) (({} : Projection).storedOutgoing
        [.plain 0 1, .plain 1 0]) = [[runLength [1]], [runLength [0]]] := by
      rw [← hzero, ← hone]
      rfl
    have hcount : tables.outgoing.relationshipCount = 2 := by
      refine hsized.outgoing.adjacency.relationshipCount.trans ?_
      exact congrArg₂ (fun ts us => addUp [List.length ts, List.length us]) hzero hone
    have hpages : tables.outgoing.pages.pageCount = 3 := by
      refine hsized.outgoing.adjacency.pageCount.trans ?_
      exact congrArg (fun runs => 1 + (pageSizes runs).length) hruns
    refine ⟨tables, hbuilt, ?_⟩
    rw [hcount, hpages]
    decide
  · obtain ⟨tables, hbuilt, hcount, hpages⟩ :=
      @exists_built_loops (.ofAscending 0 [(1, [])] (by decide)) rfl 262141 (by decide) (by decide)
    refine ⟨tables, hbuilt, ?_⟩
    rw [hcount, hpages]
    decide

end PagedGraph
