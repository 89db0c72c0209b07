import PagedGraph.Proofs.Similarity.Run
import PagedGraph.Proofs.View.Agreement

/-!
# The graph of a run

The rows of a run can be stored as the relationships of a graph over the nodes of its view.
`View.ShowsRows w rows` says that these are all that `w` shows: at every node the rows of the node
with their scores, by ascending targets, and as many in all as there are rows.

* The rows of a run join nodes of the view, and no two of them join the same nodes in the same
  direction (`exists_runGathered`).
* The rows of a node arrive in the order of the run.  Storing them sorts them by their targets, and
  a score stays with its target (`SimilarityRun.exists_toGraph`).
* So a graph of such rows shows them (`SimilarityRun.exists_toGraph_showsRows`).

A degree is written with 32 bits, so a node must not have more rows than these can count.  This is
so if the nodes can be counted with them (`Simple.length_neighborsIn_le`).
-/

namespace PagedGraph

/-! ## The rows of a run -/

/-- Some rows join nodes below a bound. -/
def RowsWithin (n : Nat) (rows : List SimilarPair) : Prop :=
  ∀ row ∈ rows, row.left < n ∧ row.right < n

theorem rowsWithin_declaredRows {v : View} {nodes : List Nat}
    (hnodes : ∀ node ∈ nodes, node < v.nodeCount) (c : SimilaritySettings) (kBound nBound : Bound) :
    RowsWithin v.nodeCount (declaredRows v c nodes kBound nBound) := by
  intro row hrow
  obtain ⟨pair, hpair, hrow⟩ := List.mem_flatMap.mp (mem_of_mem_boundedRows hrow)
  obtain ⟨hleft, hright, -⟩ := mem_qualifyingPairs.mp hpair
  have hleft := hnodes _ hleft
  have hright := hnodes _ hright
  rcases List.mem_pair.mp hrow with rfl | rfl
  · exact ⟨hleft, hright⟩
  · exact ⟨hright, hleft⟩

/-- No node has more rows than there are nodes. -/
theorem Simple.length_neighborsIn_le {rows : List SimilarPair} (h : Simple rows) {n : Nat}
    (hrows : RowsWithin n rows) (node : Nat) : (neighborsIn rows node).length ≤ n := by
  have hsub : (neighborsIn rows node).map Neighbor.target ⊆ List.range n := by
    intro t ht
    obtain ⟨neighbor, hneighbor, rfl⟩ := List.mem_map.mp ht
    obtain ⟨row, hrow, rfl⟩ := List.mem_map.mp hneighbor
    exact List.mem_range.mpr (hrows row (List.mem_of_mem_filter hrow)).2
  have hle := ((h.nodup_neighborsIn node).subperm hsub).length_le
  rwa [List.length_map, List.length_range] at hle

/-- Node by node, rows are counted once. -/
theorem addUp_length_neighborsIn {n : Nat} {rows : List SimilarPair} (hrows : RowsWithin n rows) :
    addUp ((List.range n).map fun node => (neighborsIn rows node).length) = rows.length := by
  have hcount : ∀ node,
      (neighborsIn rows node).length = (rows.map SimilarPair.left).count node := by
    intro node
    rw [neighborsIn, List.length_map, ← List.countP_eq_length_filter, List.count, List.countP_map]
    rfl
  simp only [hcount]
  rw [addUp_map_count, List.length_map]
  intro left hleft
  obtain ⟨row, hrow, rfl⟩ := List.mem_map.mp hleft
  exact (hrows row hrow).1

/-- The rows of a result are as many as its size says. -/
theorem SimilarityRun.length_toList (r : SimilarityRun) : r.toList.length = r.size := by
  obtain ⟨rows, count⟩ := r
  cases rows with
  | perNode lists =>
    have hrows : ∀ (lists : List (List Neighbor)) (first : Nat),
        ((lists.zipIdx first).flatMap fun entry =>
          entry.1.map (Neighbor.toRow entry.2)).length = addUp (lists.map List.length) := by
      intro lists
      induction lists with
      | nil => exact fun first => rfl
      | cons list lists ih =>
        intro first
        rw [List.zipIdx_cons, List.flatMap_cons, List.length_append, ih, List.length_map,
          List.map_cons, addUp_cons]
    exact hrows lists 0
  | pairs rows =>
    show (rows.flatMap fun row => [row, row.swap]).length = rows.length * 2
    induction rows with
    | nil => rfl
    | cons row rows ih =>
      rw [List.flatMap_cons, List.length_append, ih]
      show 2 + rows.length * 2 = (rows.length + 1) * 2
      omega
  | directed rows => rfl

/-- However its batches are gathered, a run gives the same rows.  These join nodes of the view, no
two the same nodes in the same direction. -/
theorem exists_runGathered {v : View} (h : v.Sound) {c : SimilaritySettings}
    (hc : c.validate = .ok ()) :
    ∃ run : SimilarityRun,
      (∀ t : Gathering, t.batches.Perm (batchesOf v.nodeCount c.workers) →
        runGathered t v c false = .ok (some run)) ∧
      RowsWithin v.nodeCount run.toList ∧ Simple run.toList := by
  obtain ⟨rows, hselect, hrows⟩ := exists_selectRows h c
  have hrun : ∀ t : Gathering, runGathered t v c false =
      .ok (some (if participantCount (profilesOf v c) = 0 then ⟨.directed [], 0⟩
        else ⟨selectRows t c (.ofView v c), participantCount (profilesOf v c)⟩)) := by
    intro t
    rw [runGathered, hc]
    show (if participantCount (profilesOf v c) = 0 then Except.ok _ else Except.ok _) = _
    split
    case isTrue => rfl
    case isFalse => rfl
  by_cases hnone : participantCount (profilesOf v c) = 0
  · refine ⟨⟨.directed [], 0⟩, fun t _ => ?_, fun row hrow => absurd hrow List.not_mem_nil,
      fun row hrow => absurd hrow List.not_mem_nil, .nil⟩
    rw [hrun, if_pos hnone]
  · refine ⟨⟨rows, participantCount (profilesOf v c)⟩, fun t ht => ?_, ?_⟩
    · rw [hrun, if_neg hnone, hselect t ht]
    · rw [hrows]
      exact ⟨rowsWithin_declaredRows (fun _ => lt_of_mem_admitted) c _ _,
        simple_declaredRows v c (pairwise_admitted v c) _ _⟩

/-! ## Storing rows -/

/-- A row as a relationship that arrives with its score. -/
def SimilarPair.toArrival (r : SimilarPair) : Arrival := ⟨r.left, r.right, [r.score]⟩

/-- A neighbor as the row that is stored for it. -/
def Neighbor.toStored (n : Neighbor) : Row := ⟨n.target, [n.score]⟩

/-- What is shown of a neighbor. -/
def Neighbor.toEntry (n : Neighbor) : Nat × Double := (n.target, n.score)

theorem validate_similarityProjection : similarityProjection.validate = .ok () := by
  decide +kernel

/-- The rows that arrive for a node are its neighbors, in the order of the rows. -/
theorem rows_toArrival (rows : List SimilarPair) (node : Nat) :
    Arrival.rows similarityProjection.pairs (rows.map SimilarPair.toArrival) node =
      (neighborsIn rows node).map Neighbor.toStored := by
  induction rows with
  | nil => rfl
  | cons row rows ih =>
    have hpairs : similarityProjection.pairs row.left row.right = [(row.left, row.right)] := by
      simp [Projection.pairs, similarityProjection]
    rw [Arrival.rows, List.map_cons, List.flatMap_cons, ← Arrival.rows, ih, neighborsIn,
      neighborsIn, List.filter_cons]
    show Row.ofPairs (similarityProjection.pairs row.left row.right) [row.score] node ++ _ = _
    rw [hpairs, Row.ofPairs, List.filter_cons]
    by_cases hnode : row.left = node
    · simp [hnode]
      rfl
    · simp [hnode]

/-- Rows are stored one after another, and the graph reads the tables that are built of them. -/
theorem SimilarityRun.toGraph_eq (r : SimilarityRun) (m : Numbering) {workers : Nat}
    (hworkers : 0 < workers) :
    r.toGraph m workers =
      (((RelationshipLoader.blank m similarityProjection workers).pushAll
        (r.toList.map SimilarPair.toArrival)).build >>= (·.toGraph m (some similarityKey))) := by
  rw [toGraph, RelationshipLoader.create_eq_ok hworkers validate_similarityProjection,
    RelationshipLoader.pushAll, List.foldl_map]
  rfl

/-- Rows between nodes can be stored.  The rows of a node are sorted by their targets, each with its
score. -/
theorem SimilarityRun.exists_toGraph {r : SimilarityRun} {m : Numbering} {workers : Nat}
    (hworkers : 0 < workers) (hrows : RowsWithin m.nodeCount r.toList)
    (hfit : ∀ node, (neighborsIn r.toList node).length < UInt32.size) :
    ∃ g, r.toGraph m workers = .ok g ∧ g.numbering = m ∧ g.values.isSome = true ∧ g.ReadsTables ∧
      ∀ fallback {node}, node < m.nodeCount → g.weighted fallback node =
        (Row.sort ((neighborsIn r.toList node).map Neighbor.toStored)).map
          (Row.shown (some 0) fallback) := by
  have hsides : SidesFit similarityProjection m.nodeCount
      (r.toList.map SimilarPair.toArrival) := by
    refine ⟨fun node _ => Nat.lt_of_le_of_lt (length_storedTargets_le ..) ?_, nofun⟩
    rw [rows_toArrival, List.length_map, List.length_map]
    exact hfit node
  have hproper : ∀ a ∈ r.toList.map SimilarPair.toArrival,
      a.Proper m.nodeCount similarityProjection :=
    List.forall_mem_map.mpr fun row hrow => ⟨(hrows row hrow).1, (hrows row hrow).2, rfl⟩
  obtain ⟨t, hbuild, hloaded, hholds⟩ :=
    TypeTables.exists_loaded hworkers validate_similarityProjection hproper hsides
  obtain ⟨stored, hstored⟩ := hholds.outgoing
  have hkey : similarityKey ∈ names t.outgoingValues := by
    rw [hstored.keys]
    exact List.mem_singleton_self _
  obtain ⟨values, hvalues⟩ := mem_names_iff.mp hkey
  refine ⟨⟨m, t.outgoing, some values, []⟩, ?_, rfl, rfl, ?_, ?_⟩
  · rw [toGraph_eq r m hworkers, hbuild]
    show TypeTables.toGraph t m (some similarityKey) = _
    rw [TypeTables.toGraph, hvalues]
  · exact ⟨t, t.outgoingValues, hloaded, .inl ⟨rfl, rfl⟩, fun h => ⟨similarityKey, hvalues.trans h⟩⟩
  · intro fallback node hnode
    have harranged := hstored.arranged node
    rw [rows_toArrival] at harranged
    have hreads : SingleGraph.Reads ⟨m, t.outgoing, some values, []⟩ m t.outgoing t.outgoingValues
        (some similarityKey) := ⟨rfl, rfl, hvalues.symm, rfl⟩
    rw [hstored.weighted_eq hreads fallback hnode, ← Except.ok.inj harranged]
    rfl

/-! ## The relationships of the graph -/

/-- The relationships that a view shows are some rows, with the scores of these as their values. -/
structure View.ShowsRows (w : View) (rows : List SimilarPair) : Prop where
  within : RowsWithin w.nodeCount rows
  hasProperty : w.hasProperty = true
  /-- A node has its rows, in ascending order of targets. -/
  nodes : ∀ fallback {node}, node < w.nodeCount → ∃ entries,
    w.weighted? fallback node = some entries ∧
    entries.Perm ((neighborsIn rows node).map Neighbor.toEntry) ∧
    (entries.map Prod.fst).Pairwise (· < ·) ∧ w.AgreesAt node (entries.map Prod.fst) ∧
    w.degree? node = some entries.length
  relationshipCount : w.relationshipCount = rows.length

/-- The sorted rows of a node are its neighbors with their scores. -/
theorem perm_map_shown_sort (neighbors : List Neighbor) (fallback : Double) :
    ((Row.sort (neighbors.map Neighbor.toStored)).map (Row.shown (some 0) fallback)).Perm
      (neighbors.map Neighbor.toEntry) := by
  refine ((List.mergeSort_perm _ _).map _).trans (List.Perm.of_eq ?_)
  rw [List.map_map]
  rfl

theorem pairwise_map_shown_sort {neighbors : List Neighbor}
    (h : (neighbors.map Neighbor.target).Nodup) (fallback : Double) :
    (((Row.sort (neighbors.map Neighbor.toStored)).map (Row.shown (some 0) fallback)).map
      Prod.fst).Pairwise (· < ·) := by
  have hsorted : ((Row.sort (neighbors.map Neighbor.toStored)).map
      (Row.shown (some 0) fallback)).map Prod.fst =
        (Row.sort (neighbors.map Neighbor.toStored)).map Row.target := List.map_map
  refine ascending_of_nodup (hsorted ▸ Row.pairwise_sort _) ?_
  refine (((perm_map_shown_sort neighbors fallback).map Prod.fst).nodup_iff).mpr ?_
  rw [List.map_map]
  exact h

/-- A graph of rows between nodes shows these rows if no two join the same nodes in the same
direction. -/
theorem SimilarityRun.exists_toGraph_showsRows {r : SimilarityRun} {m : Numbering} {workers : Nat}
    (hworkers : 0 < workers) (hrows : RowsWithin m.nodeCount r.toList) (hsimple : Simple r.toList)
    (hfit : ∀ node, (neighborsIn r.toList node).length < UInt32.size) :
    ∃ g, r.toGraph m workers = .ok g ∧ g.numbering = m ∧
      (View.ofSingle g).ShowsRows r.toList := by
  obtain ⟨g, hgraph, rfl, hproperty, hreads, hweighted⟩ := exists_toGraph hworkers hrows hfit
  have hview : (View.ofSingle g).ReadsTables := .single hreads
  have htargets : ∀ fallback {node}, node < g.numbering.nodeCount →
      (View.ofSingle g).targets node = (g.weighted fallback node).map Prod.fst := by
    intro fallback node hnode
    rw [(hreads.weighs fallback hnode).targets, View.targets_ofSingle hreads.loaded.sound hnode]
  refine ⟨g, hgraph, rfl, hrows, ?_, fun fallback {node} hnode => ?_, ?_⟩
  · exact Bool.and_eq_true_iff.mpr ⟨hproperty, rfl⟩
  · refine ⟨g.weighted fallback node, ?_, ?_, ?_, ?_, ?_⟩
    · exact (View.weighted?_ofSingle g fallback node).trans (if_pos hnode)
    · rw [hweighted fallback hnode]
      exact perm_map_shown_sort _ fallback
    · rw [hweighted fallback hnode]
      exact pairwise_map_shown_sort (hsimple.nodup_neighborsIn node) fallback
    · rw [← htargets fallback hnode]
      exact hview.agreesAt hnode
    · rw [← List.length_map, ← htargets fallback hnode]
      exact (hview.agreesAt hnode).degree_of_fits
        (View.degreesFit_ofSingle hreads.loaded.sound node hnode)
  · rw [View.relationshipCount_ofSingle hreads.loaded.sound, View.targetCount,
      ← addUp_length_neighborsIn hrows]
    refine congrArg addUp (List.map_congr_left fun node hnode => ?_)
    have hnode := List.mem_range.mp hnode
    rw [htargets .zero hnode, List.length_map, hweighted .zero hnode,
      (perm_map_shown_sort _ _).length_eq, List.length_map]

/-- A run on a view can be stored, and the graph shows the rows of the run: it has the nodes of the
view, every row as one relationship with the score of the row, and no others. -/
theorem exists_runSimilarityGraph_showsRows {v : View} (hv : v.Loaded) {c : SimilaritySettings}
    (hc : c.validate = .ok ())
    (hfit : ∀ run : SimilarityRun, runSimilarity v c false = .ok (some run) →
      ∀ node, (neighborsIn run.toList node).length < UInt32.size) :
    ∃ (run : SimilarityRun) (g : SimilarityGraph),
      runSimilarity v c false = .ok (some run) ∧
      (∀ t : Gathering, t.batches.Perm (batchesOf v.nodeCount c.workers) →
        runGathered t v c false = .ok (some run)) ∧
      runSimilarityGraph v c false = .ok (some g) ∧
      g.graph.numbering = v.numbering ∧
      (View.ofSingle g.graph).ShowsRows run.toList ∧
      (View.ofSingle g.graph).relationshipCount = run.size ∧
      g.participants = run.participants := by
  obtain ⟨run, hgathered, hrows, hsimple⟩ := exists_runGathered hv.sound hc
  have hrun : runSimilarity v c false = .ok (some run) :=
    hgathered _ (List.Perm.of_eq (Gathering.batches_ofBatches ..))
  obtain ⟨graph, hgraph, hnumbering, hshows⟩ := run.exists_toGraph_showsRows
    (SimilaritySettings.accepted_of_validate hc).workers hrows hsimple (hfit run hrun)
  refine ⟨run, ⟨graph, run.participants⟩, hrun, hgathered, ?_, hnumbering, hshows,
    hshows.relationshipCount.trans run.length_toList, rfl⟩
  rw [runSimilarityGraph, hrun]
  show (run.toGraph v.numbering c.workers >>= _) = _
  rw [hgraph]
  rfl

/-- The graph of the run with ten neighbors a node on three nodes, every two of them related. -/
theorem exists_runSimilarityGraph_showsRows_threeNodes :
    ∃ (run : SimilarityRun) (g : SimilarityGraph),
      runSimilarity View.threeNodeView {} false = .ok (some run) ∧
      runSimilarityGraph View.threeNodeView {} false = .ok (some g) ∧
      (View.ofSingle g.graph).ShowsRows run.toList := by
  have hvalid : SimilaritySettings.validate {} = .ok () := by decide +kernel
  have hfit : ∀ run : SimilarityRun, runSimilarity View.threeNodeView {} false = .ok (some run) →
      ∀ node, (neighborsIn run.toList node).length < UInt32.size := by
    intro run hrun node
    obtain ⟨run', hgathered, hrows, hsimple⟩ :=
      exists_runGathered View.loaded_threeNodeView.sound hvalid
    have hrun' : runSimilarity View.threeNodeView {} false = .ok (some run') :=
      hgathered _ (List.Perm.of_eq (Gathering.batches_ofBatches ..))
    obtain rfl : run' = run := Option.some.inj (Except.ok.inj (hrun'.symm.trans hrun))
    exact Nat.lt_of_le_of_lt (hsimple.length_neighborsIn_le hrows node) (by decide)
  obtain ⟨run, g, hrun, -, hgraph, -, hshows, -⟩ :=
    exists_runSimilarityGraph_showsRows View.loaded_threeNodeView hvalid hfit
  exact ⟨run, g, hrun, hgraph, hshows⟩

end PagedGraph
