import PagedGraph.Proofs.Similarity.Shortlist
import PagedGraph.Similarity.Run

/-!
# Rows

A pair of nodes gives a row in each direction (`directedRows`).  A bound for nodes leaves the
best rows of every node, node by node (`bestRowsByNode`), which are the best of its neighbors
(`neighborRows_bestNeighbors`).

`Simple rows` says that no row joins a node with itself and that no two rows join the same
nodes in the same direction.  It holds of the rows of ascending pairs (`simple_directedRows`),
and bounds keep it.
-/

namespace PagedGraph

/-- The rows of some pairs, in both directions. -/
def directedRows (pairs : List SimilarPair) : List SimilarPair :=
  pairs.flatMap fun r => [r, r.swap]

/-- The best neighbors that some rows give every node below `n`. -/
def bestNeighbors (n limit : Nat) (order : RankOrder) (rows : List SimilarPair) :
    List (List Neighbor) :=
  (List.range n).map fun node => bestRanked order limit (neighborsIn rows node)

theorem bestNeighbors_eq_of_perm {n limit : Nat} {order : RankOrder}
    {rows rows' : List SimilarPair} (h : rows.Perm rows') :
    bestNeighbors n limit order rows = bestNeighbors n limit order rows' :=
  List.map_congr_left fun _ _ => bestRanked_eq_of_perm ((h.filter _).map _)

/-- The best rows of every node below `n`, node by node. -/
def bestRowsByNode (n limit : Nat) (order : RankOrder) (rows : List SimilarPair) :
    List SimilarPair :=
  (List.range n).flatMap fun node =>
    bestRanked order limit (rows.filter fun r => r.left = node)

/-- What bounds for every node and for all rows leave of some rows. -/
def boundedRows (n : Nat) (rows : List SimilarPair) : Bound → Bound → List SimilarPair
  | .unbounded, .unbounded => rows
  | .unbounded, .limited limit order => bestRanked order limit rows
  | .limited k kOrder, .unbounded => bestRowsByNode n k kOrder rows
  | .limited k kOrder, .limited limit order =>
    bestRanked order limit (bestRowsByNode n k kOrder rows)

theorem directedRows_append_singleton (pairs : List SimilarPair) (r : SimilarPair) :
    directedRows (pairs ++ [r]) = directedRows pairs ++ [r] ++ [r.swap] := by
  rw [directedRows, List.flatMap_append, List.flatMap_singleton, List.append_assoc]
  rfl

theorem directedRows_append (pairs others : List SimilarPair) :
    directedRows (pairs ++ others) = directedRows pairs ++ directedRows others :=
  List.flatMap_append

/-! ## Rows of neighbors -/

/-- A neighbor of a node, as a row. -/
def Neighbor.toRow (node : Nat) (n : Neighbor) : SimilarPair := ⟨node, n.target, n.score⟩

theorem compareRank_toRow (order : RankOrder) (node : Nat) (a b : Neighbor) :
    Rankable.compareRank order (a.toRow node) (b.toRow node) = Rankable.compareRank order a b := by
  show Ordering.then _ ((compare node node).then _) = Ordering.then _ _
  rw [compare_eq_iff_eq.mpr rfl]
  rfl

theorem map_toRow_neighborsIn (rows : List SimilarPair) (node : Nat) :
    (neighborsIn rows node).map (Neighbor.toRow node) = rows.filter fun r => r.left = node := by
  rw [neighborsIn, List.map_map]
  conv_rhs => rw [← List.map_id (rows.filter fun r => r.left = node)]
  refine List.map_congr_left fun r hr => ?_
  obtain rfl := of_decide_eq_true (List.mem_filter.mp hr).2
  rfl

theorem map_toRow_sortRanked (order : RankOrder) (node : Nat) (neighbors : List Neighbor) :
    (sortRanked order neighbors).map (Neighbor.toRow node) =
      sortRanked order (neighbors.map (Neighbor.toRow node)) :=
  List.map_mergeSort fun a _ b _ => by rw [compareRank_toRow]

theorem map_toRow_bestRanked (order : RankOrder) (limit : Nat) (rows : List SimilarPair)
    (node : Nat) :
    (bestRanked order limit (neighborsIn rows node)).map (Neighbor.toRow node) =
      bestRanked order limit (rows.filter fun r => r.left = node) := by
  rw [bestRanked, List.map_take, map_toRow_sortRanked, map_toRow_neighborsIn]
  rfl

theorem neighborRows_map_range (n : Nat) (f : Nat → List Neighbor) :
    neighborRows ((List.range n).map f) =
      (List.range n).flatMap fun node => (f node).map (Neighbor.toRow node) := by
  have hzip : ((List.range n).map f).zipIdx = (List.range n).map fun node => (f node, node) := by
    refine List.ext_getElem (by simp) fun i hi hi' => ?_
    simp
  rw [neighborRows, hzip, List.flatMap_map]
  rfl

/-- The best neighbors of every node are its best rows. -/
theorem neighborRows_bestNeighbors (n limit : Nat) (order : RankOrder) (rows : List SimilarPair) :
    neighborRows (bestNeighbors n limit order rows) = bestRowsByNode n limit order rows := by
  rw [bestNeighbors, neighborRows_map_range, bestRowsByNode]
  exact List.flatMap_congr fun node _ => map_toRow_bestRanked order limit rows node

theorem bestRanked_nil {α : Type} [Rankable α] (order : RankOrder) (limit : Nat) :
    bestRanked order limit ([] : List α) = [] := by
  rw [bestRanked, sortRanked, List.mergeSort_nil, List.take_nil]

/-- Bounds leave nothing of nothing. -/
theorem boundedRows_nil (n : Nat) (kBound nBound : Bound) :
    boundedRows n [] kBound nBound = [] := by
  have hnodes : ∀ k order, bestRowsByNode n k order [] = [] := by
    intro k order
    exact List.flatMap_eq_nil_iff.mpr fun node _ => bestRanked_nil order k
  cases kBound with
  | unbounded =>
    cases nBound with
    | unbounded => rfl
    | limited limit order => exact bestRanked_nil order limit
  | limited k kOrder =>
    cases nBound with
    | unbounded => exact hnodes k kOrder
    | limited limit order =>
      rw [boundedRows, hnodes]
      exact bestRanked_nil order limit

theorem mem_of_mem_bestRanked {order : RankOrder} {limit : Nat} {rows : List SimilarPair}
    {r : SimilarPair} (h : r ∈ bestRanked order limit rows) : r ∈ rows :=
  (sortRanked_perm rows).mem_iff.mp (List.mem_of_mem_take h)

theorem mem_of_mem_bestRowsByNode {n limit : Nat} {order : RankOrder} {rows : List SimilarPair}
    {r : SimilarPair} (h : r ∈ bestRowsByNode n limit order rows) : r ∈ rows := by
  obtain ⟨node, -, hr⟩ := List.mem_flatMap.mp h
  exact List.mem_of_mem_filter (mem_of_mem_bestRanked hr)

/-- Bounds only leave rows out. -/
theorem mem_of_mem_boundedRows {n : Nat} {rows : List SimilarPair} {kBound nBound : Bound}
    {r : SimilarPair} (h : r ∈ boundedRows n rows kBound nBound) : r ∈ rows := by
  cases kBound with
  | unbounded =>
    cases nBound with
    | unbounded => exact h
    | limited limit order => exact mem_of_mem_bestRanked h
  | limited k kOrder =>
    cases nBound with
    | unbounded => exact mem_of_mem_bestRowsByNode h
    | limited limit order => exact mem_of_mem_bestRowsByNode (mem_of_mem_bestRanked h)

/-! ## Simple rows -/

/-- No row joins a node with itself, and no two join the same nodes in the same direction. -/
structure Simple (rows : List SimilarPair) : Prop where
  loopless : ∀ r ∈ rows, r.left ≠ r.right
  distinct : rows.Pairwise fun r r' => (r.left, r.right) ≠ (r'.left, r'.right)

theorem Simple.sublist {rows rows' : List SimilarPair} (h : Simple rows)
    (hsub : rows'.Sublist rows) : Simple rows' :=
  ⟨fun r hr => h.loopless r (hsub.subset hr), h.distinct.sublist hsub⟩

theorem Simple.perm {rows rows' : List SimilarPair} (h : Simple rows) (hperm : rows.Perm rows') :
    Simple rows' :=
  ⟨fun r hr => h.loopless r (hperm.mem_iff.mpr hr), h.distinct.perm hperm Ne.symm⟩

/-- Simple rows give a node no neighbor twice. -/
theorem Simple.nodup_neighborsIn {rows : List SimilarPair} (h : Simple rows) (node : Nat) :
    ((neighborsIn rows node).map Neighbor.target).Nodup := by
  rw [neighborsIn, List.map_map, List.Nodup, List.pairwise_map]
  refine (h.distinct.filter _).imp_of_mem fun {r r'} hr hr' hne heq => hne ?_
  have hleft : r.left = node := of_decide_eq_true (List.mem_filter.mp hr).2
  have hleft' : r'.left = node := of_decide_eq_true (List.mem_filter.mp hr').2
  exact Prod.ext (hleft.trans hleft'.symm) heq

theorem Simple.bestRanked {rows : List SimilarPair} (h : Simple rows) (order : RankOrder)
    (limit : Nat) : Simple (bestRanked order limit rows) :=
  (h.perm (sortRanked_perm rows).symm).sublist (List.take_sublist ..)

/-- Rows of different nodes differ. -/
theorem Simple.bestRowsByNode {rows : List SimilarPair} (h : Simple rows) (n limit : Nat)
    (order : RankOrder) : Simple (bestRowsByNode n limit order rows) := by
  have hnode : ∀ node, Simple (PagedGraph.bestRanked order limit
      (rows.filter fun r => r.left = node)) :=
    fun node => (h.sublist List.filter_sublist).bestRanked order limit
  have hleft : ∀ {node r}, r ∈ PagedGraph.bestRanked order limit
      (rows.filter fun r => r.left = node) → r.left = node := fun hr =>
    of_decide_eq_true (List.mem_filter.mp (mem_of_mem_bestRanked hr)).2
  constructor
  · intro r hr
    obtain ⟨node, -, hr⟩ := List.mem_flatMap.mp hr
    exact (hnode node).loopless r hr
  · rw [PagedGraph.bestRowsByNode, List.pairwise_flatMap]
    refine ⟨fun node _ => (hnode node).distinct, List.pairwise_lt_range.imp ?_⟩
    intro node node' hlt r hr r' hr' heq
    have hends := (Prod.mk.inj heq).1
    rw [hleft hr, hleft hr'] at hends
    exact Nat.ne_of_lt hlt hends

theorem Simple.boundedRows {rows : List SimilarPair} (h : Simple rows) (n : Nat)
    (kBound nBound : Bound) : Simple (boundedRows n rows kBound nBound) := by
  cases kBound with
  | unbounded =>
    cases nBound with
    | unbounded => exact h
    | limited limit order => exact h.bestRanked order limit
  | limited k kOrder =>
    have hnodes := h.bestRowsByNode n k kOrder
    cases nBound with
    | unbounded => exact hnodes
    | limited limit order => exact hnodes.bestRanked order limit

/-- Pairs that ascend, the smaller node first, have simple rows. -/
theorem simple_directedRows {pairs : List SimilarPair} (hlt : ∀ r ∈ pairs, r.left < r.right)
    (hpair : pairs.Pairwise fun r r' => r.left < r'.left ∨ r.left = r'.left ∧ r.right < r'.right) :
    Simple (directedRows pairs) := by
  constructor
  · intro r hr
    obtain ⟨p, hp, hr⟩ := List.mem_flatMap.mp hr
    have := hlt p hp
    rcases List.mem_pair.mp hr with rfl | rfl
    · exact Nat.ne_of_lt this
    · exact Nat.ne_of_gt this
  · rw [directedRows, List.pairwise_flatMap]
    constructor
    · intro p hp
      have := hlt p hp
      refine List.pairwise_pair.mpr fun heq => ?_
      have hends : p.left = p.right := (Prod.mk.inj heq).1
      omega
    · refine hpair.imp_of_mem fun {p p'} hp hp' hlex r hr r' hr' heq => ?_
      have hp := hlt p hp
      have hp' := hlt p' hp'
      obtain ⟨hleft, hright⟩ := Prod.mk.inj heq
      rcases List.mem_pair.mp hr with rfl | rfl <;> rcases List.mem_pair.mp hr' with rfl | rfl
      · omega
      · have hleft : r.left = p'.right := hleft
        have hright : r.right = p'.left := hright
        omega
      · have hleft : p.right = r'.left := hleft
        have hright : p.left = r'.right := hright
        omega
      · have hleft : p.right = p'.right := hleft
        have hright : p.left = p'.left := hright
        omega

end PagedGraph
