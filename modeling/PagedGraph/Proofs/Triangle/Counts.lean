import Mathlib.Data.Finset.Powerset
import PagedGraph.Proofs.Number.Value
import PagedGraph.Proofs.Similarity.Profile
import PagedGraph.Proofs.Triangle.Enumerate
import PagedGraph.Proofs.View.Transpose
import PagedGraph.Triangle.Clustering

/-!
# Counting triangles

Every triangle credits its three corners, one after the other.  A credit adds one to the count of
one node, so in the end a node has been credited as often as it is a corner
(`getD_foldl_creditCorners`), whatever the order of the triangles.  The corners of a triangle are
different nodes below the node count.  So the counts add up to three times the number of triangles
(`View.addUp_trianglesThrough`).

The side of a triangle that faces a corner is a pair of neighbors of that corner, and no two
triangles on one corner have the same side there (`Triangle.eq_of_facing_eq`).  There are only so
many pairs of neighbors (`View.two_mul_trianglesThrough_le`).  So the coefficient of a node is a
ratio between zero and one (`isRatio_clusteringCoefficient`).  `View.exists_countTriangles` has
all of this.
-/

namespace PagedGraph

namespace Triangle

/-- The corners of a triangle, as they are credited. -/
def corners (t : Triangle) : List Nat := [t.a, t.b, t.c]

/-- The side of a triangle that faces a corner: the other two corners. -/
def facing (t : Triangle) (node : Nat) : Finset Nat := t.corners.toFinset.erase node

/-- A triangle is told by its corners. -/
theorem eq_of_corners_eq {s t : Triangle} (h : s.corners = t.corners) : s = t := by
  obtain ⟨a, b, c⟩ := s
  obtain ⟨a', b', c'⟩ := t
  simpa [corners] using h

/-- Triangles on one corner with the same side there are the same. -/
theorem eq_of_facing_eq {s t : Triangle} {node : Nat} (hs : s.corners.Pairwise (· < ·))
    (ht : t.corners.Pairwise (· < ·)) (hsnode : node ∈ s.corners) (htnode : node ∈ t.corners)
    (h : s.facing node = t.facing node) : s = t := by
  have hsets : s.corners.toFinset = t.corners.toFinset := by
    rw [← Finset.insert_erase (List.mem_toFinset.mpr hsnode),
      ← Finset.insert_erase (List.mem_toFinset.mpr htnode)]
    exact congrArg (insert node) h
  refine eq_of_corners_eq (eq_of_ascending hs ht fun u => ?_)
  rw [← List.mem_toFinset, hsets, List.mem_toFinset]

end Triangle

/-- How many of some triangles a node is a corner of. -/
def trianglesThrough (ts : List Triangle) (node : Nat) : Nat := ts.countP fun t => node ∈ t.corners

/-! ## Credits -/

/-- Adding one at each of some places adds to a place as often as it is among them. -/
theorem getD_foldl_bump (nodes : List Nat) {counts : Array Nat} {node : Nat}
    (h : node < counts.size) :
    (nodes.foldl (fun counts u => counts.modify u (· + 1)) counts).getD node 0 =
      counts.getD node 0 + nodes.count node := by
  induction nodes generalizing counts with
  | nil => rfl
  | cons u nodes ih =>
    have hsize : node < (counts.modify u (· + 1)).size := by rwa [Array.size_modify]
    rw [List.foldl_cons, ih hsize, List.count_cons]
    by_cases hu : u = node
    · simp [Array.getD, Array.getElem_modify, h, hu]
      omega
    · simp [Array.getD, Array.getElem_modify, h, hu]

/-- Of different corners a node is one at most once. -/
theorem count_flatMap_corners {ts : List Triangle} (h : ∀ t ∈ ts, t.corners.Nodup) (node : Nat) :
    (ts.flatMap Triangle.corners).count node = trianglesThrough ts node := by
  induction ts with
  | nil => rfl
  | cons t ts ih =>
    obtain ⟨ht, hts⟩ := List.forall_mem_cons.mp h
    rw [List.flatMap_cons, List.count_append, ih hts, trianglesThrough, trianglesThrough,
      List.countP_cons, ht.count, Nat.add_comm]
    simp only [decide_eq_true_eq]

/-- A node is credited once for every triangle it is a corner of. -/
theorem getD_foldl_creditCorners {ts : List Triangle} (h : ∀ t ∈ ts, t.corners.Nodup)
    {counts : Array Nat} {node : Nat} (hnode : node < counts.size) :
    (ts.foldl creditCorners counts).getD node 0 =
      counts.getD node 0 + trianglesThrough ts node := by
  rw [← count_flatMap_corners h, ← getD_foldl_bump _ hnode, List.foldl_flatMap]
  rfl

namespace View

variable {v : View} {maxDegree : Nat} {t : Triangle} {ts : List Triangle} {node : Nat}

/-! ## Corners -/

namespace IsTriangle

theorem ascending (ht : v.IsTriangle maxDegree t) : t.corners.Pairwise (· < ·) := by
  have hab := ht.a_lt_b
  have hbc := ht.b_lt_c
  simp only [Triangle.corners, List.pairwise_cons, List.mem_cons, List.not_mem_nil, or_false,
    forall_eq_or_imp, forall_eq, List.Pairwise.nil, false_imp_iff, implies_true, and_true]
  omega

theorem lt_of_mem_corners (ht : v.IsTriangle maxDegree t) (hnode : node ∈ t.corners) :
    node < v.nodeCount := by
  have hab := ht.a_lt_b
  have hbc := ht.b_lt_c
  have hc := ht.c_lt
  simp only [Triangle.corners, List.mem_cons, List.not_mem_nil, or_false] at hnode
  omega

theorem degree_le (ht : v.IsTriangle maxDegree t) (hnode : node ∈ t.corners) :
    v.degree node ≤ maxDegree := by
  simp only [Triangle.corners, List.mem_cons, List.not_mem_nil, or_false] at hnode
  obtain rfl | rfl | rfl := hnode
  · exact ht.degree_a
  · exact ht.degree_b
  · exact ht.degree_c

/-- Different corners are adjacent. -/
theorem mem_targets (ht : v.IsTriangle maxDegree t) {x y : Nat} (hx : x ∈ t.corners)
    (hy : y ∈ t.corners) (hne : y ≠ x) : y ∈ v.targets x := by
  simp only [Triangle.corners, List.mem_cons, List.not_mem_nil, or_false] at hx hy
  obtain rfl | rfl | rfl := hx <;> obtain rfl | rfl | rfl := hy
  all_goals first
    | exact absurd rfl hne
    | exact ht.ab.1
    | exact ht.ab.2
    | exact ht.ac.1
    | exact ht.ac.2
    | exact ht.bc.1
    | exact ht.bc.2

/-- The side that faces a corner is a pair of its neighbors. -/
theorem facing_mem (ht : v.IsTriangle maxDegree t) (hnode : node ∈ t.corners) :
    t.facing node ∈ (v.neighborSet node).powersetCard 2 := by
  rw [Finset.mem_powersetCard]
  constructor
  · intro u hu
    obtain ⟨hne, hu⟩ := Finset.mem_erase.mp hu
    refine Finset.mem_erase.mpr ⟨hne, List.mem_toFinset.mpr ?_⟩
    exact ht.mem_targets hnode (List.mem_toFinset.mp hu) hne
  · rw [Triangle.facing, Finset.card_erase_of_mem (List.mem_toFinset.mpr hnode),
      List.toFinset_card_of_nodup (nodup_of_ascending ht.ascending)]
    rfl

end IsTriangle

/-! ## Sums and bounds -/

/-- Nodes with too high a degree are no corners. -/
theorem trianglesThrough_eq_zero (hts : ∀ t ∈ ts, v.IsTriangle maxDegree t)
    (hdegree : maxDegree < v.degree node) : trianglesThrough ts node = 0 := by
  refine List.countP_eq_zero.mpr fun t ht hcorner => ?_
  exact Nat.not_lt.mpr ((hts t ht).degree_le (of_decide_eq_true hcorner)) hdegree

/-- Every triangle is counted at three nodes. -/
theorem addUp_trianglesThrough (hts : ∀ t ∈ ts, v.IsTriangle maxDegree t) :
    addUp ((List.range v.nodeCount).map (trianglesThrough ts)) = 3 * ts.length := by
  have hcount : trianglesThrough ts = fun node => (ts.flatMap Triangle.corners).count node :=
    funext fun node =>
      (count_flatMap_corners (fun t ht => nodup_of_ascending (hts t ht).ascending) node).symm
  have hlength : (ts.flatMap Triangle.corners).length = 3 * ts.length := by
    simp [List.length_flatMap, Triangle.corners, Nat.mul_comm]
  rw [hcount, addUp_map_count, hlength]
  intro node hnode
  obtain ⟨t, ht, hcorner⟩ := List.mem_flatMap.mp hnode
  exact (hts t ht).lt_of_mem_corners hcorner

/-- A node has no more triangles than pairs of neighbors. -/
theorem two_mul_trianglesThrough_le (hts : ∀ t ∈ ts, v.IsTriangle maxDegree t) (hnodup : ts.Nodup)
    (node : Nat) : 2 * trianglesThrough ts node ≤
      (v.neighborSet node).card * ((v.neighborSet node).card - 1) := by
  have hthrough : ∀ t ∈ (ts.filter fun t => node ∈ t.corners).toFinset,
      v.IsTriangle maxDegree t ∧ node ∈ t.corners := by
    intro t ht
    obtain ⟨ht, hcorner⟩ := List.mem_filter.mp (List.mem_toFinset.mp ht)
    exact ⟨hts t ht, of_decide_eq_true hcorner⟩
  have hpairs : (ts.filter fun t => node ∈ t.corners).toFinset.card ≤
      ((v.neighborSet node).powersetCard 2).card := by
    refine Finset.card_le_card_of_injOn (Triangle.facing · node) (fun t ht => ?_)
      fun s hs t ht heq => ?_
    · exact (hthrough t ht).1.facing_mem (hthrough t ht).2
    · exact Triangle.eq_of_facing_eq (hthrough s hs).1.ascending (hthrough t ht).1.ascending
        (hthrough s hs).2 (hthrough t ht).2 heq
  rw [List.toFinset_card_of_nodup (hnodup.filter _), ← List.countP_eq_length_filter,
    Finset.card_powersetCard, Nat.choose_two_right] at hpairs
  calc 2 * trianglesThrough ts node
    _ ≤ 2 * ((v.neighborSet node).card * ((v.neighborSet node).card - 1) / 2) :=
      Nat.mul_le_mul_left 2 hpairs
    _ ≤ _ := Nat.mul_div_le _ 2

/-- A node has at most as many neighbors as targets. -/
theorem card_neighborSet_le_length (v : View) (node : Nat) :
    (v.neighborSet node).card ≤ (v.targets node).length :=
  (Finset.card_erase_le).trans (List.toFinset_card_le _)

/-! ## The result -/

/-- The counts and coefficients of the nodes with at most so many targets. -/
def declaredClustering (v : View) (maxDegree : Nat) (ts : List Triangle) : Clustering where
  counts := ((List.range v.nodeCount).map fun node =>
    if v.degree node ≤ maxDegree then some (trianglesThrough ts node) else none).toArray
  total := ts.length
  coefficients := ((List.range v.nodeCount).map fun node =>
    if v.degree node ≤ maxDegree then
      some (clusteringCoefficient (trianglesThrough ts node) (v.neighborSet node).card)
    else none).toArray

/-- Counting gives what the triangles of a view declare. -/
theorem countTriangles_eq_ok (h : v.Sound) (hundirected : v.isUndirected = true)
    {config : TriangleSettings} (hworkers : 0 < config.workers) :
    countTriangles v config false = .ok (some
      (v.declaredClustering config.maxDegree (v.allTriangles config.maxDegree))) := by
  have hcredits : ∀ node < v.nodeCount, ((v.allTriangles config.maxDegree).foldl creditCorners
      (Array.replicate v.nodeCount 0)).getD node 0 =
        trianglesThrough (v.allTriangles config.maxDegree) node := by
    intro node hnode
    rw [getD_foldl_creditCorners fun t ht => nodup_of_ascending
      ((mem_allTriangles h hundirected t).mp ht).ascending]
    · simp [Array.getD, hnode]
    · rwa [Array.size_replicate]
  rw [countTriangles, TriangleSettings.validate, checkWorkers_eq_ok hworkers,
    triangleBatches_eq_ok hundirected hworkers]
  simp only [bind, Except.bind, pure, Except.pure, List.flatMap_id, flatten_foundBatches,
    declaredClustering, mayBeCorner]
  refine congrArg (fun r => Except.ok (some r)) ?_
  congr 2 <;> refine List.map_congr_left fun node hnode => ?_
  · rw [hcredits node (List.mem_range.mp hnode)]
    simp
  · rw [hcredits node (List.mem_range.mp hnode), h.length_neighbors (List.mem_range.mp hnode)]
    simp

end View

/-- The coefficient of a node with no more triangles than pairs of neighbors is their ratio.  Both
products are below `2 ^ 64`. -/
theorem isRatio_clusteringCoefficient {t d : Nat} (hle : 2 * t ≤ d * (d - 1))
    (hd : d ≤ UInt32.size) : (clusteringCoefficient t d).IsRatio (2 * t) (d * (d - 1)) := by
  rw [clusteringCoefficient]
  split
  case isTrue hlt =>
    have hzero : d * (d - 1) = 0 := by
      rw [Nat.mul_eq_zero]
      omega
    rw [hzero]
    exact Double.isRatio_zero _
  case isFalse hlt =>
    have hpairs : d * (d - 1) < 2 ^ 64 :=
      calc d * (d - 1)
        _ ≤ 2 ^ 32 * (2 ^ 32 - 1) := Nat.mul_le_mul hd (Nat.sub_le_sub_right hd 1)
        _ < 2 ^ 64 := by decide
    exact Double.isRatio_div_ofNat (Nat.mul_pos (by omega) (by omega)) hle hpairs

/-- A clustering says of every node of a view how many of the triangles it is a corner of, unless
it has too many targets. -/
structure Clustering.Tallies (r : Clustering) (v : View) (maxDegree : Nat)
    (ts : List Triangle) : Prop where
  total : r.total = ts.length
  count?_eq_none_iff : ∀ node < v.nodeCount, r.count? node = none ↔ maxDegree < v.degree node
  coefficient?_eq_none_iff : ∀ node < v.nodeCount,
    r.coefficient? node = none ↔ maxDegree < v.degree node
  count? : ∀ node < v.nodeCount, v.degree node ≤ maxDegree →
    r.count? node = some (trianglesThrough ts node)
  coefficient? : ∀ node < v.nodeCount, v.degree node ≤ maxDegree → r.coefficient? node =
    some (clusteringCoefficient (trianglesThrough ts node) (v.neighborSet node).card)
  /-- The counts that there are add up to three for every triangle. -/
  addUp_counts : addUp (r.counts.toList.filterMap id) = 3 * r.total
  /-- A node has no more triangles than pairs of neighbors. -/
  two_mul_le : ∀ node < v.nodeCount, 2 * trianglesThrough ts node ≤
    (v.neighborSet node).card * ((v.neighborSet node).card - 1)
  /-- A node with fewer than two neighbors has the coefficient zero. -/
  coefficient?_of_lt_two : ∀ node < v.nodeCount, v.degree node ≤ maxDegree →
    (v.neighborSet node).card < 2 → r.coefficient? node = some .zero
  /-- A coefficient is the ratio of twice the triangles to the ordered pairs of neighbors. -/
  isRatio : ∀ node < v.nodeCount, v.degree node ≤ maxDegree →
    (v.neighborSet node).card ≤ UInt32.size → ∃ x, r.coefficient? node = some x ∧
      x.IsRatio (2 * trianglesThrough ts node)
        ((v.neighborSet node).card * ((v.neighborSet node).card - 1))

namespace View

variable {v : View} {maxDegree : Nat} {ts : List Triangle}

/-- Numbers that are left out are not missed if they are zero. -/
theorem addUp_filterMap {p : Nat → Prop} [DecidablePred p] {f : Nat → Nat} {nodes : List Nat}
    (h : ∀ node ∈ nodes, ¬ p node → f node = 0) :
    addUp ((nodes.map fun node => if p node then some (f node) else none).filterMap id) =
      addUp (nodes.map f) := by
  induction nodes with
  | nil => rfl
  | cons node nodes ih =>
    obtain ⟨hnode, hnodes⟩ := List.forall_mem_cons.mp h
    rw [List.map_cons, List.map_cons, addUp_cons, ← ih hnodes]
    by_cases hp : p node
    · simp [hp]
    · simp [hp, hnode hp]

/-- What the triangles of a view declare tallies with them. -/
theorem tallies_declaredClustering (hts : ∀ t ∈ ts, v.IsTriangle maxDegree t)
    (hnodup : ts.Nodup) : (v.declaredClustering maxDegree ts).Tallies v maxDegree ts := by
  have hcount : ∀ node < v.nodeCount, (v.declaredClustering maxDegree ts).count? node =
      if v.degree node ≤ maxDegree then some (trianglesThrough ts node) else none := by
    intro node hnode
    simp [declaredClustering, Clustering.count?, Array.getD, hnode]
  have hcoefficient : ∀ node < v.nodeCount,
      (v.declaredClustering maxDegree ts).coefficient? node =
        if v.degree node ≤ maxDegree then
          some (clusteringCoefficient (trianglesThrough ts node) (v.neighborSet node).card)
        else none := by
    intro node hnode
    simp [declaredClustering, Clustering.coefficient?, Array.getD, hnode]
  constructor
  case total => rfl
  case count?_eq_none_iff =>
    intro node hnode
    rw [hcount node hnode]
    simp
  case coefficient?_eq_none_iff =>
    intro node hnode
    rw [hcoefficient node hnode]
    simp
  case count? => exact fun node hnode hdegree => (hcount node hnode).trans (if_pos hdegree)
  case coefficient? =>
    exact fun node hnode hdegree => (hcoefficient node hnode).trans (if_pos hdegree)
  case addUp_counts =>
    refine (addUp_filterMap fun node hnode hdegree => ?_).trans (addUp_trianglesThrough hts)
    exact trianglesThrough_eq_zero hts (Nat.lt_of_not_le hdegree)
  case two_mul_le => exact fun node _ => two_mul_trianglesThrough_le hts hnodup node
  case coefficient?_of_lt_two =>
    intro node hnode hdegree hlt
    rw [hcoefficient node hnode, if_pos hdegree, clusteringCoefficient, if_pos hlt]
  case isRatio =>
    intro node hnode hdegree hcard
    exact ⟨_, (hcoefficient node hnode).trans (if_pos hdegree),
      isRatio_clusteringCoefficient (two_mul_trianglesThrough_le hts hnodup node) hcard⟩

/-- Counting the triangles of an undirected view tells of every node how many of all triangles of
the view it is a corner of. -/
theorem exists_countTriangles (hv : v.Loaded) (hundirected : v.isUndirected = true)
    (config : TriangleSettings) (hworkers : 0 < config.workers) :
    ∃ ts r, triangles v config false = .ok (some ts) ∧
      countTriangles v config false = .ok (some r) ∧ r.Tallies v config.maxDegree ts ∧
      (v.DegreesFit → ∀ node < v.nodeCount, v.degree node = (v.targets node).length ∧
        (v.neighborSet node).card ≤ UInt32.size) := by
  have h := hv.sound
  refine ⟨_, _, triangles_eq_ok h hundirected hworkers,
    countTriangles_eq_ok h hundirected hworkers, ?_, fun hfits node hnode => ?_⟩
  · refine tallies_declaredClustering (fun t => (mem_allTriangles h hundirected t).mp) ?_
    exact Triangle.nodup_of_pairwise (pairwise_allTriangles h hundirected config.maxDegree)
  · exact ⟨h.degree_of_fits hfits hnode,
      (card_neighborSet_le_length v node).trans (hfits node hnode).le⟩

/-- Three nodes, every two of them related, are the corners of one triangle. -/
theorem isTriangle_threeNodeView : threeNodeView.IsTriangle 2 ⟨0, 1, 2⟩ := by
  have hadjacent : ∀ {x y}, x < 3 → y < 3 → y ≠ x →
      y ∈ threeNodeView.targets x ∧ x ∈ threeNodeView.targets y := fun hx hy hne =>
    ⟨(mem_targets_threeNodeView hx).mpr ⟨hy, hne⟩,
      (mem_targets_threeNodeView hy).mpr ⟨hx, hne.symm⟩⟩
  constructor
  case a_lt_b | b_lt_c | c_lt => decide
  case ab | ac | bc => exact hadjacent (by decide) (by decide) (by decide)
  case degree_a | degree_b | degree_c =>
    rw [loaded_threeNodeView.sound.degree_of_fits degreesFit_threeNodeView (by decide)]
    exact length_targets_threeNodeView_le (by decide)

/-- Of three nodes, every two of them related, each is a corner of one triangle and has all of its
neighbors related.  All are left out if two targets are too many. -/
theorem exists_countTriangles_threeNodes :
    (∃ r, countTriangles threeNodeView { workers := 2, maxDegree := 2 } false = .ok (some r) ∧
      ∀ node < 3, r.count? node = some 1 ∧ r.coefficient? node = some .one) ∧
    ∃ r, countTriangles threeNodeView { workers := 2, maxDegree := 1 } false = .ok (some r) ∧
      ∀ node < 3, r.count? node = none ∧ r.coefficient? node = none := by
  have hsound := loaded_threeNodeView.sound
  have hdegree : ∀ node < 3, threeNodeView.degree node = 2 := by
    intro node hnode
    refine Nat.le_antisymm ?_ ?_
    · rw [hsound.degree_of_fits degreesFit_threeNodeView hnode]
      exact length_targets_threeNodeView_le hnode
    · exact card_neighborSet_threeNodeView hnode ▸
        hsound.card_neighborSet_le hnode degreesFit_threeNodeView
  constructor
  · obtain ⟨ts, r, hts, hr, htally, -⟩ := exists_countTriangles loaded_threeNodeView
      isUndirected_threeNodeView { workers := 2, maxDegree := 2 } (by decide)
    rw [triangles_eq_ok hsound isUndirected_threeNodeView (by decide)] at hts
    cases hts
    refine ⟨r, hr, fun node hnode => ?_⟩
    have hone : trianglesThrough (threeNodeView.allTriangles 2) node = 1 := by
      refine Nat.le_antisymm ?_ (List.countP_pos_iff.mpr ⟨⟨0, 1, 2⟩, ?_, ?_⟩)
      · have htwice := htally.two_mul_le node hnode
        rw [card_neighborSet_threeNodeView hnode] at htwice
        exact Nat.le_of_mul_le_mul_left htwice Nat.two_pos
      · exact (mem_allTriangles hsound isUndirected_threeNodeView _).mpr isTriangle_threeNodeView
      · exact (by decide : ∀ node < 3, decide (node ∈ [0, 1, 2]) = true) node hnode
    have hle : threeNodeView.degree node ≤ 2 := Nat.le_of_eq (hdegree node hnode)
    have hcount := htally.count? node hnode hle
    have hcoefficient := htally.coefficient? node hnode hle
    rw [hone] at hcount hcoefficient
    have hone : clusteringCoefficient 1 2 = .one := by decide +kernel
    rw [card_neighborSet_threeNodeView hnode, hone] at hcoefficient
    exact ⟨hcount, hcoefficient⟩
  · obtain ⟨ts, r, -, hr, htally, -⟩ := exists_countTriangles loaded_threeNodeView
      isUndirected_threeNodeView { workers := 2, maxDegree := 1 } (by decide)
    refine ⟨r, hr, fun node hnode => ?_⟩
    have hlt : 1 < threeNodeView.degree node := hdegree node hnode ▸ Nat.one_lt_two
    exact ⟨(htally.count?_eq_none_iff node hnode).mpr hlt,
      (htally.coefficient?_eq_none_iff node hnode).mpr hlt⟩

end View

end PagedGraph
