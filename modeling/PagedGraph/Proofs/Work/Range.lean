import PagedGraph.Work.Range

/-!
# Ranges cover the nodes

Consecutive ranges of one size, put one after another, are all nodes in ascending order
(`flatMap_nodes_cutRanges`).  This holds of shards and of batches, for any number of
workers.

`NodeRange.Chain` says that ranges with nodes follow one another without a gap.  Ranges of one
size do from the first node to the last (`chain_cutRanges`), all but the last of them are full
(`size_of_mem_dropLast`), and there are no more of them than asked for
(`length_cutRanges_le`).  `CutsEvenly` is all of this, and holds of batches and of shards.
-/

namespace PagedGraph

theorem NodeRange.mem_nodes {r : NodeRange} {node : Nat} :
    node ∈ r.nodes ↔ r.start ≤ node ∧ node < r.stop := by
  rw [nodes, List.mem_range'_1]
  omega

theorem le_ceilDiv_mul (n : Nat) {d : Nat} (hd : 0 < d) : n ≤ ceilDiv n d * d := by
  have hlt := Nat.lt_mul_div_succ (n + d - 1) hd
  rw [ceilDiv, Nat.mul_comm]
  rw [Nat.mul_add] at hlt
  omega

theorem range_append_range' {m n : Nat} (h : m ≤ n) :
    List.range m ++ List.range' m (n - m) = List.range n := by
  obtain ⟨k, rfl⟩ := Nat.exists_eq_add_of_le h
  rw [Nat.add_sub_cancel_left, List.range_add, List.range'_eq_map_range]

/-- The first ranges cover the nodes up to where they stop. -/
theorem flatMap_nodes_range (n size count : Nat) :
    (List.range count).flatMap (fun i => NodeRange.nodes ⟨i * size, min (i * size + size) n⟩) =
      List.range (min (count * size) n) := by
  induction count with
  | zero => simp
  | succ count ih =>
    rw [List.range_succ, List.flatMap_append, ih, List.flatMap_singleton, NodeRange.nodes]
    simp only [Nat.add_mul, Nat.one_mul]
    by_cases h : count * size ≤ n
    · rw [Nat.min_eq_left h]
      exact range_append_range' (by omega)
    · have hempty : min (count * size + size) n - count * size = 0 := by
        omega
      rw [hempty, List.range'_zero, List.append_nil, Nat.min_eq_right (by omega),
        Nat.min_eq_right (by omega)]

theorem flatMap_nodes_cutRanges (n : Nat) {size : Nat} (hsize : 0 < size) :
    (cutRanges n size).flatMap NodeRange.nodes = List.range n := by
  rw [cutRanges, List.flatMap_map, flatMap_nodes_range, Nat.min_eq_right (le_ceilDiv_mul n hsize)]

theorem nodesPerShard_pos (n workers : Nat) : 0 < nodesPerShard n workers :=
  Nat.lt_of_lt_of_le Nat.one_pos (Nat.le_max_right ..)

theorem nodesPerBatch_pos (n workers : Nat) : 0 < nodesPerBatch n workers :=
  Nat.lt_of_lt_of_le (by decide) (Nat.le_max_right ..)

/-- The batches of some nodes are all of them, in order. -/
theorem flatMap_nodes_batchesOf (n workers : Nat) :
    (batchesOf n workers).flatMap NodeRange.nodes = List.range n :=
  flatMap_nodes_cutRanges n (nodesPerBatch_pos n workers)

/-! ## One after another -/

/-- Ranges with nodes, each of which starts where the one before it stops. -/
inductive NodeRange.Chain : Nat → List NodeRange → Nat → Prop
  | nil (stop : Nat) : Chain stop [] stop
  | cons {r : NodeRange} {rest : List NodeRange} {stop : Nat} (nonempty : r.start < r.stop)
    (tail : Chain r.stop rest stop) : Chain r.start (r :: rest) stop

/-- A range of the cut has nodes if it starts before the end. -/
theorem lt_ceilDiv_iff {n d i : Nat} (hd : 0 < d) : i < ceilDiv n d ↔ i * d < n := by
  rw [ceilDiv, Nat.lt_iff_add_one_le, Nat.le_div_iff_mul_le hd, Nat.add_mul, Nat.one_mul]
  omega

theorem ceilDiv_le_iff {n d k : Nat} (hd : 0 < d) : ceilDiv n d ≤ k ↔ n ≤ k * d := by
  rw [← Nat.not_lt, ← Nat.not_lt, lt_ceilDiv_iff hd]

/-- The ranges from some number on lead from where it starts to the end. -/
theorem chain_cutFrom (n : Nat) {size : Nat} (hsize : 0 < size) (count : Nat) :
    ∀ i : Nat, i + count = ceilDiv n size →
      NodeRange.Chain (min (i * size) n)
        ((List.range' i count).map fun i => ⟨i * size, min (i * size + size) n⟩) n := by
  induction count with
  | zero =>
    intro i hi
    have hend : n ≤ i * size := (ceilDiv_le_iff hsize).mp (Nat.le_of_eq hi.symm)
    rw [Nat.min_eq_right hend]
    exact .nil n
  | succ count ih =>
    intro i hi
    have hstart : i * size < n := (lt_ceilDiv_iff hsize).mp (by omega)
    have hnext := ih (i + 1) (by omega)
    rw [Nat.add_mul, Nat.one_mul] at hnext
    rw [List.range'_succ, List.map_cons, Nat.min_eq_left (Nat.le_of_lt hstart)]
    exact .cons (r := ⟨i * size, min (i * size + size) n⟩) (by simp only; omega) hnext

theorem chain_cutRanges (n : Nat) {size : Nat} (hsize : 0 < size) :
    NodeRange.Chain 0 (cutRanges n size) n := by
  have h := chain_cutFrom n hsize (ceilDiv n size) 0 (Nat.zero_add _)
  rwa [Nat.zero_mul, Nat.zero_min, ← List.range_eq_range'] at h

/-- No range has more nodes than the size. -/
theorem size_le_of_mem_cutRanges {n size : Nat} {r : NodeRange} (h : r ∈ cutRanges n size) :
    r.size ≤ size := by
  obtain ⟨i, -, rfl⟩ := List.mem_map.mp h
  simp only [NodeRange.size]
  omega

/-- All ranges but the last are full. -/
theorem size_of_mem_dropLast {n size : Nat} (hsize : 0 < size) {r : NodeRange}
    (h : r ∈ (cutRanges n size).dropLast) : r.size = size := by
  rw [cutRanges, ← List.map_dropLast, List.dropLast_eq_take, List.length_range, List.take_range]
    at h
  obtain ⟨i, hi, rfl⟩ := List.mem_map.mp h
  have hlt := List.mem_range.mp hi
  have hnext : (i + 1) * size < n := (lt_ceilDiv_iff hsize).mp (by omega)
  rw [Nat.add_mul, Nat.one_mul] at hnext
  simp only [NodeRange.size]
  omega

/-- Ranges that are large enough for so many are no more than that. -/
theorem length_cutRanges_le {n size count : Nat} (hcount : 0 < count)
    (hsize : ceilDiv n count ≤ size) (hpos : 0 < size) : (cutRanges n size).length ≤ count := by
  rw [cutRanges, List.length_map, List.length_range, ceilDiv_le_iff hpos, Nat.mul_comm]
  exact (ceilDiv_le_iff hcount).mp hsize

/-- Ranges with nodes that follow one another from the first of `n` nodes to the last.  All but the
last range have one size of at least `least`, and there are at most `most` ranges. -/
structure CutsEvenly (ranges : List NodeRange) (n least most : Nat) : Prop where
  chain : NodeRange.Chain 0 ranges n
  sizes : ∃ size, least ≤ size ∧ (∀ r ∈ ranges.dropLast, r.size = size) ∧
    ∀ r ∈ ranges, r.size ≤ size
  length_le : ranges.length ≤ most

theorem cutsEvenly_cutRanges {n size least most : Nat} (hleast : 0 < least) (hsize : least ≤ size)
    (hmost : 0 < most) (hlength : ceilDiv n most ≤ size) :
    CutsEvenly (cutRanges n size) n least most := by
  have hpos := Nat.lt_of_lt_of_le hleast hsize
  refine ⟨chain_cutRanges n hpos, ⟨size, hsize, ?_, ?_⟩, length_cutRanges_le hmost hlength hpos⟩
  · exact fun r hr => size_of_mem_dropLast hpos hr
  · exact fun r hr => size_le_of_mem_cutRanges hr

/-- At most four batches a worker, of 64 nodes or more. -/
theorem cutsEvenly_batchesOf (n : Nat) {workers : Nat} (h : 0 < workers) :
    CutsEvenly (batchesOf n workers) n 64 (4 * workers) := by
  refine cutsEvenly_cutRanges (by decide) (Nat.le_max_right ..) (by omega) ?_
  rw [nodesPerBatch, Nat.max_eq_left h, Nat.mul_comm]
  exact Nat.le_max_left ..

/-- At most four shards a worker, of any number of nodes. -/
theorem cutsEvenly_shardsOf (n : Nat) {workers : Nat} (h : 0 < workers) :
    CutsEvenly (shardsOf n workers) n 1 (4 * workers) := by
  refine cutsEvenly_cutRanges Nat.one_pos (Nat.le_max_right ..) (by omega) ?_
  rw [nodesPerShard, Nat.mul_comm]
  exact Nat.le_max_left ..

theorem checkWorkers_eq_ok {workers : Nat} (h : 0 < workers) : checkWorkers workers = .ok () :=
  if_neg (Nat.pos_iff_ne_zero.mp h)

end PagedGraph
