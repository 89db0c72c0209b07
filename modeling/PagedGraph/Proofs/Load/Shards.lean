import PagedGraph.Load.Pages
import PagedGraph.Proofs.Work.CountingSort
import PagedGraph.Proofs.Work.Range

/-!
# Shards and calls

A call gives a source and a row.  `ShardedRows.ofCalls n size calls` are the shards after some
calls, one after another.

* New shards are those after no calls (`ofNodes_eq_ofCalls`), and adding a row is one more call,
  in the shard found by division (`push_ofCalls`).
* In the flat arrays of a shard the row at an index is that of the call at this index
  (`Shard.targetAt_ofCalls`, `Shard.valuesAt_ofCalls`).  Counting sort gives a node the indices
  of its calls (`Shard.itemsOf_ofCalls`).
* Entries with ascending indices are sorted like the rows they stand for
  (`Shard.mergeSort_entries`), so a node is given the rows of its calls in ascending order of
  targets, those of a target in the order of the calls.

The result is `ShardedRows.shardRows_ofCalls`.
-/

namespace PagedGraph

namespace Row

/-- Rows in ascending order of targets, parallel rows in the order they came. -/
def sort (rows : List Row) : List Row := rows.mergeSort fun a b => a.target ≤ b.target

/-- The rows of a node among calls that give a source and a row each. -/
def ofCalls (calls : List (Nat × Row)) (node : Nat) : List Row :=
  (calls.filter fun call => call.1 = node).map Prod.snd

end Row

/-- What a function gives for every node, cut into shards. -/
def cutRows {α : Type} (n size : Nat) (rows : Nat → α) : List (List α) :=
  (cutRanges n size).map fun r => r.nodes.map rows

/-- Put together, the shards are what the function gives for every node. -/
theorem flatten_cutRows {α : Type} (n : Nat) {size : Nat} (hsize : 0 < size) (rows : Nat → α) :
    (cutRows n size rows).flatten = (List.range n).map rows := by
  rw [← flatMap_nodes_cutRanges n hsize, List.map_flatMap, cutRows, List.flatMap_def]

/-! ## One shard -/

namespace Shard

/-- The shard after some calls. -/
def ofCalls (calls : List (Nat × Row)) : Shard where
  sources := (calls.map Prod.fst).toArray
  targets := (calls.map fun call => call.2.target).toArray
  values := (calls.flatMap fun call => call.2.values).toArray

theorem push_ofCalls (calls : List (Nat × Row)) (source : Nat) (row : Row) :
    (ofCalls calls).push source row = ofCalls (calls ++ [(source, row)]) := by
  simp [push, ofCalls]

variable {calls : List (Nat × Row)} {width : Nat}

theorem targetAt_ofCalls {index : Nat} (h : index < calls.length) :
    (ofCalls calls).targetAt index = calls[index].2.target := by
  simp [targetAt, ofCalls, h]

/-- In front of the values of a row there are those of the rows before it. -/
theorem take_drop_flatMap_values (calls : List (Nat × Row)) :
    (∀ call ∈ calls, call.2.values.length = width) → ∀ {index : Nat} (h : index < calls.length),
      ((calls.flatMap fun call => call.2.values).drop (index * width)).take width =
        calls[index].2.values := by
  induction calls with
  | nil => exact fun _ index h => absurd h (Nat.not_lt_zero index)
  | cons call calls ih =>
    intro hwidth index h
    obtain ⟨hcall, hcalls⟩ := List.forall_mem_cons.mp hwidth
    rw [List.flatMap_cons]
    cases index with
    | zero =>
      rw [Nat.zero_mul, List.drop_zero, ← hcall, List.take_left]
      rfl
    | succ index =>
      have hdrop : (index + 1) * width = call.2.values.length + index * width := by
        rw [hcall, Nat.add_mul, Nat.one_mul, Nat.add_comm]
      rw [hdrop, ← List.drop_drop, List.drop_left]
      exact ih hcalls (Nat.lt_of_succ_lt_succ h)

theorem valuesAt_ofCalls (hwidth : ∀ call ∈ calls, call.2.values.length = width) {index : Nat}
    (h : index < calls.length) : (ofCalls calls).valuesAt width index = calls[index].2.values := by
  have hlength : (index + 1) * width - index * width = width := by
    rw [Nat.add_mul, Nat.one_mul, Nat.add_sub_cancel_left]
  rw [valuesAt, Array.toList_extract, List.extract_eq_take_drop, hlength]
  exact take_drop_flatMap_values calls hwidth h

/-- Entries with ascending indices are sorted as their indices are by targets. -/
theorem mergeSort_entries (target : Nat → Nat) {indices : List Nat}
    (h : indices.Pairwise (· < ·)) :
    (indices.map fun index => (target index, index)).mergeSort entryLE =
      (indices.mergeSort fun i j => target i ≤ target j).map
        fun index => (target index, index) := by
  have hentries : indices.zipIdx.map (fun e => (target e.1, e.1)) =
      indices.map fun index => (target index, index) := by
    conv_rhs => rw [← List.zipIdx_map_fst 0 indices]
    rw [List.map_map]
    rfl
  -- of two indices the smaller one stands in front, so both orders compare entries alike
  have horder : ∀ a ∈ indices.zipIdx, ∀ b ∈ indices.zipIdx,
      List.zipIdxLE (fun i j => decide (target i ≤ target j)) a b =
        entryLE (target a.1, a.1) (target b.1, b.1) := by
    rintro ⟨i, k⟩ ha ⟨j, l⟩ hb
    obtain ⟨hk, rfl⟩ := List.getElem?_eq_some_iff.mp (List.mk_mem_zipIdx_iff_getElem?.mp ha)
    obtain ⟨hl, rfl⟩ := List.getElem?_eq_some_iff.mp (List.mk_mem_zipIdx_iff_getElem?.mp hb)
    have hle : indices[k] ≤ indices[l] ↔ k ≤ l := by
      constructor
      · intro hle
        by_contra hlt
        have := List.pairwise_iff_getElem.mp h l k hl hk (Nat.not_le.mp hlt)
        omega
      · intro hle
        rcases Nat.lt_or_eq_of_le hle with hlt | rfl
        · exact Nat.le_of_lt (List.pairwise_iff_getElem.mp h k l hk hl hlt)
        · exact Nat.le_refl _
    simp only [List.zipIdxLE, entryLE, hle, decide_eq_true_eq]
    split
    · next hfirst =>
      split
      · next hsecond => simp [Nat.le_antisymm hfirst hsecond]
      · next hsecond => simp [Nat.not_le.mp hsecond]
    · next hfirst => simp [Nat.not_lt.mpr (Nat.le_of_lt (Nat.not_le.mp hfirst)),
        Nat.ne_of_gt (Nat.not_le.mp hfirst)]
  have hsorted := List.map_mergeSort horder
  rw [hentries] at hsorted
  rw [← hsorted, ← @List.mergeSort_zipIdx _ _ indices, List.map_map]
  rfl

/-- Rows at ascending indices are sorted by targets, and those of a target keep their order. -/
theorem sortedRows_eq (s : Shard) (width : Nat) {indices : List Nat}
    (h : indices.Pairwise (· < ·)) : s.sortedRows width indices =
      Row.sort (indices.map fun index => ⟨s.targetAt index, s.valuesAt width index⟩) := by
  rw [sortedRows, mergeSort_entries s.targetAt h, List.map_map, Row.sort]
  exact List.map_mergeSort fun _ _ _ _ => rfl

/-- Counting sort gives a node the indices of its calls. -/
theorem itemsOf_ofCalls {r : NodeRange} {place : Nat} (hplace : place < r.size)
    (hsources : ∀ call ∈ calls, call.1 ∈ r.nodes) :
    (KeyGroups.ofItems (fun index => [(ofCalls calls).sources.getD index 0 - r.start])
      (ofCalls calls).sources.size r.size).itemsOf place =
        (List.range calls.length).filter fun index =>
          calls[index]?.map Prod.fst = some (r.start + place) := by
  have hcount : (ofCalls calls).sources.size = calls.length := by
    simp [ofCalls]
  have hsource : ∀ {index} (h : index < calls.length),
      (ofCalls calls).sources.getD index 0 = calls[index].1 := fun h => by simp [ofCalls, h]
  rw [hcount, KeyGroups.itemsOf_ofItems (fun _ => List.nodup_singleton _) ?_ hplace, itemsAmong]
  · refine List.filter_congr fun index hindex => ?_
    have hlt := List.mem_range.mp hindex
    obtain ⟨hstart, -⟩ := NodeRange.mem_nodes.mp (hsources _ (List.getElem_mem hlt))
    have hplace_iff : place = calls[index].1 - r.start ↔ calls[index].1 = r.start + place := by
      omega
    simp [hsource hlt, hlt, hplace_iff]
  · intro index hlt key hkey
    obtain ⟨hstart, hstop⟩ := NodeRange.mem_nodes.mp (hsources _ (List.getElem_mem hlt))
    rw [List.mem_singleton.mp hkey, hsource hlt, NodeRange.size]
    omega

/-- Reading a shard gives every node the rows of its calls, sorted. -/
theorem rowLists_ofCalls {r : NodeRange} (hsources : ∀ call ∈ calls, call.1 ∈ r.nodes)
    (hwidth : ∀ call ∈ calls, call.2.values.length = width) :
    (ofCalls calls).rowLists r width =
      r.nodes.map fun node => Row.sort (Row.ofCalls calls node) := by
  have hnodes : r.nodes = (List.range r.size).map (r.start + ·) := by
    rw [NodeRange.nodes, NodeRange.size, List.range'_eq_map_range]
  rw [rowLists, hnodes, List.map_map]
  refine List.map_congr_left fun place hplace => ?_
  rw [itemsOf_ofCalls (List.mem_range.mp hplace) hsources,
    sortedRows_eq _ _ (List.pairwise_lt_range.filter _), Function.comp_apply]
  -- the calls are those at all indices, so a test of calls is one of indices
  have hcalls : calls =
      (List.range calls.length).map fun index => calls.getD index (0, default) := by
    refine List.ext_getElem (by simp) fun index h _ => ?_
    simp [List.getD_eq_getElem?_getD, h]
  refine congrArg Row.sort ?_
  rw [Row.ofCalls]
  conv_rhs => rw [hcalls]
  rw [List.filter_map, List.map_map]
  refine (List.map_congr_left fun index hindex => ?_).trans
    (congrArg (List.map _) (List.filter_congr fun index hindex => ?_))
  · have hlt := List.mem_range.mp (List.mem_filter.mp hindex).1
    rw [targetAt_ofCalls hlt, valuesAt_ofCalls hwidth hlt, Function.comp_apply,
      List.getD_eq_getElem?_getD, List.getElem?_eq_getElem hlt]
    rfl
  · have hlt := List.mem_range.mp hindex
    simp [List.getD_eq_getElem?_getD, hlt]

end Shard

/-! ## All shards -/

namespace ShardedRows

/-- The shards after some calls. -/
def ofCalls (n size : Nat) (calls : List (Nat × Row)) : ShardedRows :=
  ⟨size, ((List.range (ceilDiv n size)).map fun index =>
    Shard.ofCalls (calls.filter fun call => call.1 / size = index)).toArray⟩

theorem ofNodes_eq_ofCalls (n workers : Nat) :
    ofNodes n workers = ofCalls n (PagedGraph.nodesPerShard n workers) [] := by
  simp [ofNodes, ofCalls, Shard.ofCalls, List.map_const']

/-- Every row is put behind the others, in the shard found by division. -/
theorem push_ofCalls (n size : Nat) (calls : List (Nat × Row)) (source : Nat) (row : Row) :
    (ofCalls n size calls).push source row = ofCalls n size (calls ++ [(source, row)]) := by
  simp only [push, ofCalls, mk.injEq, true_and]
  refine Array.ext (by simp) fun index h _ => ?_
  by_cases hshard : source / size = index
  · simp [hshard, Shard.push_ofCalls]
  · simp [hshard]

/-- The rows of pairs are put behind the others, each at its source. -/
theorem pushPairs_ofCalls (n size : Nat) (pairs : List (Nat × Nat)) (values : List Double)
    (calls : List (Nat × Row)) : (ofCalls n size calls).pushPairs pairs values =
      ofCalls n size (calls ++ pairs.map fun pair => (pair.1, ⟨pair.2, values⟩)) := by
  induction pairs generalizing calls with
  | nil => simp [pushPairs]
  | cons pair pairs ih =>
    rw [pushPairs, List.foldl_cons, push_ofCalls, ← pushPairs, ih, List.append_assoc]
    rfl

theorem range_ofCalls (n size : Nat) (calls : List (Nat × Row)) (index : Nat) :
    (ofCalls n size calls).range n index = ⟨index * size, min (index * size + size) n⟩ := rfl

/-- Calls whose sources are nodes, with a value for every property. -/
structure Takes (n width : Nat) (calls : List (Nat × Row)) : Prop where
  source_lt : ∀ call ∈ calls, call.1 < n
  length_values : ∀ call ∈ calls, call.2.values.length = width

variable {n size width : Nat} {calls : List (Nat × Row)}

/-- The sources of the calls of a shard are nodes of its range. -/
theorem Takes.mem_range (h : Takes n width calls) (hsize : 0 < size) (index : Nat) :
    ∀ call ∈ calls.filter fun call => call.1 / size = index,
      call.1 ∈ ((ofCalls n size calls).range n index).nodes := by
  intro call hcall
  obtain ⟨hmem, hindex⟩ := List.mem_filter.mp hcall
  obtain rfl := of_decide_eq_true hindex
  refine NodeRange.mem_nodes.mpr ⟨Nat.div_mul_le_self .., Nat.lt_min.mpr ⟨?_, h.source_lt _ hmem⟩⟩
  exact Nat.lt_div_mul_add hsize

/-- The calls of a node are all in the shard of its range. -/
theorem ofCalls_filter {node index : Nat}
    (hnode : node ∈ ((ofCalls n size calls).range n index).nodes) :
    Row.ofCalls (calls.filter fun call => call.1 / size = index) node = Row.ofCalls calls node := by
  rw [Row.ofCalls, Row.ofCalls, List.filter_filter]
  refine congrArg (List.map Prod.snd) (List.filter_congr fun call _ => ?_)
  rw [Bool.and_eq_left_iff_imp, decide_eq_true_eq, decide_eq_true_eq]
  rintro rfl
  obtain ⟨hstart, hstop⟩ := NodeRange.mem_nodes.mp hnode
  refine Nat.div_eq_of_lt_le hstart ?_
  rw [Nat.add_mul, Nat.one_mul]
  exact Nat.lt_of_lt_of_le hstop (Nat.min_le_left ..)

/-- Reading the shards gives every node the rows of its calls, sorted. -/
theorem shardRows_ofCalls (h : Takes n width calls) (hsize : 0 < size) :
    (ofCalls n size calls).shardRows n width =
      cutRows n size fun node => Row.sort (Row.ofCalls calls node) := by
  have hlists : ∀ index : Nat,
      (Shard.ofCalls (calls.filter fun call => call.1 / size = index)).rowLists
        ((ofCalls n size calls).range n index) width =
      ((ofCalls n size calls).range n index).nodes.map
        fun node => Row.sort (Row.ofCalls calls node) := by
    intro index
    rw [Shard.rowLists_ofCalls (h.mem_range hsize index)
      fun call hcall => h.length_values call (List.mem_of_mem_filter hcall)]
    exact List.map_congr_left fun node hnode => congrArg Row.sort (ofCalls_filter hnode)
  refine List.ext_getElem (by simp [shardRows, ofCalls, cutRows, cutRanges]) fun index h _ => ?_
  simpa [shardRows, ofCalls, cutRows, cutRanges, range] using hlists index

end ShardedRows

end PagedGraph
