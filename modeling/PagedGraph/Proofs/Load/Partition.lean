import PagedGraph.Proofs.Load.Relationships

/-!
# Ranges partition the nodes

The rows of a node wait in the shard that division finds for it, and each shard is written
on its own.

* Rows that are pushed one after another wait in the shard of their source, in the order they
  came (`ShardedRows.pushAll_ofNodes`).
* A shard has an offset for each of its nodes (`RunWriter.offsetTables`).  The offsets of all
  shards, one shard after another, are those of the finished table, so the offset of a node
  stands at its own index (`RunTable.joinedFrom_offsetTables`).

`batches_and_shards_partition` says this together with how batches and shards cut the nodes.
-/

namespace PagedGraph

/-! ## Shards -/

namespace ShardedRows

/-- Push a row for each call, one after another. -/
def pushAll (b : ShardedRows) (calls : List (Nat × Row)) : ShardedRows :=
  calls.foldl (fun b call => b.push call.1 call.2) b

/-- The ranges of all shards, of `n` nodes. -/
def ranges (b : ShardedRows) (n : Nat) : List NodeRange :=
  (List.range b.shards.size).map (b.range n)

theorem pushAll_ofCalls (n size : Nat) (calls before : List (Nat × Row)) :
    (ofCalls n size before).pushAll calls = ofCalls n size (before ++ calls) := by
  induction calls generalizing before with
  | nil => simp [pushAll]
  | cons call calls ih =>
    rw [pushAll, List.foldl_cons, push_ofCalls, ← pushAll, ih, List.append_assoc]
    rfl

theorem pushAll_ofNodes (n workers : Nat) (calls : List (Nat × Row)) :
    (ofNodes n workers).pushAll calls = ofCalls n (PagedGraph.nodesPerShard n workers) calls := by
  rw [ofNodes_eq_ofCalls, pushAll_ofCalls, List.nil_append]

theorem ranges_ofCalls (n size : Nat) (calls : List (Nat × Row)) :
    (ofCalls n size calls).ranges n = cutRanges n size := by
  simp [ranges, cutRanges, ofCalls, range]

/-- Division finds the shard of a node, and reading it gives the node the rows of its calls. -/
theorem getElem?_shards_ofCalls {n size width : Nat} {calls : List (Nat × Row)}
    (hcalls : Takes n width calls) (hsize : 0 < size) {node : Nat} (hnode : node < n) :
    let shard := Shard.ofCalls (calls.filter fun call => call.1 / size = node / size)
    let r := (ofCalls n size calls).range n (node / size)
    (ofCalls n size calls).shards[node / size]? = some shard ∧ node ∈ r.nodes ∧
      (shard.rowLists r width)[node % size]? = some (Row.sort (Row.ofCalls calls node)) := by
  intro shard r
  have hstart : node / size * size ≤ node := Nat.div_mul_le_self ..
  have hindex : node / size < ceilDiv n size :=
    (lt_ceilDiv_iff hsize).mpr (Nat.lt_of_le_of_lt hstart hnode)
  have hmem : node ∈ r.nodes :=
    NodeRange.mem_nodes.mpr ⟨hstart, Nat.lt_min.mpr ⟨Nat.lt_div_mul_add hsize, hnode⟩⟩
  have hplace : r.nodes[node % size]? = some node := by
    obtain ⟨-, hstop⟩ := NodeRange.mem_nodes.mp hmem
    have hsum : node / size * size + node % size = node := Nat.div_add_mod' ..
    rw [NodeRange.nodes, List.getElem?_range' (by simp only [r, range_ofCalls] at hstop ⊢; omega)]
    simpa [r, range_ofCalls] using hsum
  refine ⟨by simp [ofCalls, hindex, shard], hmem, ?_⟩
  rw [Shard.rowLists_ofCalls (hcalls.mem_range hsize _)
    fun call hcall => hcalls.length_values call (List.mem_of_mem_filter hcall),
    List.getElem?_map, hplace, Option.map_some, ofCalls_filter hmem]

end ShardedRows

/-! ## Offsets -/

namespace RunWriter

/-- The offsets of each shard, which is written on its own with the next free pages. -/
def offsetTables : PageCounter → List (List (List UInt8)) → List (List Nat)
  | _, [] => []
  | counter, runs :: rest =>
    let shard := runs.foldl write { counter }
    shard.offsets.toList :: offsetTables shard.counter rest

/-- A writer with some offsets in front of its own. -/
def behind (offsets : Array Nat) (w : RunWriter) : RunWriter :=
  { w with offsets := offsets ++ w.offsets }

theorem write_behind (offsets : Array Nat) (w : RunWriter) (run : List UInt8) :
    (w.behind offsets).write run = (w.write run).behind offsets := by
  rw [behind, write, write]
  split <;> simp [behind]

/-- Offsets that are there do not change what is written. -/
theorem foldl_write_behind (offsets : Array Nat) (runs : List (List UInt8)) :
    ∀ w : RunWriter, runs.foldl write (w.behind offsets) = (runs.foldl write w).behind offsets := by
  induction runs with
  | nil => exact fun w => rfl
  | cons run runs ih =>
    intro w
    rw [List.foldl_cons, write_behind, ih, List.foldl_cons]

/-- A run adds one offset. -/
theorem size_offsets_write (w : RunWriter) (run : List UInt8) :
    (w.write run).offsets.size = w.offsets.size + 1 := by
  rw [write]
  split <;> exact Array.size_push _

theorem size_offsets_foldl_write (runs : List (List UInt8)) :
    ∀ w : RunWriter, (runs.foldl write w).offsets.size = w.offsets.size + runs.length := by
  induction runs with
  | nil => exact fun w => rfl
  | cons run runs ih =>
    intro w
    rw [List.foldl_cons, ih, size_offsets_write, List.length_cons]
    omega

theorem map_length_offsetTables (shards : List (List (List UInt8))) :
    ∀ counter : PageCounter,
      (offsetTables counter shards).map List.length = shards.map List.length := by
  induction shards with
  | nil => exact fun counter => rfl
  | cons runs rest ih =>
    intro counter
    rw [offsetTables, List.map_cons, ih, Array.length_toList, size_offsets_foldl_write,
      List.map_cons]
    simp

/-- The tables of the shards stand behind the offsets that are there. -/
theorem offsets_writeShards (shards : List (List (List UInt8))) :
    ∀ (before : List Page) (counter : PageCounter) (offsets : Array Nat),
      (writeShards before ⟨counter, {}, offsets⟩ shards).2.offsets.toList =
        offsets.toList ++ (offsetTables counter shards).flatten := by
  induction shards with
  | nil => exact fun before counter offsets => (List.append_nil _).symm
  | cons runs rest ih =>
    intro before counter offsets
    -- The writer has the offsets of earlier shards, which the table of this one starts without.
    have hshard : runs.foldl write ⟨counter, {}, offsets⟩ =
        (runs.foldl write { counter }).behind offsets := by
      rw [← foldl_write_behind]
      simp [behind]
    rw [writeShards, hshard, offsetTables, List.flatten_cons, ← List.append_assoc]
    refine (ih _ _ _).trans (congrArg (· ++ _) ?_)
    exact Array.toList_append

end RunWriter

/-- In lists that are full but for the last, an item is found by division. -/
theorem getElem?_flatten_of_full {α : Type} {size : Nat} (hsize : 0 < size) :
    ∀ lists : List (List α), (∀ k ∈ (lists.map List.length).dropLast, k = size) →
      (∀ k ∈ lists.map List.length, k ≤ size) → ∀ i : Nat,
      lists.flatten[i]? = lists[i / size]?.bind fun list => list[i % size]?
  | [], _, _, i => by simp
  | [list], _, hle, i => by
    have hlast := hle list.length (List.mem_singleton_self _)
    by_cases hi : i < size
    · simp [Nat.div_eq_of_lt hi, Nat.mod_eq_of_lt hi]
    · have hindex : 1 ≤ i / size := (Nat.one_le_div_iff hsize).mpr (Nat.le_of_not_lt hi)
      rw [List.flatten_singleton, List.getElem?_eq_none (by omega), List.getElem?_eq_none hindex]
      rfl
  | first :: list :: rest, hfull, hle, i => by
    have hfirst : first.length = size := hfull first.length (List.mem_cons_self ..)
    have ih := getElem?_flatten_of_full hsize (list :: rest)
      (fun k hk => hfull k (List.mem_cons_of_mem _ hk))
      fun k hk => hle k (List.mem_cons_of_mem _ hk)
    by_cases hi : i < size
    · rw [List.flatten_cons, List.getElem?_append_left (by omega), Nat.div_eq_of_lt hi,
        Nat.mod_eq_of_lt hi]
      rfl
    · -- Behind the first list, which is full, the quotient is one more and the remainder the same.
      obtain ⟨k, rfl⟩ := Nat.exists_eq_add_of_le (Nat.le_of_not_lt hi)
      rw [List.flatten_cons, List.getElem?_append_right (by omega), hfirst,
        Nat.add_sub_cancel_left, ih, Nat.add_div_left _ hsize, Nat.add_mod_left]
      rfl

/-- What shards of one size add to a table of `n` nodes, when they write the runs that a function
gives. -/
structure RunTable.JoinedFrom (t : RunTable) (n size : Nat) (tables : List (List Nat))
    (runs : Nat → List UInt8) : Prop where
  /-- Each shard has an entry for each of its nodes. -/
  lengths : tables.map List.length = (cutRanges n size).map NodeRange.size
  /-- The table has the entries of the shards in order. -/
  join : t.offsets.toList = tables.flatten
  /-- There is one for each node. -/
  size_offsets : t.offsets.size = n
  /-- It is the one that the shard of the node has for it. -/
  entry : ∀ node < n, ∃ table, tables[node / size]? = some table ∧
    table[node % size]? = some (t.offset node)
  /-- It leads to the run of the node. -/
  holds : ∀ node < n, t.Holds node (runs node)

theorem RunTable.joinedFrom_offsetTables (n : Nat) {size : Nat} (hsize : 0 < size)
    (run : List Row → List UInt8) (rows : Nat → List Row) :
    let shards := (cutRows n size rows).map fun nodes => nodes.map run
    (ofShards shards).JoinedFrom n size (RunWriter.offsetTables {} shards)
      fun node => run (rows node) := by
  intro shards
  have hflat : shards.flatten = (List.range n).map fun node => run (rows node) := by
    rw [flatten_map_map, flatten_cutRows n hsize, List.map_map]
    rfl
  have hjoin : (ofShards shards).offsets.toList = (RunWriter.offsetTables {} shards).flatten :=
    RunWriter.offsets_writeShards shards [] {} #[]
  have hcount : (ofShards shards).offsets.size = n :=
    (size_offsets_ofShards shards).trans (length_of_flatten_eq hflat)
  have hlengths : (RunWriter.offsetTables {} shards).map List.length =
      (cutRanges n size).map NodeRange.size := by
    rw [RunWriter.map_length_offsetTables]
    simp [shards, cutRows, NodeRange.nodes, NodeRange.size]
  refine ⟨hlengths, hjoin, hcount, fun node hnode => ?_,
    fun node hnode => holds_ofShards (getElem?_of_flatten_eq hflat hnode)⟩
  have hfull : ∀ k ∈ ((RunWriter.offsetTables {} shards).map List.length).dropLast, k = size := by
    rw [hlengths, ← List.map_dropLast]
    exact List.forall_mem_map.mpr fun r hr => size_of_mem_dropLast hsize hr
  have hle : ∀ k ∈ (RunWriter.offsetTables {} shards).map List.length, k ≤ size := by
    rw [hlengths]
    exact List.forall_mem_map.mpr fun r hr => size_le_of_mem_cutRanges hr
  have hentry : (RunWriter.offsetTables {} shards).flatten[node]? =
      some ((ofShards shards).offset node) := by
    have hlt : node < (ofShards shards).offsets.size := by omega
    rw [← hjoin, Array.getElem?_toList, offset, Array.getElem?_eq_getElem hlt]
    simp [Array.getD, hlt]
  rw [getElem?_flatten_of_full hsize _ hfull hle] at hentry
  exact Option.bind_eq_some_iff.mp hentry

/-! ## The partition -/

/-- Sharded rows of `n` nodes after some calls, which give `width` values each. -/
structure ShardedRows.Partitions (b : ShardedRows) (n workers width : Nat)
    (calls : List (Nat × Row)) : Prop where
  /-- The shard at an index starts at that many times the size, and stops one size later or at the
  end. -/
  ranges : b.ranges n = cutRanges n b.nodesPerShard
  cutsEvenly : CutsEvenly (b.ranges n) n 1 (4 * workers)
  /-- Division finds the shard of a node.  It has the rows of its sources in the order they came,
  and reading it gives the node those of its own. -/
  shard : ∀ node < n, ∃ shard, b.shards[node / b.nodesPerShard]? = some shard ∧
    shard = .ofCalls (calls.filter fun call => call.1 / b.nodesPerShard = node / b.nodesPerShard) ∧
    node ∈ (b.range n (node / b.nodesPerShard)).nodes ∧
    (shard.rowLists (b.range n (node / b.nodesPerShard)) width)[node % b.nodesPerShard]? =
      some (Row.sort (Row.ofCalls calls node))
  /-- Whatever is written of the rows as they are stored, which they are if degrees can count them,
  the offsets of the shards make up those of the table. -/
  tables : ∀ p : Projection, p.validate = .ok () → p.properties.length = width →
    ∃ stored : Nat → List Row,
      (∀ node, Row.arrange p.aggregation.collapses p.aggregations (Row.ofCalls calls node) =
        .ok (stored node)) ∧
      ((∃ shards, RelationshipLoader.arranged p n b = .ok shards) ↔
        ∀ node < n, (stored node).length < UInt32.size) ∧
      ∀ {shards}, RelationshipLoader.arranged p n b = .ok shards → ∀ run : List Row → List UInt8,
        (RunTable.ofShards (shards.map fun nodes => nodes.map run)).JoinedFrom n b.nodesPerShard
          (RunWriter.offsetTables {} (shards.map fun nodes => nodes.map run))
          fun node => run (stored node)

theorem ShardedRows.partitions_pushAll {n workers width : Nat} (hworkers : 0 < workers)
    {calls : List (Nat × Row)} (hcalls : Takes n width calls) :
    ((ofNodes n workers).pushAll calls).Partitions n workers width calls := by
  have hsize := nodesPerShard_pos n workers
  rw [pushAll_ofNodes]
  constructor
  case ranges => exact ranges_ofCalls n _ calls
  case cutsEvenly =>
    rw [ranges_ofCalls]
    exact cutsEvenly_shardsOf n hworkers
  case shard =>
    intro node hnode
    obtain ⟨hshard, hmem, hrows⟩ := getElem?_shards_ofCalls hcalls hsize hnode
    exact ⟨_, hshard, rfl, hmem, hrows⟩
  case tables =>
    intro p hvalid hwidth
    subst hwidth
    obtain ⟨stored, hstored, -⟩ := exists_arranged hvalid (Row.ofCalls calls)
    refine ⟨stored, hstored, ⟨?_, fun hfit => ?_⟩, fun {shards} hshards run => ?_⟩
    · rintro ⟨shards, hshards⟩
      exact RelationshipLoader.length_lt_of_arranged_eq_ok hcalls hsize hstored hshards
    · exact ⟨_, RelationshipLoader.arranged_eq_ok hcalls hsize hstored hfit⟩
    · have hfit := RelationshipLoader.length_lt_of_arranged_eq_ok hcalls hsize hstored hshards
      rw [RelationshipLoader.arranged_eq_ok hcalls hsize hstored hfit] at hshards
      cases hshards
      exact RunTable.joinedFrom_offsetTables n hsize run stored

/-- Batches cut the nodes evenly, and so do shards.  A row is found by division in the shard of its
source.  The offsets of the shards, put together, have one entry for each node at its own index. -/
theorem batches_and_shards_partition (n : Nat) {workers : Nat} (hworkers : 0 < workers) :
    CutsEvenly (batchesOf n workers) n 64 (4 * workers) ∧
      ∀ {width : Nat} {calls : List (Nat × Row)}, ShardedRows.Takes n width calls →
        ((ShardedRows.ofNodes n workers).pushAll calls).Partitions n workers width calls :=
  ⟨cutsEvenly_batchesOf n hworkers, ShardedRows.partitions_pushAll hworkers⟩

/-- A worker has three batches of 130 nodes, but four shards, the last of which starts at node 99
and is not full. -/
theorem batches_and_shards_partition_oneWorker :
    (0 < 1 ∧ ({} : Projection).validate = .ok ()) ∧
      CutsEvenly [⟨0, 64⟩, ⟨64, 128⟩, ⟨128, 130⟩] 130 64 4 ∧
      ((ShardedRows.ofNodes 130 1).pushAll [(98, ⟨0, []⟩), (99, ⟨1, []⟩)]).ranges 130 =
        [⟨0, 33⟩, ⟨33, 66⟩, ⟨66, 99⟩, ⟨99, 130⟩] ∧
      ((ShardedRows.ofNodes 130 1).pushAll [(98, ⟨0, []⟩), (99, ⟨1, []⟩)]).Partitions 130 1 0
        [(98, ⟨0, []⟩), (99, ⟨1, []⟩)] := by
  obtain ⟨hbatches, hshards⟩ := batches_and_shards_partition 130 Nat.one_pos
  have hcalls : ShardedRows.Takes 130 0 [(98, ⟨0, []⟩), (99, ⟨1, []⟩)] :=
    ⟨by decide, by decide⟩
  exact ⟨⟨Nat.one_pos, rfl⟩, hbatches, (hshards hcalls).ranges, hshards hcalls⟩

end PagedGraph
