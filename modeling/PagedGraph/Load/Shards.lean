import PagedGraph.Load.Row
import PagedGraph.Work.CountingSort
import PagedGraph.Work.Range

/-!
# Sharded rows

Rows wait in `ShardedRows` until all are there.  The nodes are cut into shards of equal size,
so the shard of a source is found by division, and the range of a shard by multiplication.

A `Shard` keeps its rows one behind another, in the order they came: the sources, the
targets, and the values of all rows in one array.  Reading it puts the rows of every node of
its range together by counting sort.  Those of a node are then brought into ascending order
of targets, and of two with the same target the one that came first stays in front.
-/

namespace PagedGraph

/-- The rows that wait in a shard, in the order they came. -/
structure Shard where
  /-- The source of every row. -/
  sources : Array Nat := #[]
  /-- The target of every row. -/
  targets : Array Nat := #[]
  /-- The values of all rows, those of a row next to each other. -/
  values : Array Double := #[]
deriving DecidableEq, Repr, Inhabited

namespace Shard

/-- Put a row behind the others. -/
def push (s : Shard) (source : Nat) (row : Row) : Shard :=
  match s with
  | ⟨sources, targets, values⟩ =>
    ⟨sources.push source, targets.push row.target, values ++ row.values⟩

/-- The target of the row at an index. -/
def targetAt (s : Shard) (index : Nat) : Nat := s.targets.getD index 0

/-- The values of the row at an index, if every row has `width` values. -/
def valuesAt (s : Shard) (width index : Nat) : List Double :=
  (s.values.extract (index * width) ((index + 1) * width)).toList

/-- The order of entries, a target and the index of a row each. -/
def entryLE (a b : Nat × Nat) : Bool := a.1 < b.1 || a.1 == b.1 && a.2 ≤ b.2

/-- The rows at some indices, by targets and then by indices. -/
def sortedRows (s : Shard) (width : Nat) (indices : List Nat) : List Row :=
  let entries := (indices.map fun index => (s.targetAt index, index)).mergeSort entryLE
  entries.map fun (target, index) => ⟨target, s.valuesAt width index⟩

/-- The rows of every node of a range, which has the sources of the shard. -/
def rowLists (s : Shard) (r : NodeRange) (width : Nat) : List (List Row) :=
  let groups := KeyGroups.ofItems (fun index => [s.sources.getD index 0 - r.start])
    s.sources.size r.size
  (List.range r.size).map fun place => s.sortedRows width (groups.itemsOf place)

end Shard

/-- The rows of all sources. -/
structure ShardedRows where
  /-- Sources in a shard. -/
  nodesPerShard : Nat
  shards : Array Shard
deriving DecidableEq, Repr, Inhabited

namespace ShardedRows

/-- No rows, for `n` sources and some workers. -/
def ofNodes (n workers : Nat) : ShardedRows :=
  let size := PagedGraph.nodesPerShard n workers
  ⟨size, Array.replicate (ceilDiv n size) {}⟩

/-- Put a row behind the others of the shard of its source. -/
def push (b : ShardedRows) (source : Nat) (row : Row) : ShardedRows :=
  match b with
  | ⟨size, shards⟩ => ⟨size, shards.modify (source / size) (·.push source row)⟩

/-- Add a row with the same values for each of some pairs of a source and a target. -/
def pushPairs (b : ShardedRows) (pairs : List (Nat × Nat)) (values : List Double) : ShardedRows :=
  pairs.foldl (fun b pair => b.push pair.1 ⟨pair.2, values⟩) b

/-- The nodes of the shard at an index, of `n` nodes. -/
def range (b : ShardedRows) (n index : Nat) : NodeRange :=
  ⟨index * b.nodesPerShard, min (index * b.nodesPerShard + b.nodesPerShard) n⟩

/-- The rows of every node of every shard, of `n` nodes. -/
def shardRows (b : ShardedRows) (n width : Nat) : List (List (List Row)) :=
  b.shards.toList.mapIdx fun index shard => shard.rowLists (b.range n index) width

end ShardedRows

end PagedGraph
