import PagedGraph.Error

/-!
# Cutting nodes into ranges

Work on nodes `0` to `n` is cut into consecutive ranges of one size, the last of
which may be shorter.  Batches are ranges for algorithms: four a worker, but never of
fewer than `minBatch` nodes.  Shards are ranges for loading: four a worker, of at
least one node.
-/

namespace PagedGraph

/-- The nodes from `start` on and below `stop`. -/
structure NodeRange where
  start : Nat
  stop : Nat
deriving DecidableEq, Repr, Inhabited

namespace NodeRange

/-- The nodes of a range, ascending. -/
def nodes (r : NodeRange) : List Nat := List.range' r.start (r.stop - r.start)

/-- Number of nodes. -/
def size (r : NodeRange) : Nat := r.stop - r.start

end NodeRange

/-- Quotient rounded up. -/
def ceilDiv (n d : Nat) : Nat := (n + d - 1) / d

/-- The nodes below `n`, cut into ranges of `size` nodes. -/
def cutRanges (n size : Nat) : List NodeRange :=
  (List.range (ceilDiv n size)).map fun i => ⟨i * size, min (i * size + size) n⟩

/-- Ranges for every worker, so that one that is done early can take another. -/
def rangesPerWorker : Nat := 4

/-- The fewest nodes in a batch that is not the last. -/
def minBatch : Nat := 64

/-- Workers used when a configuration does not say. -/
def defaultWorkers : Nat := 4

/-- The largest degree a cutoff can name. -/
def maxDegreeCutoff : Nat := UInt32.size - 1

/-- Nodes in a batch that is not the last. -/
def nodesPerBatch (n workers : Nat) : Nat :=
  max (ceilDiv n (max workers 1 * rangesPerWorker)) minBatch

/-- The ranges of an algorithm over `n` nodes. -/
def batchesOf (n workers : Nat) : List NodeRange := cutRanges n (nodesPerBatch n workers)

/-- Nodes in a shard that is not the last. -/
def nodesPerShard (n workers : Nat) : Nat := max (ceilDiv n (workers * rangesPerWorker)) 1

/-- The ranges of a load of `n` nodes. -/
def shardsOf (n workers : Nat) : List NodeRange := cutRanges n (nodesPerShard n workers)

/-- A pool needs a worker. -/
def checkWorkers (workers : Nat) : Except GraphError Unit :=
  if workers = 0 then .error (.badConfiguration .noWorkers) else .ok ()

end PagedGraph
