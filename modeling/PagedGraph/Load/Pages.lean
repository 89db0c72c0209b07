import PagedGraph.Load.Shards
import PagedGraph.Adjacency.Basic

/-!
# From rows to pages

Every node with rows gets a run of targets, and one run of values for each property.
The runs of a table are written shard by shard.  A shard fills pages of its own, which
are claimed from a counter the shards share.  Runs and offsets:

* A run of targets is the degree, then the differences of the targets in groups of
  seven bits.
* A run of values is eight bytes a value.
* A node without rows has no run and offset zero.
-/

namespace PagedGraph

/-- The run of some ascending targets, no bytes for no targets. -/
def targetRun (targets : List Nat) : List UInt8 :=
  if targets.isEmpty then []
  else littleEndian degreeHeader targets.length ++ Leb128.encodeDeltas targets

/-- The run of some values. -/
def valueRun (values : List Double) : List UInt8 := values.flatMap Double.toBytes

/-- The writing of a table. -/
structure RunWriter where
  /-- The counter of pages. -/
  counter : PageCounter := {}
  /-- The pages of the present shard. -/
  arena : PageArena := {}
  /-- The offsets of the nodes so far. -/
  offsets : Array Nat := #[]
deriving DecidableEq, Repr, Inhabited

namespace RunWriter

/-- Write the run of the next node. -/
def write (w : RunWriter) (run : List UInt8) : RunWriter :=
  match w with
  | ⟨counter, arena, offsets⟩ =>
    if run.isEmpty then ⟨counter, arena, offsets.push 0⟩
    else
      let (offset, counter, arena) := arena.put counter run
      ⟨counter, arena, offsets.push offset⟩

/-- The pages of a shard and the writer for the next. -/
def closeShard (w : RunWriter) : List Page × RunWriter :=
  match w with
  | ⟨counter, arena, offsets⟩ => (arena.pages, ⟨counter, {}, offsets⟩)

/-- Write the runs of shards.  `before` are the pages of earlier shards. -/
def writeShards (before : List Page) : RunWriter → List (List (List UInt8)) → List Page × RunWriter
  | w, [] => (before, w)
  | w, runs :: rest =>
    let (pages, w) := (runs.foldl write w).closeShard
    writeShards (before ++ pages) w rest

end RunWriter

/-- The table of the runs of shards. -/
def RunTable.ofShards (shards : List (List (List UInt8))) : RunTable :=
  let (pages, w) := RunWriter.writeShards [] {} shards
  ⟨w.offsets, .ofPages w.counter.pageCount pages⟩

/-- The runs of the targets of stored rows. -/
def targetRuns (shards : List (List (List Row))) : List (List (List UInt8)) :=
  shards.map fun nodes => nodes.map fun rows => targetRun (rows.map Row.target)

/-- The runs of one property of stored rows, the one at the index `column`. -/
def columnRuns (column : Nat) (shards : List (List (List Row))) : List (List (List UInt8)) :=
  shards.map fun nodes => nodes.map fun rows => valueRun (Row.column column rows)

/-- The adjacency of stored rows. -/
def Adjacency.ofRows (isUndirected : Bool) (shards : List (List (List Row))) : Adjacency :=
  { RunTable.ofShards (targetRuns shards) with
    relationshipCount := addUp (shards.map fun nodes => addUp (nodes.map List.length))
    isUndirected }

/-- One property of stored rows, the one at the index `column`. -/
def ValueTable.ofRows (column : Nat) (defaultValue : Double) (shards : List (List (List Row))) :
    ValueTable :=
  { RunTable.ofShards (columnRuns column shards) with defaultValue }

/-- The rows of every node of every shard as they are stored. -/
def settleShards (collapses : Bool) (aggregations : List Aggregation)
    (shards : List (List (List Row))) : Except GraphError (List (List (List Row))) :=
  shards.mapM fun nodes => nodes.mapM (Row.settle collapses aggregations)

end PagedGraph
