import PagedGraph.Cursor.Run

/-!
# Adjacency

An `Adjacency` is one side of one relationship type: the offset of every node's run of
targets, and the pages the runs lie in.  A `ValueTable` is one property of these
relationships, laid out in the same way and in the same order.  A node the tables do
not reach has no run.
-/

namespace PagedGraph

/-- Bytes of one entry of an offset table. -/
def offsetBytes : Nat := 8

/-- Runs of bytes by node. -/
structure RunTable where
  /-- The offset of every node's run, zero for none. -/
  offsets : Array Nat
  /-- Where the runs are. -/
  pages : PageTable
deriving DecidableEq, Repr, Inhabited

namespace RunTable

/-- The offset of a node's run, zero for a node the table does not reach. -/
def offset (t : RunTable) (node : Nat) : Nat := t.offsets.getD node 0

/-- Bytes of the offsets of all nodes. -/
def offsetTableBytes (t : RunTable) : Nat := offsetBytes * t.offsets.size

/-- Bytes of the pages and of the offsets. -/
def byteSize (t : RunTable) : Nat := t.pages.byteSize + t.offsetTableBytes

end RunTable

/-- The targets of every node. -/
structure Adjacency extends RunTable where
  /-- Targets in all runs. -/
  relationshipCount : Nat
  /-- Whether it was stored both ways. -/
  isUndirected : Bool
deriving DecidableEq, Repr, Inhabited

namespace Adjacency

/-- Number of nodes. -/
def nodeCount (t : Adjacency) : Nat := t.offsets.size

/-- The degree in front of a node's run, zero for a node without a run. -/
def degree (t : Adjacency) (node : Nat) : Nat := t.pages.degree (t.offset node)

/-- The state of reading the targets of a node. -/
def openRun (t : Adjacency) (node : Nat) : RunCursor := t.pages.openRun (t.offset node)

/-- The targets of a node, in the order they are read. -/
def targets (t : Adjacency) (node : Nat) : List Nat := runCursor.toList (t.openRun node)

end Adjacency

/-- One value for every target of every node. -/
structure ValueTable extends RunTable where
  /-- The value of relationships that were loaded without one. -/
  defaultValue : Double
deriving DecidableEq, Repr, Inhabited

namespace ValueTable

/-- Open the values of a node that has `degree` targets. -/
def openValues (s : ValueTable) (node degree : Nat) : ValueCursor :=
  s.pages.openValues (s.offset node) degree

end ValueTable

end PagedGraph
