import PagedGraph.Similarity.Profile
import PagedGraph.Triangle.Enumerate

/-!
# Triangle counts and clustering

Every triangle counts for each of its corners.  The local clustering coefficient of a
node with `t` triangles and `d` distinct neighbors is `2 * t / (d * (d - 1))`, and zero
when `d < 2`.  Nodes whose degree exceeds the bound have neither count nor
coefficient and are left out of the average.
-/

namespace PagedGraph

/-- The share of a node's pairs of neighbors that are adjacent.  The products are words of 64 bits,
as `Double.ofNat` takes them. -/
def clusteringCoefficient (triangles degree : Nat) : Double :=
  if degree < 2 then .zero
  else (Double.ofNat (2 * triangles)).div (.ofNat (degree * (degree - 1)))

/-- Counts and coefficients of all nodes. -/
structure Clustering where
  /-- Triangles of every node, none for a node that is left out. -/
  counts : Array (Option Nat)
  /-- Triangles in all. -/
  total : Nat
  /-- The coefficient of every node, none for a node that is left out. -/
  coefficients : Array (Option Double)
deriving DecidableEq, Repr, Inhabited

namespace Clustering

variable (r : Clustering)

/-- The count of a node, none also for an id that is no node's. -/
def count? (node : Nat) : Option Nat := r.counts.getD node none

/-- The coefficient of a node, none also for an id that is no node's. -/
def coefficient? (node : Nat) : Option Double := r.coefficients.getD node none

/-- The mean coefficient of the nodes that have one, added up in order.  Zero when
there are none. -/
def average : Double :=
  let known := r.coefficients.toList.filterMap id
  if known.isEmpty then .zero else (known.foldl Double.add .zero).div (.ofNat known.length)

end Clustering

/-- One more triangle for each of the three corners. -/
def creditCorners (counts : Array Nat) (t : Triangle) : Array Nat :=
  ((counts.modify t.a (· + 1)).modify t.b (· + 1)).modify t.c (· + 1)

/-- Count the triangles of a view.  A count that is told to stop gives nothing. -/
def countTriangles (v : View) (config : TriangleSettings) (stopped : Bool) :
    Except GraphError (Option Clustering) := do
  config.validate
  match ← triangleBatches v config stopped with
  | none => pure none
  | some batches =>
    let found := batches.flatMap id
    let credits := found.foldl creditCorners (Array.replicate v.nodeCount 0)
    let admitted (node : Nat) : Bool := v.mayBeCorner config.maxDegree node
    let nodes := List.range v.nodeCount
    pure (some
      { counts := (nodes.map fun node =>
          if admitted node then some (credits.getD node 0) else none).toArray
        total := found.length
        coefficients := (nodes.map fun node =>
          if admitted node then
            some (clusteringCoefficient (credits.getD node 0) (v.neighbors node).length)
          else none).toArray })

end PagedGraph
