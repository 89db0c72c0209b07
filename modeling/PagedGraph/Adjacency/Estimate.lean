import PagedGraph.Codec.Leb128
import PagedGraph.Adjacency.Basic

/-!
# Memory estimates

How much an adjacency will take is known before it is built only up to a range, since
runs depend on the differences of targets.  The lower end has every relationship on
one node and every difference in one byte.  The upper end spreads the relationships
over as many nodes as possible and gives every difference the width of the largest
id.
-/

namespace PagedGraph

/-- From `min` to `max` bytes, or pages, both included. -/
structure SizeRange where
  min : Nat
  max : Nat
deriving DecidableEq, Repr, Inhabited

namespace SizeRange

/-- A known amount. -/
def exactly (n : Nat) : SizeRange := ⟨n, n⟩

/-- Two amounts together. -/
def add (r s : SizeRange) : SizeRange := ⟨r.min + s.min, r.max + s.max⟩

end SizeRange

/-- The estimate for one adjacency. -/
structure AdjacencyEstimate where
  runs : SizeRange
  /-- Pages, the empty page 0 included. -/
  pages : SizeRange
  /-- Bytes of the offset table. -/
  offsets : Nat
deriving DecidableEq, Repr, Inhabited

/-- Runs and offset table together. -/
def AdjacencyEstimate.total (e : AdjacencyEstimate) : SizeRange :=
  e.runs.add (.exactly e.offsets)

/-- Bytes of a run of `degree` targets with differences up to `maxDelta`. -/
def runBytes (degree maxDelta : Nat) : Nat := degreeHeader + degree * Leb128.size maxDelta

/-- Pages for some bytes, the empty page 0 included. -/
def pagesFor (bytes : Nat) : Nat := 1 + (bytes + pageSize - 1) / pageSize

/-- The estimate for `relationships` between `nodes`. -/
def estimateAdjacency (nodes relationships : Nat) : AdjacencyEstimate :=
  let runs : SizeRange :=
    { min := (if relationships > 0 then degreeHeader else 0) + relationships
      max := min nodes relationships * degreeHeader + relationships * Leb128.size (nodes - 1) }
  { runs, pages := ⟨pagesFor runs.min, pagesFor runs.max⟩, offsets := offsetBytes * nodes }

/-- Bytes of one property of `relationships` between `nodes`. -/
def estimateValues (nodes relationships : Nat) : Nat := relationships * 8 + offsetBytes * nodes

end PagedGraph
