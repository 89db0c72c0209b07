import PagedGraph.Error
import PagedGraph.Number.Double

/-!
# Rows

A `Row` is a relationship from a node that is known from where the row is kept: a
target, and one value for every property.  If parallel rows of a node are not kept, each
group of them becomes one.  Its values are folded from the first, property by property.
What is stored must not be more than a degree can count.
-/

namespace PagedGraph

/-- A relationship from a given node. -/
structure Row where
  target : Nat
  /-- A value for every property. -/
  values : List Double
deriving DecidableEq, Repr, Inhabited

namespace Aggregation

/-- The running value after the first of parallel values. -/
def first : Aggregation → Double → Double
  | count, _ => .one
  | _, x => x

/-- The running value after a further value. -/
def combine : Aggregation → Double → Double → Except GraphError Double
  | unset, _, _ => .error (.unmergeable unset)
  | keep, _, _ => .error (.unmergeable keep)
  | single, running, _ => .ok running
  | sum, running, x => .ok (running.add x)
  | min, running, x => .ok (running.min x)
  | max, running, x => .ok (running.max x)
  | count, running, _ => .ok (running.add .one)

/-- Combine the values of all properties. -/
def combineAll : List Aggregation → List Double → List Double → Except GraphError (List Double)
  | a :: as, running :: rs, x :: xs => do
    let merged ← a.combine running x
    let rest ← combineAll as rs xs
    pure (merged :: rest)
  | _, _, _ => .ok []

end Aggregation

namespace Row

/-- The first row of a group. -/
def opening (aggregations : List Aggregation) (row : Row) : Row :=
  ⟨row.target, List.zipWith Aggregation.first aggregations row.values⟩

/-- Take a row into the groups before it, the last of which comes first. -/
def absorb (aggregations : List Aggregation) :
    List Row → Row → Except GraphError (List Row)
  | [], row => .ok [opening aggregations row]
  | last :: groups, row =>
    if last.target = row.target then do
      let values ← Aggregation.combineAll aggregations last.values row.values
      pure (⟨last.target, values⟩ :: groups)
    else .ok (opening aggregations row :: last :: groups)

/-- One row for each group of parallel rows, which stand together. -/
def collapse (aggregations : List Aggregation) (rows : List Row) :
    Except GraphError (List Row) := do
  let groups ← rows.foldlM (absorb aggregations) []
  pure groups.reverse

/-- Make parallel rows one if they are not kept.  Rows come in ascending order of targets. -/
def aggregate (collapses : Bool) (aggregations : List Aggregation) (rows : List Row) :
    Except GraphError (List Row) :=
  if collapses then collapse aggregations rows else .ok rows

/-- The rows of a node as they are stored.  A degree has to count them. -/
def settle (collapses : Bool) (aggregations : List Aggregation) (rows : List Row) :
    Except GraphError (List Row) := do
  let stored ← aggregate collapses aggregations rows
  if stored.length < UInt32.size then pure stored else .error (.resourceExhausted stored.length)

/-- The values of a column. -/
def column (index : Nat) (rows : List Row) : List Double :=
  rows.filterMap fun row => row.values[index]?

end Row

end PagedGraph
