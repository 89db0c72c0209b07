/-!
# The choices a projection is made of

Orientation, aggregation and the treatment of self-loops say how the
relationships of one type are stored.  A direction says which side of a stored
type a view reads.  Each choice has a `name`, used in messages and listings, and
those that configurations spell out have a `word`, the spelling used there.
-/

namespace PagedGraph

/-- How the ends of a loaded relationship become stored pairs. -/
inductive Orientation where
  /-- Source to target. -/
  | natural
  /-- Target to source. -/
  | reverse
  /-- Both ways, a self-loop once. -/
  | undirected
deriving DecidableEq, Repr, Inhabited

/-- What happens to parallel relationships, those with the same two ends. -/
inductive Aggregation where
  /-- Not chosen here: keep them, or do as the relationships do. -/
  | unset
  /-- Keep them all. -/
  | keep
  /-- Keep the first. -/
  | single
  /-- Add the values up. -/
  | sum
  /-- Keep the smallest value. -/
  | min
  /-- Keep the largest value. -/
  | max
  /-- Count them. -/
  | count
deriving DecidableEq, Repr, Inhabited

/-- Whether relationships from a node to itself are stored. -/
inductive SelfLoops where
  /-- They are. -/
  | keep
  /-- They are left out. -/
  | drop
deriving DecidableEq, Repr, Inhabited

/-- The side of a relationship type a view reads. -/
inductive Direction where
  /-- As stored. -/
  | outgoing
  /-- Against the stored direction. -/
  | incoming
  /-- Both sides together. -/
  | both
deriving DecidableEq, Repr, Inhabited

namespace Orientation

/-- Every orientation. -/
def all : List Orientation := [natural, reverse, undirected]

/-- The name in listings. -/
def name : Orientation → String
  | natural => "Natural"
  | reverse => "Reverse"
  | undirected => "Undirected"

/-- The spelling in configurations. -/
def word : Orientation → String
  | natural => "NATURAL"
  | reverse => "REVERSE"
  | undirected => "UNDIRECTED"

end Orientation

namespace Aggregation

/-- Every aggregation. -/
def all : List Aggregation := [unset, keep, single, sum, min, max, count]

/-- The name in messages and listings. -/
def name : Aggregation → String
  | unset => "Default"
  | keep => "None"
  | single => "Single"
  | sum => "Sum"
  | min => "Min"
  | max => "Max"
  | count => "Count"

/-- The spelling in configurations. -/
def word : Aggregation → String
  | unset => "DEFAULT"
  | keep => "NONE"
  | single => "SINGLE"
  | sum => "SUM"
  | min => "MIN"
  | max => "MAX"
  | count => "COUNT"

/-- Where nothing is chosen, parallel relationships are kept. -/
def orKeep : Aggregation → Aggregation
  | unset => keep
  | chosen => chosen

/-- Whether parallel relationships become one. -/
def collapses (a : Aggregation) : Bool := a.orKeep != keep

end Aggregation

namespace SelfLoops

/-- Both treatments. -/
def all : List SelfLoops := [keep, drop]

/-- The spelling in configurations. -/
def word : SelfLoops → String
  | keep => "KEEP"
  | drop => "DROP"

end SelfLoops

namespace Direction

/-- All directions. -/
def all : List Direction := [outgoing, incoming, both]

/-- The name in listings and in texts. -/
def name : Direction → String
  | outgoing => "Outgoing"
  | incoming => "Incoming"
  | both => "Both"

end Direction

end PagedGraph
