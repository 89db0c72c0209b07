import PagedGraph.Data.Properties

/-!
# Nodes and relationships as they are loaded

Both are given in external ids, numbers below `2 ^ 64` that mean nothing to this
library.  Nothing here is checked: a label may be repeated, and the ends of a
relationship may be unknown.
-/

namespace PagedGraph

/-- A node to be loaded. -/
structure Node where
  id : Nat
  /-- Labels, in the order given. -/
  labels : List String
  properties : Properties
deriving DecidableEq, Repr, Inhabited

/-- A relationship to be loaded. -/
structure Relationship where
  /-- External id of the source. -/
  source : Nat
  /-- External id of the target. -/
  target : Nat
  type : String
  properties : Properties
deriving DecidableEq, Repr, Inhabited

namespace Node

/-- Whether a node was given a label. -/
def hasLabel (n : Node) (label : String) : Bool := n.labels.contains label

/-- The external id of a node as it is shown. -/
def idText (n : Node) : String := toString n.id

end Node

end PagedGraph
