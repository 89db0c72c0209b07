import PagedGraph.Projection.Choice
import PagedGraph.Data.Value

/-!
# Errors

An error names its cause.  The words for it are written by `GraphError.message`
and nowhere else.  An index outside a table is not among the causes: operations
that can meet one return an option.
-/

namespace PagedGraph

/-- What is wrong with a configuration or with a request for a view. -/
inductive ConfigFault where
  | noWorkers
  | emptyPropertyKey
  | repeatedPropertyKey (key : String)
  | aggregationClash (key : String) (property relationships : Aggregation)
  | topAndBottomK
  | topAndBottomN
  | bottomKNotPositive
  | bottomNNotPositive
  | cutoffOutsideUnit
  | upperDegreeZero
  | degreesCrossed
  | emptyUnion
  | foreignMember
  | noInverse (type : String)
  | bothDirections
  | foreignView
  | directedTriangles
deriving DecidableEq, Repr

/-- What was looked for and is not there. -/
inductive Missing where
  | relationshipType (type : String)
  | relationshipProperty (key : String)
  | relationshipPropertyOn (key type : String)
  | nodeLabel (label : String)
  | nodeProperty (key : String)
deriving DecidableEq, Repr

/-- Two types that should have been one. -/
inductive TypeClash where
  /-- A node property whose key was first seen with another type. -/
  | nodeProperty (key : String) (known got : ValueKind)
  | column (known got : ValueKind)
  /-- A relationship property that is no number. -/
  | notNumeric (got : Value)
deriving DecidableEq, Repr

/-- Everything that can go wrong. -/
inductive GraphError where
  | badConfiguration (fault : ConfigFault)
  /-- An end of the relationship `source` to `target` that no node has. -/
  | unknownEnd (id source target : Nat)
  | repeatedNode (id : Nat)
  | typeClash (clash : TypeClash)
  /-- An aggregation that cannot merge two values. -/
  | unmergeable (aggregation : Aggregation)
  | missing (what : Missing)
  /-- A node with more relationships than a degree can count. -/
  | resourceExhausted (degree : Nat)
  | stillRegistered
  | alreadyReleased
  /-- A text that is not what a configuration or an element is written as. -/
  | malformedText
deriving DecidableEq, Repr

namespace ConfigFault

/-- The words for a fault. -/
def message : ConfigFault → String
  | noWorkers => "concurrency must be at least 1"
  | emptyPropertyKey => "relationship property key must not be empty"
  | repeatedPropertyKey key => "relationship property '" ++ key ++ "' configured twice"
  | aggregationClash key property relationships =>
    "property '" ++ key ++ "' aggregation " ++ property.name
      ++ " cannot be combined with relationship aggregation " ++ relationships.name
  | topAndBottomK => "top_k and bottom_k are mutually exclusive"
  | topAndBottomN => "top_n and bottom_n are mutually exclusive"
  | bottomKNotPositive => "bottom_k must be positive"
  | bottomNNotPositive => "bottom_n must be positive"
  | cutoffOutsideUnit => "similarity_cutoff must be within [0, 1]"
  | upperDegreeZero => "upper_degree_cutoff must be positive"
  | degreesCrossed => "degree_cutoff must not exceed upper_degree_cutoff"
  | emptyUnion => "a union graph needs at least one topology"
  | foreignMember => "union members must share one id map"
  | noInverse type => "relationship type '" ++ type ++ "' was loaded without an inverse index"
  | bothDirections => "a single topology has one direction; use union_graph for BOTH"
  | foreignView => "graph was not projected from this store"
  | directedTriangles => "triangle intersection needs an undirected topology"

end ConfigFault

namespace Missing

/-- The words for a thing that is not there. -/
def message : Missing → String
  | relationshipType type => "Relationship type '" ++ type ++ "'"
  | relationshipProperty key => "Relationship property '" ++ key ++ "'"
  | relationshipPropertyOn key type => "Relationship property '" ++ key ++ "' on '" ++ type ++ "'"
  | nodeLabel label => "Node label '" ++ label ++ "'"
  | nodeProperty key => "Node property '" ++ key ++ "'"

end Missing

namespace TypeClash

/-- What was expected. -/
def expected : TypeClash → String
  | nodeProperty key known _ => known.title ++ " for node property '" ++ key ++ "'"
  | column known _ => known.title
  | notNumeric _ => ValueKind.float.title

/-- What was given. -/
def got : TypeClash → String
  | nodeProperty _ _ got => got.title
  | column _ got => got.title
  | notNumeric got => got.title

end TypeClash

namespace GraphError

/-- Why two values cannot be merged. -/
def unmergeableReason : Aggregation → String
  | .unset => "DEFAULT has to be resolved before merging"
  | _ => "NONE keeps parallel relationships and never merges"

/-- The text of an error.  A malformed text has none of its own. -/
def message : GraphError → String
  | badConfiguration fault => "Invalid configuration: " ++ fault.message
  | unknownEnd id source target =>
    s!"Unknown node {id} referenced by relationship ({source})->({target})"
  | repeatedNode id => s!"Node {id} was registered more than once"
  | typeClash clash => "Type error: expected " ++ clash.expected ++ ", got " ++ clash.got
  | unmergeable aggregation => "Aggregation error: " ++ unmergeableReason aggregation
  | missing what => "Not found: " ++ what.message
  | resourceExhausted degree => s!"Resource exhausted: degree {degree} exceeds u32"
  | stillRegistered => "Release blocked: graph store is still registered"
  | alreadyReleased => "Graph store has been released"
  | malformedText => ""

end GraphError

end PagedGraph
