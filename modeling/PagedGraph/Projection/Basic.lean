import PagedGraph.Error
import PagedGraph.Number.Double

/-!
# Projections

A `Projection` says how the relationships of one type are stored.

* A self-loop is left out if the projection drops them.
* The stored pair is source and target, or target and source under the reverse
  orientation.  An undirected type stores both, and a self-loop once.
* If the inverse side is stored too, it has the stored pair turned round.

A projection is valid when the property keys are not empty and all different, and
parallel values become one exactly when parallel relationships do.  A property whose
aggregation is not chosen does as the relationships do.  Of several faults the one of
the first property is reported, and of one property's faults the first in this order.
-/

namespace PagedGraph

/-- One property of the relationships to store. -/
structure PropertyProjection where
  key : String := ""
  /-- How values of parallel relationships become one. -/
  aggregation : Aggregation := .unset
  /-- The value of relationships that have none. -/
  defaultValue : Double := .nan
deriving DecidableEq, Repr, Inhabited

/-- How the relationships of one type are stored. -/
structure Projection where
  orientation : Orientation := .natural
  /-- What happens to parallel relationships. -/
  aggregation : Aggregation := .unset
  properties : List PropertyProjection := []
  /-- Whether the side against the direction is stored too. -/
  withInverse : Bool := false
  selfLoops : SelfLoops := .keep
deriving DecidableEq, Repr, Inhabited

namespace Projection

variable (p : Projection)

/-- The aggregation of a property, after the relationships' where it has none. -/
def effective (property : PropertyProjection) : Aggregation :=
  match property.aggregation with
  | .unset => p.aggregation.orKeep
  | chosen => chosen

/-- The aggregations of all properties. -/
def aggregations : List Aggregation := p.properties.map p.effective

/-- The keys of the stored properties, in the order they are stored. -/
def keys : List String := p.properties.map (·.key)

/-- The values of a relationship that was given none. -/
def defaults : List Double := p.properties.map (·.defaultValue)

/-- The fault of a property behind others with the keys `before`. -/
def propertyFault? (before : List String) (property : PropertyProjection) : Option ConfigFault :=
  if property.key.isEmpty then some .emptyPropertyKey
  else if before.contains property.key then some (.repeatedPropertyKey property.key)
  else if (p.effective property).collapses != p.aggregation.collapses then
    some (.aggregationClash property.key property.aggregation p.aggregation)
  else none

/-- The first fault of some properties behind others with the keys `before`. -/
def firstFault? (before : List String) : List PropertyProjection → Option ConfigFault
  | [] => none
  | property :: rest =>
    match p.propertyFault? before property with
    | some fault => some fault
    | none => firstFault? (property.key :: before) rest

/-- Whether a projection can be used. -/
def validate : Except GraphError Unit :=
  match p.firstFault? [] p.properties with
  | some fault => .error (.badConfiguration fault)
  | none => .ok ()

/-- Whether the side against the direction is stored.  An undirected type has no such
side. -/
def storesInverse : Bool := p.withInverse && p.orientation != .undirected

/-- The pairs of a node and its target that a relationship is stored as. -/
def pairs (source target : Nat) : List (Nat × Nat) :=
  if source = target ∧ p.selfLoops = .drop then []
  else
    match p.orientation with
    | .natural => [(source, target)]
    | .reverse => [(target, source)]
    | .undirected =>
      if source = target then [(source, target)] else [(source, target), (target, source)]

/-- The pairs on the side against the direction. -/
def inversePairs (source target : Nat) : List (Nat × Nat) :=
  if p.storesInverse then (p.pairs source target).map Prod.swap else []

end Projection

end PagedGraph
