import PagedGraph.Load.Pages
import PagedGraph.Projection.Basic
import PagedGraph.Data.Element
import PagedGraph.View.Basic

/-!
# Loading the relationships of one type

A `RelationshipLoader` takes relationships between the nodes of a numbering and stores
them as a projection says.

Relationships in external ids are checked before anything is stored: first the source,
then the target, then the properties in the projection's order.  A property that is
absent or null has its default value.
-/

namespace PagedGraph

/-- The tables of one relationship type. -/
structure TypeTables where
  /-- The targets of every node. -/
  outgoing : Adjacency
  /-- The sources of every node, if this side is stored. -/
  incoming : Option Adjacency
  /-- Properties of the outgoing side by key. -/
  outgoingValues : List (String × ValueTable)
  /-- Properties of the incoming side by key. -/
  incomingValues : List (String × ValueTable)
deriving DecidableEq, Repr, Inhabited

/-- Relationships of one type that are being loaded. -/
structure RelationshipLoader where
  /-- The nodes that relationships are between. -/
  numbering : Numbering
  /-- How the relationships are stored. -/
  projection : Projection
  /-- The rows by sources. -/
  outgoing : ShardedRows
  /-- The rows by targets, if this side is stored. -/
  incoming : Option ShardedRows
deriving Inhabited

namespace RelationshipLoader

/-- A loader without relationships. -/
def create (numbering : Numbering) (projection : Projection) (workers : Nat) :
    Except GraphError RelationshipLoader := do
  checkWorkers workers
  projection.validate
  let rows := ShardedRows.ofNodes numbering.nodeCount workers
  pure
    { numbering, projection, outgoing := rows
      incoming := if projection.storesInverse then some rows else none }

/-- Store a relationship between nodes. -/
def push (l : RelationshipLoader) (source target : Nat) (values : List Double) :
    RelationshipLoader :=
  match l with
  | ⟨numbering, projection, outgoing, incoming⟩ =>
    ⟨numbering, projection, outgoing.pushPairs (projection.pairs source target) values,
      incoming.map (·.pushPairs (projection.inversePairs source target) values)⟩

/-- Whether an internal id is a node's. -/
def hasNode (l : RelationshipLoader) (node : Nat) : Bool := node < l.numbering.nodeCount

/-- Whether there is a value for every property. -/
def hasValues (l : RelationshipLoader) (values : List Double) : Bool :=
  values.length = l.projection.properties.length

/-- Add a relationship in internal ids.  None when an end is no node, or when there is not one
value for every property. -/
def addWith? (l : RelationshipLoader) (source target : Nat) (values : List Double) :
    Option RelationshipLoader :=
  if l.hasValues values && l.hasNode source && l.hasNode target then
    some (l.push source target values)
  else none

/-- Add a relationship in internal ids, with the default values. -/
def add? (l : RelationshipLoader) (source target : Nat) : Option RelationshipLoader :=
  l.addWith? source target l.projection.defaults

/-- The number stored for a property of a relationship. -/
def propertyValue (properties : Properties) (property : PropertyProjection) :
    Except GraphError Double :=
  match properties.get? property.key with
  | none | some .null => .ok property.defaultValue
  | some value =>
    match value.asDouble? with
    | some x => .ok x
    | none => .error (.typeClash (.notNumeric value))

/-- The internal id of an end of a relationship in external ids. -/
def endNode (m : Numbering) (source target endId : Nat) : Except GraphError Nat :=
  match m.internalOf? endId with
  | some node => .ok node
  | none => .error (.unknownEnd endId source target)

/-- Internal ids and property values of a relationship in external ids. -/
def resolve (m : Numbering) (p : Projection) (source target : Nat) (properties : Properties) :
    Except GraphError (Nat × Nat × List Double) := do
  let tail ← endNode m source target source
  let head ← endNode m source target target
  let values ← p.properties.mapM (propertyValue properties)
  pure (tail, head, values)

/-- Add a relationship in external ids.  Nothing is stored when this fails. -/
def addExternal (l : RelationshipLoader) (source target : Nat) (properties : Properties) :
    Except GraphError RelationshipLoader := do
  let (tail, head, values) ← resolve l.numbering l.projection source target properties
  pure (l.push tail head values)

/-- The properties of one side, by key. -/
def valueTables (p : Projection) (shards : List (List (List Row))) : List (String × ValueTable) :=
  p.properties.mapIdx fun column property =>
    (property.key, .ofRows column property.defaultValue shards)

/-- The rows of `n` nodes as they are stored. -/
def arranged (p : Projection) (n : Nat) (rows : ShardedRows) :
    Except GraphError (List (List (List Row))) :=
  settleShards p.aggregation.collapses p.aggregations (rows.shardRows n p.properties.length)

/-- The tables of the relationships added so far. -/
def build (l : RelationshipLoader) : Except GraphError TypeTables := do
  let p := l.projection
  let n := l.numbering.nodeCount
  let outgoing ← arranged p n l.outgoing
  let incoming ← l.incoming.mapM (arranged p n)
  pure
    { outgoing := .ofRows (p.orientation = .undirected) outgoing
      incoming := incoming.map (.ofRows false)
      outgoingValues := valueTables p outgoing
      incomingValues := (incoming.map (valueTables p)).getD [] }

end RelationshipLoader

namespace TypeTables

/-- A graph of the outgoing side, with one property if a key is given. -/
def toGraph (t : TypeTables) (numbering : Numbering) (key : Option String) :
    Except GraphError SingleGraph :=
  match key with
  | none => .ok ⟨numbering, t.outgoing, none, []⟩
  | some key =>
    match t.outgoingValues.lookup key with
    | some values => .ok ⟨numbering, t.outgoing, some values, []⟩
    | none => .error (.missing (.relationshipProperty key))

end TypeTables

end PagedGraph
