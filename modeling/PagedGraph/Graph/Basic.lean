import PagedGraph.Graph.Column
import PagedGraph.Load.Relationships

/-!
# Property graphs

A `PropertyGraph` owns what one load produced: the numbering of the nodes, the node
property columns, and the tables of every relationship type.  Views of it are made by
name.

* `single` reads one side of one type.  The incoming side of an undirected type is
  its outgoing side.  Of a directed type it exists if the inverse was stored.  Both
  sides together are not one adjacency.
* `union` reads several types as one.  In both directions it takes the outgoing side
  of each, and the incoming side too where the type is directed.
* `withLabels` puts a filter by labels over a view of this very graph.

## Release

A graph gives up its tables once, unless it is pinned.  A table that a live view reads
is held: it goes when the view goes.  All others are freed at once, and so are the node
columns.  Afterwards the numbering still answers, but requests for views and for
relationship metadata fail.
-/

namespace PagedGraph

/-- What one load produced. -/
structure PropertyGraph where
  numbering : Numbering
  columns : Columns
  /-- The tables by relationship type. -/
  types : List (String × TypeTables)
  /-- Whether `release` is refused. -/
  pinned : Bool := false
  /-- Whether the tables are given up. -/
  released : Bool := false
deriving Inhabited

/-- What a release did. -/
structure ReleaseSummary where
  /-- Bytes freed at once. -/
  freedBytes : Nat
  /-- Bytes live views still hold. -/
  heldBytes : Nat
  /-- Tables live views still hold. -/
  heldTables : Nat
deriving DecidableEq, Repr

namespace PropertyGraph

variable (g : PropertyGraph)

/-- Number of nodes. -/
def nodeCount : Nat := g.numbering.nodeCount

/-- Relationships of all types, on the outgoing side. -/
def relationshipCount : Nat := addUp (g.types.map fun t => t.2.outgoing.relationshipCount)

/-- The relationship types, sorted. -/
def typeNames : List String := sortedNames (names g.types)

/-- Fails on a graph that was released. -/
def checkLive : Except GraphError Unit := if g.released then .error .alreadyReleased else .ok ()

/-- The tables of a type.  Fails on a released graph, and for a type that was not loaded. -/
def tablesOf (type : String) : Except GraphError TypeTables := do
  g.checkLive
  match g.types.lookup type with
  | some tables => pure tables
  | none => .error (.missing (.relationshipType type))

/-- The property keys stored for a type, sorted. -/
def propertyKeys (type : String) : Except GraphError (List String) := do
  let tables ← g.tablesOf type
  pure (sortedNames (names tables.outgoingValues))

/-- Whether the incoming side of a type is stored. -/
def hasInverse (type : String) : Except GraphError Bool := do
  let tables ← g.tablesOf type
  pure tables.incoming.isSome

/-! ## Views -/

/-- The name of one of this graph's tables. -/
def tableName (type : String) (inverse : Bool) (property : Option String) : TableName :=
  ⟨g.numbering.identity, type, inverse, property⟩

/-- One side of a type: the adjacency, the properties, and whether it is the inverse. -/
def side (type : String) (tables : TypeTables) :
    Direction → Except GraphError (Adjacency × List (String × ValueTable) × Bool)
  | .outgoing => .ok (tables.outgoing, tables.outgoingValues, false)
  | .incoming =>
    if tables.outgoing.isUndirected then .ok (tables.outgoing, tables.outgoingValues, false)
    else
      match tables.incoming with
      | some adjacency => .ok (adjacency, tables.incomingValues, true)
      | none => .error (.badConfiguration (.noInverse type))
  | .both => .error (.badConfiguration .bothDirections)

/-- One side of a type, with one property if a key is given. -/
def single (type : String) (direction : Direction) (key : Option String) :
    Except GraphError SingleGraph := do
  let tables ← g.tablesOf type
  let (adjacency, properties, inverse) ← side type tables direction
  let held := g.tableName type inverse none
  match key with
  | none => pure ⟨g.numbering, adjacency, none, [held]⟩
  | some key =>
    match properties.lookup key with
    | some values =>
      pure ⟨g.numbering, adjacency, some values, [held, g.tableName type inverse key]⟩
    | none => .error (.missing (.relationshipPropertyOn key type))

/-- The graphs a type adds to a union. -/
def unionMembers (direction : Direction) (type : String) : Except GraphError (List SingleGraph) :=
  match direction with
  | .both => do
    let outgoing ← g.single type .outgoing none
    if outgoing.adjacency.isUndirected then pure [outgoing]
    else do
      let incoming ← g.single type .incoming none
      pure [outgoing, incoming]
  | direction => do
    let member ← g.single type direction none
    pure [member]

/-- Several types read as one, every type in the direction asked for. -/
def union (types : List String) (direction : Direction) : Except GraphError BaseGraph := do
  let members ← types.mapM (g.unionMembers direction)
  BaseGraph.unite (members.flatMap id)

/-- A view of this graph under a filter by labels.  The new numbering is known by
`identity`. -/
def withLabels (v : View) (identity : Nat) (labels : List String) (workers : Nat) :
    Except GraphError View := do
  g.checkLive
  if v.numbering.identity ≠ g.numbering.identity then
    .error (.badConfiguration .foreignView)
  else do
    let filter ← g.numbering.filter identity labels
    v.filtered filter workers

/-! ## Memory and release -/

/-- The tables of a type with their sizes. -/
def typeTableSizes (type : String) (tables : TypeTables) : List (TableName × Nat) :=
  let values (inverse : Bool) (tables : List (String × ValueTable)) :=
    tables.map fun (key, table) => (g.tableName type inverse key, table.byteSize)
  (g.tableName type false none, tables.outgoing.byteSize)
    :: (tables.incoming.toList.map fun t => (g.tableName type true none, t.byteSize))
    ++ values false tables.outgoingValues ++ values true tables.incomingValues

/-- All tables of the graph with their sizes. -/
def tableSizes : List (TableName × Nat) := g.types.flatMap fun t => g.typeTableSizes t.1 t.2

/-- Bytes of the numbering, the columns and the tables, when a set of nodes takes `setBytes`. -/
def byteSize (setBytes : List Nat → Nat) : Nat :=
  g.numbering.byteSize setBytes + g.columns.byteSize + addUp (g.tableSizes.map (·.2))

/-- Pin the graph, or let it go. -/
def setPinned (pinned : Bool) : PropertyGraph := { g with pinned }

/-- What giving up the tables does while some views are live. -/
def releaseSummary (live : List View) : ReleaseSummary :=
  let readByViews := live.flatMap View.tables
  let held := g.tableSizes.filter fun t => readByViews.contains t.1
  let freed := g.tableSizes.filter fun t => !readByViews.contains t.1
  { freedBytes := addUp (freed.map (·.2)) + g.columns.byteSize
    heldBytes := addUp (held.map (·.2))
    heldTables := held.length }

/-- Give up the tables and the columns while some views are live. -/
def release (live : List View) : Except GraphError (ReleaseSummary × PropertyGraph) := do
  g.checkLive
  if g.pinned then .error .stillRegistered
  else pure (g.releaseSummary live, { g with columns := .empty, types := [], released := true })

end PropertyGraph

end PagedGraph
