import PagedGraph.Data.Element
import PagedGraph.Graph.Basic

/-!
# Loading a graph

A `GraphLoader` takes nodes and relationships in external ids, in any order, and the
projections of relationship types.  The ends of relationships are checked when the
graph is built.

The kind of a node property is the kind of the first value given for its key.  A node
with a value of another kind is refused.  Its properties are looked at one after
another, so the keys in front of the offending one have become known.  That is why
`addNode` gives a loader in either case.
-/

namespace PagedGraph

/-- How a graph is loaded. -/
structure LoadSettings where
  /-- Workers used for building. -/
  workers : Nat := defaultWorkers
deriving DecidableEq, Repr, Inhabited

/-- Whether some settings can be used. -/
def LoadSettings.validate (c : LoadSettings) : Except GraphError Unit := checkWorkers c.workers

/-- A graph that is being loaded. -/
structure GraphLoader where
  /-- Workers used for building. -/
  workers : Nat := defaultWorkers
  nodes : Array Node := #[]
  /-- The kinds of the node properties seen so far. -/
  kinds : List (String × ValueKind) := []
  /-- The projections of the types that were given one. -/
  projections : List (String × Projection) := []
  /-- The relationships of every type that was registered or used. -/
  relationships : List (String × Array Relationship) := []
deriving Inhabited

namespace GraphLoader

/-- A loader without nodes and relationships. -/
def create (c : LoadSettings) : Except GraphError GraphLoader := do
  c.validate
  pure { workers := c.workers }

/-- Say how a relationship type is stored. -/
def project (b : GraphLoader) (type : String) (projection : Projection) :
    Except GraphError GraphLoader := do
  projection.validate
  pure
    { b with
      relationships := upsert type (·.getD #[]) b.relationships
      projections := upsert type (fun _ => projection) b.projections }

/-- Check the kinds of some properties against the known ones.  Gives the kinds known
afterwards, and the clash that ended the check if there was one. -/
def learnKinds (known : List (String × ValueKind)) :
    List (String × Value) → List (String × ValueKind) × Option TypeClash
  | [] => (known, none)
  | (key, value) :: rest =>
    match value.kind?, known.lookup key with
    | none, _ => learnKinds known rest
    | some got, some kind =>
      if kind = got then learnKinds known rest
      else (known, some (.nodeProperty key kind got))
    | some got, none => learnKinds (known ++ [(key, got)]) rest

/-- Add a node.  The error is the reason why it was refused. -/
def addNode (b : GraphLoader) (node : Node) : GraphLoader × Option GraphError :=
  match b, learnKinds b.kinds node.properties.entries with
  | ⟨workers, nodes, _, projections, relationships⟩, (kinds, none) =>
    (⟨workers, nodes.push node, kinds, projections, relationships⟩, none)
  | ⟨workers, nodes, _, projections, relationships⟩, (kinds, some clash) =>
    (⟨workers, nodes, kinds, projections, relationships⟩, some (.typeClash clash))

/-- Add a relationship. -/
def addRelationship (b : GraphLoader) (r : Relationship) : GraphLoader :=
  match b with
  | ⟨workers, nodes, kinds, projections, relationships⟩ =>
    ⟨workers, nodes, kinds, projections,
      upsert r.type (fun known => (known.getD #[]).push r) relationships⟩

/-! ## Building -/

/-- Put the properties of a node into the columns. -/
def fillColumns (m : Numbering) (s : Columns) (node : Node) : Except GraphError Columns :=
  match m.internalOf? node.id with
  | some internal =>
    (s.noteKeys node.labels node.properties.keys).setAll internal node.properties.entries
  | none => .ok s

/-- The columns of all nodes. -/
def buildColumns (b : GraphLoader) (m : Numbering) : Except GraphError Columns :=
  b.nodes.toList.foldlM (fillColumns m) (.blank m.nodeCount b.kinds)

/-- How a type is stored, the default where nothing was said. -/
def projectionOf (b : GraphLoader) (type : String) : Projection :=
  (b.projections.lookup type).getD {}

/-- The tables of the relationships of one type. -/
def buildType (b : GraphLoader) (m : Numbering) (type : String)
    (relationships : Array Relationship) : Except GraphError TypeTables := do
  let loader ← RelationshipLoader.create m (b.projectionOf type) b.workers
  let loader ← relationships.toList.foldlM
    (fun l r => l.addExternal r.source r.target r.properties) loader
  loader.build

/-- Build the graph.  Its numbering is known by `identity`. -/
def build (b : GraphLoader) (identity : Nat) : Except GraphError PropertyGraph := do
  let m ← Numbering.build identity (b.nodes.toList.map fun n => (n.id, n.labels))
  let columns ← b.buildColumns m
  let types ← b.relationships.mapM fun (type, relationships) => do
    let tables ← b.buildType m type relationships
    pure (type, tables)
  pure { numbering := m, columns, types }

end GraphLoader

end PagedGraph
