import PagedGraph.Cursor.Through
import PagedGraph.Cursor.Merge
import PagedGraph.Adjacency.Basic
import PagedGraph.Work.Range

/-!
# Views

A `View` is what algorithms read.  Its base is one adjacency, or a union of several
over the same numbering.  Over the base lie any number of node filters, the outermost
first.  Each renumbers the nodes of what is below it.

* The targets of a node are ascending, repeated where relationships are parallel.
* The degree of a node is the number of its targets, as a word of 32 bits.  One adjacency
  has the degree written in its run.  A union adds these up.  Under a filter the targets
  that pass are counted.  A number that needs more than 32 bits is cut to them.
* Relationships are counted in 64 bits.
* With their values the relationships of a union come member after member, so they
  are not ascending as a whole.

A node that is not below the node count belongs to no view.  Questions about it are
answered with none.
-/

namespace PagedGraph

/-- The name of a table that a graph hands out. -/
structure TableName where
  /-- The identity of the graph's numbering. -/
  graph : Nat
  type : String
  /-- Whether it is the side against the direction. -/
  inverse : Bool
  /-- The property key, none for the targets. -/
  property : Option String
deriving DecidableEq, Repr

/-- One adjacency, with at most one property. -/
structure SingleGraph where
  numbering : Numbering
  adjacency : Adjacency
  values : Option ValueTable
  /-- The tables of a property graph that this one reads. -/
  tables : List TableName
deriving Inhabited

namespace SingleGraph

/-- Open the values of a node, none for a graph without a property. -/
def openValues? (g : SingleGraph) (node : Nat) : Option ValueCursor :=
  g.values.map fun s => s.openValues node (g.adjacency.degree node)

/-- The relationships of a node with their values.  Without a property every value
is the fallback. -/
def weighted (g : SingleGraph) (fallback : Double) (node : Nat) : List (Nat × Double) :=
  let targets := g.adjacency.targets node
  match g.openValues? node with
  | some values => targets.zip values.toList
  | none => targets.map (·, fallback)

end SingleGraph

/-- What a view reads in the end. -/
inductive BaseGraph where
  | single (g : SingleGraph)
  /-- Some graphs as one.  There is at least one, and all have one numbering. -/
  | union (first : SingleGraph) (others : List SingleGraph)
deriving Inhabited

namespace BaseGraph

/-- The graphs read. -/
def members : BaseGraph → List SingleGraph
  | single g => [g]
  | union g gs => g :: gs

/-- The numbering of the nodes. -/
def numbering : BaseGraph → Numbering
  | single g => g.numbering
  | union g _ => g.numbering

/-- Number of relationships.  Those of the members of a union are added up in 64 bits. -/
def relationshipCount : BaseGraph → Nat
  | single g => g.adjacency.relationshipCount
  | union g gs => addUp ((g :: gs).map fun m => m.adjacency.relationshipCount) % UInt64.size

/-- Whether every member was stored both ways. -/
def isUndirected (b : BaseGraph) : Bool := b.members.all fun g => g.adjacency.isUndirected

/-- Whether every member has a property. -/
def hasProperty (b : BaseGraph) : Bool := b.members.all fun g => g.values.isSome

/-- The degree of a node.  Those in the members of a union are added up in 32 bits. -/
def degree (b : BaseGraph) (node : Nat) : Nat :=
  match b with
  | single g => g.adjacency.degree node
  | union g gs => addUp ((g :: gs).map fun m => m.adjacency.degree node) % UInt32.size

/-- Open the runs of a node. -/
def openRuns (b : BaseGraph) (node : Nat) : BaseCursor :=
  match b with
  | single g => .run (g.adjacency.openRun node)
  | union g gs => .union (.ofRuns ((g :: gs).map fun m => m.adjacency.openRun node))

/-- The relationships of a node with their values, member after member. -/
def weighted (b : BaseGraph) (fallback : Double) (node : Nat) : List (Nat × Double) :=
  b.members.flatMap fun g => g.weighted fallback node

/-- A union of some graphs.  Fails without graphs, and when two have different
numberings. -/
def unite : List SingleGraph → Except GraphError BaseGraph
  | [] => .error (.badConfiguration .emptyUnion)
  | g :: gs =>
    if gs.all fun m => m.numbering.identity = g.numbering.identity then .ok (union g gs)
    else .error (.badConfiguration .foreignMember)

end BaseGraph

/-- A node filter over a view. -/
structure FilterLayer where
  filter : NodeFilter
  /-- Relationships with both ends selected. -/
  relationshipCount : Nat
deriving Inhabited

/-- A base seen through node filters. -/
structure View where
  base : BaseGraph
  /-- The filters, the outermost first. -/
  layers : List FilterLayer
deriving Inhabited

/-- The outermost construction of a view. -/
inductive ViewShape where
  | single
  | union (members : Nat)
  | filtered (nodes innerNodes : Nat)
deriving DecidableEq, Repr

namespace View

/-- A view of a base as it is. -/
def ofBase (b : BaseGraph) : View := ⟨b, []⟩

/-- A view of one adjacency as it is. -/
def ofSingle (g : SingleGraph) : View := ofBase (.single g)

/-- The view below the outermost filter. -/
def inner (v : View) : View := ⟨v.base, v.layers.tail⟩

/-- The numbering of the nodes. -/
def numbering (v : View) : Numbering :=
  match v.layers with
  | [] => v.base.numbering
  | layer :: _ => layer.filter.numbering

/-- Number of nodes. -/
def nodeCount (v : View) : Nat := v.numbering.nodeCount

/-- Number of relationships. -/
def relationshipCount (v : View) : Nat :=
  match v.layers with
  | [] => v.base.relationshipCount
  | layer :: _ => layer.relationshipCount

/-- Whether every relationship is there both ways. -/
def isUndirected (v : View) : Bool := v.base.isUndirected

/-- Whether relationships have values of their own. -/
def hasProperty (v : View) : Bool := v.base.hasProperty

/-- How the view was made. -/
def shape (v : View) : ViewShape :=
  match v.layers, v.base with
  | [], .single _ => .single
  | [], .union _ gs => .union (gs.length + 1)
  | layer :: _, _ => .filtered layer.filter.nodeCount v.inner.nodeCount

/-- The tables of property graphs that a view reads. -/
def tables (v : View) : List TableName := v.base.members.flatMap SingleGraph.tables

/-- The cursor of a base read through some filters. -/
def cursorThrough : List FilterLayer → Cursor BaseCursor
  | [] => baseCursor
  | layer :: below => (cursorThrough below).through layer.filter

/-- The cursor of a view. -/
def cursor (v : View) : Cursor BaseCursor := cursorThrough v.layers

/-- The node of a base with `nodeCount` nodes that a node under some filters is. -/
def rootThrough? (nodeCount : Nat) : List FilterLayer → Nat → Option Nat
  | [], node => if node < nodeCount then some node else none
  | layer :: below, node =>
    match layer.filter.oldOf? node with
    | some root => rootThrough? nodeCount below root
    | none => none

/-- The base's number of a node. -/
def root? (v : View) (node : Nat) : Option Nat :=
  rootThrough? v.base.numbering.nodeCount v.layers node

/-- Open the runs of a node, none for a node the view does not have. -/
def openAt? (v : View) (node : Nat) : Option BaseCursor := (v.root? node).map v.base.openRuns

/-- The targets of a node, none for a node the view does not have. -/
def targets? (v : View) (node : Nat) : Option (List Nat) := (v.openAt? node).map v.cursor.toList

/-- The targets of a node. -/
def targets (v : View) (node : Nat) : List Nat := (v.targets? node).getD []

/-- The degree of a node, none for a node the view does not have.  Under a filter its
targets are counted in 32 bits. -/
def degree? (v : View) (node : Nat) : Option Nat :=
  if v.layers.isEmpty then (v.root? node).map v.base.degree
  else (v.targets? node).map fun targets => targets.length % UInt32.size

/-- The degree of a node, zero for a node the view does not have. -/
def degree (v : View) (node : Nat) : Nat := (v.degree? node).getD 0

/-- Whether a relationship leads from a node to another. -/
def hasRelationship? (v : View) (source target : Nat) : Option Bool :=
  (v.openAt? source).map fun s => (v.cursor.seekFrom target s).1 == some target

/-- Relationships of the base as they are seen through some filters. -/
def weightedThrough : List FilterLayer → List (Nat × Double) → List (Nat × Double)
  | [], pairs => pairs
  | layer :: below, pairs =>
    (weightedThrough below pairs).filterMap fun (target, value) =>
      (layer.filter.newOf? target).map (·, value)

/-- The relationships of a node with their values.  Members of a union without a
property give the fallback. -/
def weighted? (v : View) (fallback : Double) (node : Nat) : Option (List (Nat × Double)) :=
  (v.root? node).map fun root => weightedThrough v.layers (v.base.weighted fallback root)

/-- Hand the items of a list to a consumer until it declines one.  The consumer has a
state, and says with the new state whether it wants more. -/
def visit {α σ : Type} (consumer : σ → α → σ × Bool) : List α → σ → σ
  | [], s => s
  | x :: rest, s =>
    match consumer s x with
    | (s, true) => visit consumer rest s
    | (s, false) => s

/-- Hand the targets of a node to a consumer until it declines one. -/
def visitTargets? {σ : Type} (v : View) (node : Nat) (consumer : σ → Nat → σ × Bool) (s : σ) :
    Option σ :=
  (v.targets? node).map fun targets => visit consumer targets s

/-- Hand the relationships of a node, with their values, to a consumer until it
declines one. -/
def visitWeighted? {σ : Type} (v : View) (fallback : Double) (node : Nat)
    (consumer : σ → Nat × Double → σ × Bool) (s : σ) : Option σ :=
  (v.weighted? fallback node).map fun pairs => visit consumer pairs s

/-! ## Filters -/

/-- Number of relationships of a node of a filter that lead to another such node. -/
def passingCount (v : View) (filter : NodeFilter) (node : Nat) : Nat :=
  match filter.oldOf? node with
  | some root => ((v.targets root).filter fun t => (filter.newOf? t).isSome).length
  | none => 0

/-- Number of relationships that stay under a filter, added up batch by batch in 64 bits. -/
def countThrough (v : View) (filter : NodeFilter) (workers : Nat) : Nat :=
  addUp ((batchesOf filter.nodeCount workers).map fun batch =>
    addUp (batch.nodes.map (v.passingCount filter))) % UInt64.size

/-- The view under one more filter, which selects nodes of the view.  The workers count
the relationships that stay. -/
def filtered (v : View) (filter : NodeFilter) (workers : Nat) : Except GraphError View := do
  checkWorkers workers
  pure ⟨v.base, ⟨filter, v.countThrough filter workers⟩ :: v.layers⟩

end View

end PagedGraph
