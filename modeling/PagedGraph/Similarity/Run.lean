import PagedGraph.Load.Relationships
import PagedGraph.Similarity.Shortlist
import PagedGraph.Similarity.Profile

/-!
# Node similarity

A run scores every pair of participating nodes at most once, the smaller id first, and
keeps the pairs whose score is not below the cutoff.  With a positive cutoff only
pairs with a shared neighbor can qualify, so candidates come from the index.  With a
cutoff of zero every pair is compared.

The bounds decide what becomes of the scored pairs.

* No bound: all pairs, ascending, each in both directions.
* A bound for rows only: the best of all rows in both directions, best first.
* A bound for nodes only: the best neighbors of every node, node by node.
* Both: the best of the rows that the bound for nodes left.

Which batches share an accumulator, and in which order accumulators are merged, is up to
the workers: a `Gathering` says so.  One worker uses one accumulator throughout.
-/

namespace PagedGraph

/-- What a run compares. -/
structure Prepared where
  profiles : Profiles
  /-- Where candidates come from, none if all pairs are compared. -/
  index : Option CandidateIndex
deriving Inhabited

namespace Prepared

/-- Read the profiles of a view. -/
def ofView (v : View) (c : SimilaritySettings) : Prepared :=
  let profiles := profilesOf v c
  { profiles, index := if c.needsAllPairs then none else some (.ofProfiles profiles) }

/-- The profile of a node, none for a node that does not take part. -/
def profile? (p : Prepared) (node : Nat) : Option (List Nat) := p.profiles.getD node none

/-- The nodes a node is compared with, ascending. -/
def partners (p : Prepared) (node : Nat) (profile : List Nat) : List Nat :=
  match p.index with
  | some index => index.candidates node profile
  | none => List.range' (node + 1) (p.profiles.size - (node + 1))

end Prepared

/-- The score of two profiles, none below the cutoff. -/
def pairScore (c : SimilaritySettings) (left right : List Nat) : Option Double :=
  (c.metric.score (sharedCount left right) left.length right.length).filter fun s =>
    c.scoreCutoff.ble s

/-- The qualifying pairs whose smaller node is the given one. -/
def scorePartners (c : SimilaritySettings) (p : Prepared) (node : Nat) : List SimilarPair :=
  match p.profile? node with
  | none => []
  | some left =>
    (p.partners node left).filterMap fun other =>
      (p.profile? other).bind fun right => (pairScore c left right).map (⟨node, other, ·⟩)

/-- The qualifying pairs of a batch. -/
def scoreBatch (c : SimilaritySettings) (p : Prepared) (batch : NodeRange) : List SimilarPair :=
  batch.nodes.flatMap (scorePartners c p)

/-- Which batches are scored into one accumulator, one after another, and how accumulators are
merged. -/
inductive Gathering where
  | part (batches : List NodeRange)
  | join (left right : Gathering)
deriving DecidableEq, Repr, Inhabited

namespace Gathering

/-- The batches, from left to right. -/
def batches : Gathering → List NodeRange
  | part batches => batches
  | join left right => left.batches ++ right.batches

/-- One worker scores all batches into one accumulator.  With more of them every batch has its
own. -/
def ofBatches (workers : Nat) (batches : List NodeRange) : Gathering :=
  if workers = 1 then part batches
  else batches.foldl (fun gathered batch => join gathered (part [batch])) (part [])

/-- Score all batches into accumulators and merge these. -/
def accumulate {α : Type} (c : SimilaritySettings) (p : Prepared) (blank : α)
    (add : α → SimilarPair → α) (merge : α → α → α) : Gathering → α
  | part batches => batches.foldl (fun a batch => (scoreBatch c p batch).foldl add a) blank
  | join left right =>
    merge (accumulate c p blank add merge left) (accumulate c p blank add merge right)

end Gathering

/-- All qualifying pairs, ascending. -/
def scorePairs (t : Gathering) (c : SimilaritySettings) (p : Prepared) : List SimilarPair :=
  (t.accumulate c p #[] Array.push (· ++ ·)).toList.mergeSort fun a b =>
    ((compare a.left b.left).then (compare a.right b.right)).isLE

/-- The best neighbors of every node. -/
def scoreTopK (t : Gathering) (c : SimilaritySettings) (p : Prepared) (limit : Nat)
    (order : RankOrder) : List (List Neighbor) :=
  (t.accumulate c p (NodeShortlists.blank p.profiles.size limit order)
    (fun m r => (m.insert r.left r.right r.score).insert r.right r.left r.score)
    NodeShortlists.merge).toLists

/-- The best rows in both directions. -/
def scoreTopN (t : Gathering) (c : SimilaritySettings) (p : Prepared) (limit : Nat)
    (order : RankOrder) : List SimilarPair :=
  (t.accumulate c p ({ limit, order } : Shortlist SimilarPair)
    (fun s r => (s.insert r).insert r.swap) Shortlist.merge).toList

/-- The neighbors of all nodes as rows, node by node. -/
def neighborRows (lists : List (List Neighbor)) : List SimilarPair :=
  lists.zipIdx.flatMap fun (list, node) => list.map fun n => ⟨node, n.target, n.score⟩

/-- The best of the rows that a bound for nodes left. -/
def bestOf (lists : List (List Neighbor)) (limit : Nat) (order : RankOrder) :
    List SimilarPair :=
  ((neighborRows lists).foldl Shortlist.insert { limit, order }).toList

/-- What a run keeps. -/
inductive SimilarityRows where
  /-- The best neighbors of every node. -/
  | perNode (lists : List (List Neighbor))
  /-- Pairs that stand for both directions. -/
  | pairs (rows : List SimilarPair)
  | directed (rows : List SimilarPair)
deriving DecidableEq, Repr, Inhabited

/-- The result of a run. -/
structure SimilarityRun where
  rows : SimilarityRows
  /-- How many nodes took part. -/
  participants : Nat
deriving DecidableEq, Repr, Inhabited

namespace SimilarityRun

/-- Number of rows. -/
def size (r : SimilarityRun) : Nat :=
  match r.rows with
  | .perNode lists => addUp (lists.map List.length)
  | .pairs rows => rows.length * 2
  | .directed rows => rows.length

/-- Whether there are no rows. -/
def isEmpty (r : SimilarityRun) : Bool := r.size == 0

/-- The rows in order. -/
def toList (r : SimilarityRun) : List SimilarPair :=
  match r.rows with
  | .perNode lists => neighborRows lists
  | .pairs rows => rows.flatMap fun row => [row, row.swap]
  | .directed rows => rows

end SimilarityRun

/-- The rows that the bounds leave. -/
def selectRows (t : Gathering) (c : SimilaritySettings) (p : Prepared) : SimilarityRows :=
  match c.kBound, c.nBound with
  | .unbounded, .unbounded => .pairs (scorePairs t c p)
  | .unbounded, .limited n order => .directed (scoreTopN t c p n order)
  | .limited k order, .unbounded => .perNode (scoreTopK t c p k order)
  | .limited k kOrder, .limited n nOrder => .directed (bestOf (scoreTopK t c p k kOrder) n nOrder)

/-- Run on a view, with the batches gathered in some way.  A run that is told to stop gives
nothing. -/
def runGathered (t : Gathering) (v : View) (c : SimilaritySettings) (stopped : Bool) :
    Except GraphError (Option SimilarityRun) := do
  c.validate
  if stopped then pure none
  else
    let p := Prepared.ofView v c
    let participants := participantCount p.profiles
    if participants = 0 then pure (some ⟨.directed [], 0⟩)
    else pure (some ⟨selectRows t c p, participants⟩)

/-- Run on a view. -/
def runSimilarity (v : View) (c : SimilaritySettings) (stopped : Bool) :
    Except GraphError (Option SimilarityRun) :=
  runGathered (.ofBatches c.workers (batchesOf v.nodeCount c.workers)) v c stopped

/-! ## As a graph -/

/-- The property that holds the scores of a similarity graph. -/
def similarityKey : String := "similarity"

/-- How the rows of a result are stored. -/
def similarityProjection : Projection :=
  { aggregation := .keep, properties := [{ key := similarityKey }] }

/-- A result as a graph over the nodes of its view. -/
structure SimilarityGraph where
  graph : SingleGraph
  /-- How many nodes took part. -/
  participants : Nat
deriving Inhabited

/-- Store the rows of a result: a relationship with its score for every row. -/
def SimilarityRun.toGraph (r : SimilarityRun) (numbering : Numbering) (workers : Nat) :
    Except GraphError SingleGraph := do
  let loader ← RelationshipLoader.create numbering similarityProjection workers
  let loader := r.toList.foldl (fun l row => l.push row.left row.right [row.score]) loader
  let tables ← loader.build
  tables.toGraph numbering (some similarityKey)

/-- Run on a view and store the result. -/
def runSimilarityGraph (v : View) (c : SimilaritySettings) (stopped : Bool) :
    Except GraphError (Option SimilarityGraph) := do
  match ← runSimilarity v c stopped with
  | none => pure none
  | some result => do
    let graph ← result.toGraph v.numbering c.workers
    pure (some ⟨graph, result.participants⟩)

end PagedGraph
