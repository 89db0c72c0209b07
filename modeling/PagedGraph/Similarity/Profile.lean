import PagedGraph.Similarity.Settings
import PagedGraph.View.Basic

/-!
# Neighbor profiles

The profile of a node is the strictly ascending list of its neighbors other than
itself.  Only nodes whose number of such neighbors lies between the degree cutoffs
take part in a run.  A node whose degree is below the lower cutoff is left out without
reading its targets.

A `CandidateIndex` lists for every node its holders, the nodes that have it in their
profile, ascending.  Two profiles share an element if and only if one node is a holder of
an element of the other.
-/

namespace PagedGraph

/-- An ascending list without repetitions. -/
def distinctSorted (xs : List Nat) : List Nat :=
  (xs.foldl (fun seen x => if seen.head? = some x then seen else x :: seen) []).reverse

/-- The distinct neighbors of a node, itself left out. -/
def View.neighbors (v : View) (node : Nat) : List Nat :=
  distinctSorted ((v.targets node).filter (· ≠ node))

/-- The profile of a node, none for a node that does not take part. -/
def profileOf? (v : View) (c : SimilaritySettings) (node : Nat) : Option (List Nat) :=
  if v.degree node < c.degreeCutoff then none
  else
    let profile := v.neighbors node
    let distinct := profile.length
    if distinct < c.degreeCutoff ∨ c.upperDegreeCutoff < distinct then none else some profile

/-- The profile of every node. -/
abbrev Profiles := Array (Option (List Nat))

/-- The profiles of all nodes of a view, batch by batch. -/
def profilesOf (v : View) (c : SimilaritySettings) : Profiles :=
  ((batchesOf v.nodeCount c.workers).flatMap fun batch =>
    batch.nodes.map (profileOf? v c)).toArray

/-- How many nodes take part. -/
def participantCount (profiles : Profiles) : Nat := profiles.toList.countP Option.isSome

/-- For every node the nodes that have it in their profile, ascending. -/
structure CandidateIndex where
  holders : Array (Array Nat)
deriving DecidableEq, Repr, Inhabited

namespace CandidateIndex

/-- Add a node to the holders of the elements of its profile. -/
def add (index : CandidateIndex) (holder : Nat) (profile : List Nat) : CandidateIndex :=
  match index with
  | ⟨holders⟩ => ⟨profile.foldl (fun lists t => lists.modify t (·.push holder)) holders⟩

/-- The index of some profiles. -/
def ofProfiles (profiles : Profiles) : CandidateIndex :=
  profiles.toList.zipIdx.foldl (fun index (profile?, node) => index.add node (profile?.getD []))
    ⟨Array.replicate profiles.size #[]⟩

/-- The holders of `target` above `node`, ascending. -/
def holdersAbove (index : CandidateIndex) (target node : Nat) : List Nat :=
  (index.holders.getD target #[]).toList.dropWhile (· ≤ node)

/-- The nodes above `node` that share an element with its profile, ascending. -/
def candidates (index : CandidateIndex) (node : Nat) (profile : List Nat) : List Nat :=
  distinctSorted (profile.flatMap fun t => index.holdersAbove t node).mergeSort

end CandidateIndex

end PagedGraph
