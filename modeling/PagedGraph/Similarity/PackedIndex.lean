import PagedGraph.Similarity.Profile
import PagedGraph.Work.CountingSort

/-!
# Candidate indices in one array

A `PackedIndex` has the holders of all nodes in one array, those of a node behind those of
the node before it, and the places where they start.  A holder is an item whose keys are
the elements of its profile.  The holders of a node above some other are found by bisection.
-/

namespace PagedGraph

/-- The first place from `first` on whose item is above a bound, `last` if there is none before
it.  The items in between ascend. -/
def firstAbove (items : Array Nat) (bound first last : Nat) : Nat :=
  if first < last then
    if items.getD ((first + last) / 2) 0 ≤ bound then
      firstAbove items bound ((first + last) / 2 + 1) last
    else firstAbove items bound first ((first + last) / 2)
  else first
termination_by last - first
decreasing_by all_goals omega

/-- The holders of all nodes in one array. -/
structure PackedIndex where
  /-- Where the holders of every node start, and where the last of all end. -/
  offsets : Array Nat
  holders : Array Nat
deriving DecidableEq, Repr, Inhabited

namespace PackedIndex

/-- The holders of all nodes, by the elements of their profiles. -/
def ofProfiles (profiles : Profiles) : PackedIndex :=
  let groups := KeyGroups.ofItems (fun node => (profiles.getD node none).getD []) profiles.size
    profiles.size
  ⟨groups.starts, groups.items⟩

/-- The holders of `target` above `node`, ascending. -/
def holdersAbove (index : PackedIndex) (target node : Nat) : List Nat :=
  let start := index.offsets.getD target 0
  let stop := index.offsets.getD (target + 1) 0
  (index.holders.extract (firstAbove index.holders node start stop) stop).toList

end PackedIndex

end PagedGraph
