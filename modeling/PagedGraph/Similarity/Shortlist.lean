import PagedGraph.Similarity.Settings

/-!
# Shortlists

Items are ranked by score in the total order of doubles, highest or lowest first.  Equal
scores are ranked by node ids, ascending.  This is a total order, so what is kept
does not depend on the order in which items were inserted, nor on how shortlists were
merged.

A `Shortlist` keeps the best `limit` of all items inserted.  It buffers
them unsorted, and once there are twice the limit it drops all but the best.
-/

namespace PagedGraph

/-- A neighbor of a given node. -/
structure Neighbor where
  target : Nat
  score : Double
deriving DecidableEq, Repr, Inhabited

/-- Two nodes and how similar they are. -/
structure SimilarPair where
  left : Nat
  right : Nat
  score : Double
deriving DecidableEq, Repr, Inhabited

/-- The pair read the other way. -/
def SimilarPair.swap (r : SimilarPair) : SimilarPair := ⟨r.right, r.left, r.score⟩

/-- Items with a place in a ranking. -/
class Rankable (α : Type) where
  /-- The order of two items: `lt` when the first is ranked before the second. -/
  compareRank : RankOrder → α → α → Ordering

/-- The order of two scores in a ranking. -/
def rankScores : RankOrder → Double → Double → Ordering
  | .highest, x, y => y.compareTotal x
  | .lowest, x, y => x.compareTotal y

instance : Rankable Neighbor where
  compareRank order a b := (rankScores order a.score b.score).then (compare a.target b.target)

instance : Rankable SimilarPair where
  compareRank order a b := (rankScores order a.score b.score).then
    ((compare a.left b.left).then (compare a.right b.right))

/-- Items in the order of a ranking. -/
def sortRanked {α : Type} [Rankable α] (order : RankOrder) (items : List α) : List α :=
  items.mergeSort fun a b => (Rankable.compareRank order a b).isLE

/-- The best of the items inserted. -/
structure Shortlist (α : Type) where
  /-- How many items are kept. -/
  limit : Nat
  order : RankOrder
  /-- Items that may be among the best. -/
  items : Array α := #[]
deriving DecidableEq, Repr, Inhabited

namespace Shortlist

variable {α : Type}

/-- How many items are kept. -/
def size (s : Shortlist α) : Nat := min s.items.size s.limit

/-- Whether nothing was kept. -/
def isEmpty (s : Shortlist α) : Bool := s.items.isEmpty

variable [Rankable α]

/-- Drop all but the best. -/
def trim (s : Shortlist α) : Shortlist α :=
  if s.items.size ≤ s.limit then s
  else { s with items := ((sortRanked s.order s.items.toList).take s.limit).toArray }

/-- Trim a shortlist that has twice the limit of items. -/
def trimIfFull (s : Shortlist α) : Shortlist α :=
  if s.items.size ≥ 2 * s.limit then s.trim else s

/-- Take an item, unless nothing is to be kept. -/
def insert (s : Shortlist α) (item : α) : Shortlist α :=
  match s with
  | ⟨0, order, items⟩ => ⟨0, order, items⟩
  | ⟨limit + 1, order, items⟩ => trimIfFull ⟨limit + 1, order, items.push item⟩

/-- Take over the items of another shortlist. -/
def merge (s t : Shortlist α) : Shortlist α :=
  trimIfFull ⟨s.limit, s.order, s.items ++ t.items⟩

/-- The items kept, best first. -/
def toList (s : Shortlist α) : List α := sortRanked s.order s.trim.items.toList

end Shortlist

/-- A shortlist of neighbors for every node. -/
structure NodeShortlists where
  lists : Array (Shortlist Neighbor)
deriving DecidableEq, Repr, Inhabited

namespace NodeShortlists

/-- Empty shortlists for `n` nodes. -/
def blank (n limit : Nat) (order : RankOrder) : NodeShortlists :=
  ⟨Array.replicate n { limit, order }⟩

/-- Insert a neighbor into a node's list. -/
def insert (m : NodeShortlists) (source target : Nat) (score : Double) : NodeShortlists :=
  match m with
  | ⟨lists⟩ => ⟨lists.modify source (·.insert ⟨target, score⟩)⟩

/-- Insert a neighbor into a node's list.  None when there is no such node. -/
def insert? (m : NodeShortlists) (source target : Nat) (score : Double) : Option NodeShortlists :=
  if source < m.lists.size then some (m.insert source target score) else none

/-- Merge node by node. -/
def merge (m n : NodeShortlists) : NodeShortlists :=
  ⟨Array.zipWith (fun mine theirs => if theirs.isEmpty then mine else mine.merge theirs)
    m.lists n.lists⟩

/-- The neighbors kept for every node, best first. -/
def toLists (m : NodeShortlists) : List (List Neighbor) := m.lists.toList.map Shortlist.toList

end NodeShortlists

end PagedGraph
