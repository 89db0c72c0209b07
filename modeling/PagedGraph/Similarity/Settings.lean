import PagedGraph.Similarity.SetMetric
import PagedGraph.Work.Range

/-!
# Settings of a similarity run

A run can keep the best `k` neighbors of every node, the best `n` rows in all, both, or
everything.  A bound is given from the top or from the bottom of the ranking.  From the
top, zero means no bound and a negative number selects from the bottom.  Where
nothing is said, ten neighbors a node are kept and the number of rows is not
bounded.
-/

namespace PagedGraph

/-- Which end of a ranking is kept. -/
inductive RankOrder where
  | highest
  | lowest
deriving DecidableEq, Repr, Inhabited

/-- How many items are kept, and from which end. -/
inductive Bound where
  | unbounded
  | limited (limit : Nat) (order : RankOrder)
deriving DecidableEq, Repr, Inhabited

namespace Bound

/-- A bound from the top. -/
def fromTop (n : Int) : Bound :=
  if n = 0 then unbounded
  else if n < 0 then limited n.natAbs .lowest
  else limited n.natAbs .highest

/-- A bound from the top or the bottom, the latter counting first. -/
def choose (top bottom : Option Int) (otherwise : Bound) : Bound :=
  match bottom, top with
  | some n, _ => limited n.toNat .lowest
  | none, some n => fromTop n
  | none, none => otherwise

end Bound

/-- Neighbors kept for a node when nothing is said. -/
def standardK : Nat := 10

/-- The score below which pairs are dropped when nothing is said: the double next to
`10 ^ -42`. -/
def standardCutoff : Double := ⟨0x37364cfda3281e39⟩

/-- What a similarity run compares and keeps. -/
structure SimilaritySettings where
  workers : Nat := defaultWorkers
  metric : SetMetric := .jaccard
  topK : Option Int := none
  bottomK : Option Int := none
  topN : Option Int := none
  bottomN : Option Int := none
  /-- Pairs with a lower score are dropped. -/
  scoreCutoff : Double := standardCutoff
  /-- Nodes with fewer distinct neighbors are left out. -/
  degreeCutoff : Nat := 1
  /-- Nodes with more distinct neighbors are left out. -/
  upperDegreeCutoff : Nat := maxDegreeCutoff
deriving DecidableEq, Repr, Inhabited

namespace SimilaritySettings

variable (c : SimilaritySettings)

/-- What is wrong with some settings.  The first fault in this order is reported. -/
def fault? : Option ConfigFault :=
  if c.workers = 0 then some .noWorkers
  else if c.topK.isSome && c.bottomK.isSome then some .topAndBottomK
  else if c.topN.isSome && c.bottomN.isSome then some .topAndBottomN
  else if c.bottomK.any (· ≤ 0) then some .bottomKNotPositive
  else if c.bottomN.any (· ≤ 0) then some .bottomNNotPositive
  else if !(Double.zero.ble c.scoreCutoff && c.scoreCutoff.ble .one) then
    some .cutoffOutsideUnit
  else if c.upperDegreeCutoff = 0 then some .upperDegreeZero
  else if c.degreeCutoff > c.upperDegreeCutoff then some .degreesCrossed
  else none

/-- Whether some settings can be used. -/
def validate : Except GraphError Unit :=
  match c.fault? with
  | some fault => .error (.badConfiguration fault)
  | none => .ok ()

/-- The bound for every node. -/
def kBound : Bound := .choose c.topK c.bottomK (.limited standardK .highest)

/-- The bound for all pairs together. -/
def nBound : Bound := .choose c.topN c.bottomN .unbounded

/-- Whether pairs without a shared neighbor can qualify, so that every pair has to be
compared. -/
def needsAllPairs : Bool := c.scoreCutoff.ble .zero

end SimilaritySettings

end PagedGraph
