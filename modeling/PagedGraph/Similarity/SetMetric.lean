import PagedGraph.Number.Double

/-!
# Similarity of sets

Two finite sets are compared by how many elements they share.  The number is divided by
the size of the union, by the smaller size, or by the geometric mean of the sizes.
The quotient is cut off at one, and undefined when the divisor is zero.
-/

namespace PagedGraph

/-- What the number of shared elements is divided by. -/
inductive SetMetric where
  /-- The size of the union. -/
  | jaccard
  /-- The smaller size. -/
  | overlap
  /-- The geometric mean of the sizes. -/
  | cosine
deriving DecidableEq, Repr, Inhabited

namespace SetMetric

/-- Every metric. -/
def all : List SetMetric := [jaccard, overlap, cosine]

/-- The name in listings. -/
def name : SetMetric → String
  | jaccard => "Jaccard"
  | overlap => "Overlap"
  | cosine => "Cosine"

/-- The spelling in configurations. -/
def word : SetMetric → String
  | jaccard => "JACCARD"
  | overlap => "OVERLAP"
  | cosine => "COSINE"

/-- The divisor for sets of two sizes with some shared elements. -/
def divisor : SetMetric → Nat → Nat → Nat → Double
  | jaccard, shared, size1, size2 => .ofNat (size1 + size2 - shared)
  | overlap, _, size1, size2 => .ofNat (min size1 size2)
  | cosine, _, size1, size2 => ((Double.ofNat size1).mul (.ofNat size2)).sqrt

/-- How similar sets of two sizes with some shared elements are. -/
def score (m : SetMetric) (shared size1 size2 : Nat) : Option Double :=
  let d := m.divisor shared size1 size2
  if d.isZero then none else some (((Double.ofNat shared).div d).min .one)

end SetMetric

/-- The sum of `count` and the number of elements two strictly ascending lists share. -/
def addShared (count : Nat) : List Nat → List Nat → Nat
  | [], _ => count
  | _ :: _, [] => count
  | x :: xs, y :: ys =>
    if x < y then addShared count xs (y :: ys)
    else if y < x then addShared count (x :: xs) ys
    else addShared (count + 1) xs ys
termination_by xs ys => xs.length + ys.length

/-- The number of elements two strictly ascending lists share. -/
def sharedCount (xs ys : List Nat) : Nat := addShared 0 xs ys

end PagedGraph
