import PagedGraph.Similarity.Run

/-!
# Comparisons

A `Comparison` is two profiles that a run scores.  The rows of a run are those of its
comparisons, in the same order, less what is below the cutoff.

Profiles are arrays, and their sizes are words of 64 bits.

* A `SharedScan` counts what two profiles share.  It has a place in each of them.  The
  smaller of the two elements there is passed, or both if they are equal, which is counted.
* The size of a union is the sum of the sizes without what is shared, as long as neither
  leaves the words (`unionWord?`).
-/

namespace PagedGraph

/-- A place in each of two arrays, and the number of equal elements passed. -/
structure SharedScan where
  left : Nat := 0
  right : Nat := 0
  count : Nat := 0
deriving DecidableEq, Repr, Inhabited

namespace SharedScan

variable (xs ys : Array Nat)

/-- Pass the smaller of two elements, or both if they are equal. -/
def step (s : SharedScan) (h : s.left < xs.size ∧ s.right < ys.size) : SharedScan :=
  match compare xs[s.left] ys[s.right] with
  | .lt => { s with left := s.left + 1 }
  | .gt => { s with right := s.right + 1 }
  | .eq => ⟨s.left + 1, s.right + 1, s.count + 1⟩

/-- What a step can do. -/
theorem step_cases (s : SharedScan) (h : s.left < xs.size ∧ s.right < ys.size) :
    xs[s.left] < ys[s.right] ∧ s.step xs ys h = { s with left := s.left + 1 } ∨
    ys[s.right] < xs[s.left] ∧ s.step xs ys h = { s with right := s.right + 1 } ∨
    xs[s.left] = ys[s.right] ∧ s.step xs ys h = ⟨s.left + 1, s.right + 1, s.count + 1⟩ := by
  rw [step]
  split
  case h_1 hlt => exact .inl ⟨Nat.compare_eq_lt.mp hlt, rfl⟩
  case h_2 hgt => exact .inr (.inl ⟨Nat.compare_eq_gt.mp hgt, rfl⟩)
  case h_3 heq => exact .inr (.inr ⟨Nat.compare_eq_eq.mp heq, rfl⟩)

/-- Step up to the end of one of the arrays. -/
def run (s : SharedScan) : SharedScan :=
  if h : s.left < xs.size ∧ s.right < ys.size then run (s.step xs ys h) else s
termination_by (xs.size - s.left) + (ys.size - s.right)
decreasing_by
  obtain ⟨-, hstep⟩ | ⟨-, hstep⟩ | ⟨-, hstep⟩ := step_cases xs ys s h
  all_goals rw [hstep]
  all_goals dsimp only
  all_goals omega

end SharedScan

/-- The number of elements that two strictly ascending arrays share. -/
def scanShared (xs ys : Array Nat) : Nat := (SharedScan.run xs ys {}).count

/-- The size of a union.  None where the sum of the sizes is no word, or less than what is
shared. -/
def unionWord? (shared size1 size2 : UInt64) : Option UInt64 :=
  if UInt64.size ≤ size1.toNat + size2.toNat then none
  else if size1 + size2 < shared then none
  else some (size1 + size2 - shared)

/-- Two nodes that are compared, with their profiles. -/
structure Comparison where
  node : Nat
  other : Nat
  left : List Nat
  right : List Nat
deriving DecidableEq, Repr, Inhabited

/-- The row of two nodes, none for a score below the cutoff. -/
def Comparison.row? (c : SimilaritySettings) (q : Comparison) : Option SimilarPair :=
  (pairScore c q.left q.right).map (⟨q.node, q.other, ·⟩)

/-- What the profile of a node is compared with. -/
def Prepared.comparisons (p : Prepared) (node : Nat) : List Comparison :=
  match p.profile? node with
  | none => []
  | some left =>
    (p.partners node left).filterMap fun other =>
      (p.profile? other).map fun right => ⟨node, other, left, right⟩

end PagedGraph
