import PagedGraph.View.Basic

/-!
# Triangles

A triangle is three nodes `a < b < c`, every two of them adjacent.  It is found from its
smallest corner, the anchor.  For every neighbor `b` above the anchor, the rest of
the anchor's targets is forked and walked side by side with the targets of `b` above
`b`.  What both have is a third corner.  Parallel relationships are passed over.

Nodes whose degree exceeds a bound take part in no triangle.  Triangles are found
only in views stored both ways.
-/

namespace PagedGraph

/-- Three nodes, every two of them adjacent. -/
structure Triangle where
  a : Nat
  b : Nat
  c : Nat
deriving DecidableEq, Repr, Inhabited

namespace Triangle

/-- By the smallest corner, then the middle, then the largest. -/
def lexOrder (s t : Triangle) : Ordering :=
  (compare s.a t.a).then ((compare s.b t.b).then (compare s.c t.c))

end Triangle

/-- What a triangle search is asked to do. -/
structure TriangleSettings where
  workers : Nat := defaultWorkers
  /-- Nodes with a higher degree take part in no triangle. -/
  maxDegree : Nat := maxDegreeCutoff
deriving DecidableEq, Repr, Inhabited

/-- Whether some settings can be used. -/
def TriangleSettings.validate (c : TriangleSettings) : Except GraphError Unit :=
  checkWorkers c.workers

/-- Fails on a view that is not stored both ways. -/
def View.checkUndirected (v : View) : Except GraphError Unit :=
  if v.isUndirected then .ok () else .error (.badConfiguration .directedTriangles)

/-- Whether the degree of a node is not above the cutoff. -/
def View.mayBeCorner (v : View) (maxDegree node : Nat) : Bool := v.degree node ≤ maxDegree

/-- Walk two cursors side by side and report what both have above `last`, once each.
`x` and `y` are what was read from them last.  `found` comes in reverse. -/
def commonTargets {σ : Type} (cursor : Cursor σ) (last : Nat) :
    Nat → Option Nat × σ → Option Nat × σ → List Nat → List Nat
  | fuel + 1, (some x, s), (some y, t), found =>
    if x < y then commonTargets cursor last fuel (cursor.seekFrom y s) (some y, t) found
    else if y < x then commonTargets cursor last fuel (some x, s) (cursor.seekFrom x t) found
    else
      commonTargets cursor x fuel (cursor.seekAbove x s) (cursor.seekAbove x t)
        (if last < x then x :: found else found)
  | _, _, _, found => found.reverse

/-- The third corners of the triangles on an anchor and a neighbor.  `rest` reads the
anchor's targets behind the neighbor. -/
def thirdCorners (v : View) (maxDegree b : Nat) (rest : BaseCursor) : List Nat :=
  match v.openAt? b with
  | none => []
  | some run =>
    let fuel := v.cursor.left rest + v.cursor.left run + 1
    (commonTargets v.cursor b fuel (v.cursor.next rest) (v.cursor.seekAbove b run) []).filter
      (v.mayBeCorner maxDegree)

/-- Visit the distinct neighbors of an anchor from `b?` on, for at most `fuel` of them.
`found` comes in reverse. -/
def anchoredFrom (v : View) (maxDegree anchor : Nat) :
    Nat → Option Nat × BaseCursor → List Triangle → List Triangle
  | fuel + 1, (some b, rest), found =>
    let found :=
      if v.mayBeCorner maxDegree b then
        (thirdCorners v maxDegree b rest).foldl (fun ts c => ⟨anchor, b, c⟩ :: ts) found
      else found
    anchoredFrom v maxDegree anchor fuel (v.cursor.seekAbove b rest) found
  | _, _, found => found.reverse

/-- The triangles whose smallest corner is the anchor, none for an anchor the view does
not have. -/
def trianglesAt? (v : View) (maxDegree anchor : Nat) : Option (List Triangle) :=
  (v.openAt? anchor).map fun run =>
    if v.mayBeCorner maxDegree anchor then
      anchoredFrom v maxDegree anchor (v.cursor.left run + 1) (v.cursor.seekAbove anchor run)
        []
    else []

/-- The triangles whose smallest corner is the anchor. -/
def trianglesAt (v : View) (maxDegree anchor : Nat) : List Triangle :=
  (trianglesAt? v maxDegree anchor).getD []

/-! ## All anchors

Batches report to a consumer.  Its state says whether the search is to stop.  That is
looked at when a batch starts: a batch that has started reports everything. -/

/-- Hand the triangles of a batch to a consumer. -/
def reportBatch {σ : Type} (v : View) (maxDegree : Nat) (accept : σ → Triangle → σ)
    (stops : σ → Bool) (s : σ) (batch : NodeRange) : List Triangle × σ :=
  if stops s then ([], s)
  else
    let found := batch.nodes.flatMap (trianglesAt v maxDegree)
    (found, found.foldl accept s)

/-- Hand the triangles of all batches to a consumer. -/
def reportBatches {σ : Type} (v : View) (maxDegree : Nat) (accept : σ → Triangle → σ)
    (stops : σ → Bool) : List NodeRange → σ → List (List Triangle) → List (List Triangle) × σ
  | [], s, before => (before.reverse, s)
  | batch :: rest, s, before =>
    let (found, s) := reportBatch v maxDegree accept stops s batch
    reportBatches v maxDegree accept stops rest s (found :: before)

/-- The triangles of every batch, none if the search was stopped, and the last state of
the consumer. -/
def reportTriangles {σ : Type} (v : View) (config : TriangleSettings) (accept : σ → Triangle → σ)
    (stops : σ → Bool) (s : σ) : Except GraphError (Option (List (List Triangle)) × σ) := do
  v.checkUndirected
  checkWorkers config.workers
  let (found, s) :=
    reportBatches v config.maxDegree accept stops (batchesOf v.nodeCount config.workers) s []
  pure (if stops s then none else some found, s)

/-- The triangles of every batch.  A search that is told to stop gives nothing. -/
def triangleBatches (v : View) (config : TriangleSettings) (stopped : Bool) :
    Except GraphError (Option (List (List Triangle))) := do
  let (batches, _) ← reportTriangles v config (fun s _ => s) id stopped
  pure batches

/-- All triangles, ascending. -/
def triangles (v : View) (config : TriangleSettings) (stopped : Bool) :
    Except GraphError (Option (List Triangle)) := do
  config.validate
  let batches ← triangleBatches v config stopped
  pure (batches.map fun found =>
    (found.flatMap id).mergeSort fun s t => (s.lexOrder t).isLE)

end PagedGraph
