import PagedGraph.Cursor.Run

/-!
# Merging cursors

A `MergeCursor` reads several runs as one ascending list.  Every member holds its next
target, its head, already read.  The least head is given, of equal heads the first, and
that member is refilled.  A search moves only the members whose head is still
behind the bound, so no head that has to be given is lost.

The counts of the members are added up as words of 32 bits.  Runs have fewer targets than
such a word can count, but several runs may have more.  Then `remaining` and `hasNext`
answer with what is left of the sum, and nothing else is touched.
-/

namespace PagedGraph

/-- One of the runs, with its next target read ahead. -/
structure MergeMember where
  /-- The next target, none at the end of the run. -/
  head : Option Nat
  /-- The run behind the head. -/
  run : RunCursor
deriving DecidableEq, Repr, Inhabited

namespace MergeMember

/-- Read the head of a run. -/
def ofRun (run : RunCursor) : MergeMember :=
  let (head, run) := run.next
  ⟨head, run⟩

/-- Replace the head by the next target of the run. -/
def refill (m : MergeMember) : MergeMember := ofRun m.run

/-- Targets not given yet. -/
def left (m : MergeMember) : Nat := (if m.head.isSome then 1 else 0) + m.run.remaining

/-- Move on while the head satisfies `behind`, by the given search. -/
def seek (m : MergeMember) (behind : Nat → Bool) (search : RunCursor → Option Nat × RunCursor) :
    MergeMember :=
  match m.head with
  | some t =>
    if behind t then
      let (head, run) := search m.run
      ⟨head, run⟩
    else m
  | none => m

end MergeMember

/-- A state of reading several runs. -/
structure MergeCursor where
  /-- The members. -/
  members : List MergeMember
deriving DecidableEq, Repr, Inhabited

namespace MergeCursor

/-- The state in front of some runs. -/
def ofRuns (runs : List RunCursor) : MergeCursor := ⟨runs.map MergeMember.ofRun⟩

/-- The least head of some members. -/
def leastHead : List MergeMember → Option Nat
  | [] => none
  | m :: ms =>
    match m.head, leastHead ms with
    | some t, some u => some (min t u)
    | some t, none => some t
    | none, least => least

/-- Refill the first member whose head is `t`. -/
def refillFirst (t : Nat) : List MergeMember → List MergeMember
  | [] => []
  | m :: ms => if m.head = some t then m.refill :: ms else m :: refillFirst t ms

/-- The next target. -/
def peek (c : MergeCursor) : Option Nat := leastHead c.members

/-- Give the least head and refill its member. -/
def next (c : MergeCursor) : Option Nat × MergeCursor :=
  match c.peek with
  | some t => (some t, ⟨refillFirst t c.members⟩)
  | none => (none, c)

/-- Targets not given yet. -/
def left (c : MergeCursor) : Nat := addUp (c.members.map MergeMember.left)

/-- The number of targets not given yet, added up in 32 bits. -/
def remaining (c : MergeCursor) : Nat := c.left % UInt32.size

/-- The first target above a bound. -/
def seekAbove (bound : Nat) (c : MergeCursor) : Option Nat × MergeCursor :=
  next ⟨c.members.map fun m => m.seek (· ≤ bound) (runCursor.seekAbove bound)⟩

/-- The first target not below a bound. -/
def seekFrom (bound : Nat) (c : MergeCursor) : Option Nat × MergeCursor :=
  next ⟨c.members.map fun m => m.seek (· < bound) (runCursor.seekFrom bound)⟩

end MergeCursor

/-- The cursor on several runs. -/
def mergeCursor : Cursor MergeCursor where
  next := MergeCursor.next
  peek := MergeCursor.peek
  left := MergeCursor.left
  remaining := MergeCursor.remaining
  hasNext c := c.remaining > 0
  seekAbove := MergeCursor.seekAbove
  seekFrom := MergeCursor.seekFrom

/-- A state of reading what a graph stores for a node: one run or a union of runs. -/
inductive BaseCursor where
  | run (c : RunCursor)
  | union (c : MergeCursor)
deriving DecidableEq, Repr, Inhabited

/-- The cursor on what graphs store. -/
def baseCursor : Cursor BaseCursor where
  next
    | .run c => let (t, c) := runCursor.next c; (t, .run c)
    | .union c => let (t, c) := mergeCursor.next c; (t, .union c)
  peek
    | .run c => runCursor.peek c
    | .union c => mergeCursor.peek c
  left
    | .run c => runCursor.left c
    | .union c => mergeCursor.left c
  remaining
    | .run c => runCursor.remaining c
    | .union c => mergeCursor.remaining c
  hasNext
    | .run c => runCursor.hasNext c
    | .union c => mergeCursor.hasNext c
  seekAbove bound
    | .run c => let (t, c) := runCursor.seekAbove bound c; (t, .run c)
    | .union c => let (t, c) := mergeCursor.seekAbove bound c; (t, .union c)
  seekFrom bound
    | .run c => let (t, c) := runCursor.seekFrom bound c; (t, .run c)
    | .union c => let (t, c) := mergeCursor.seekFrom bound c; (t, .union c)

end PagedGraph
