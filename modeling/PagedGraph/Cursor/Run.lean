import PagedGraph.Codec.Leb128
import PagedGraph.Cursor.Basic
import PagedGraph.Number.Double
import PagedGraph.Page.Table

/-!
# Cursors on runs

A run of targets is a degree followed by the differences of the ascending targets, each
in groups of seven bits.  A `RunCursor` decodes one difference at a time and keeps the
last target as the base of the next.  A run of values holds eight bytes a value in the
order of the targets, and is read by a `ValueCursor`.
-/

namespace PagedGraph

/-- A state of reading a run of targets. -/
structure RunCursor where
  /-- The page the run lies in. -/
  bytes : Array UInt8
  /-- The place behind the degree. -/
  body : Nat
  /-- The degree written at the front. -/
  degree : Nat
  /-- How many bytes of the body are read. -/
  position : Nat
  /-- The target read last, zero before the first. -/
  lastTarget : Nat
  /-- Targets left to read. -/
  remaining : Nat
deriving DecidableEq, Repr, Inhabited

namespace RunCursor

/-- The state in front of a body of `degree` targets. -/
def start (bytes : Array UInt8) (body degree : Nat) : RunCursor :=
  { bytes, body, degree, position := 0, lastTarget := 0, remaining := degree }

/-- The state of a node without a run. -/
def empty : RunCursor := start #[] 0 0

/-- The next difference and the position behind it. -/
def delta? (c : RunCursor) : Option (Nat × Nat) :=
  (Leb128.readAt c.bytes (c.body + c.position)).map fun (d, after) => (d, after - c.body)

/-- Read the next target.  A run whose bytes end early ends there. -/
def next (c : RunCursor) : Option Nat × RunCursor :=
  if c.remaining = 0 then (none, c)
  else
    match c.delta? with
    | some (d, position) =>
      (some (c.lastTarget + d),
        { c with position, lastTarget := c.lastTarget + d, remaining := c.remaining - 1 })
    | none => (none, { c with remaining := 0 })

/-- The next target. -/
def peek (c : RunCursor) : Option Nat :=
  if c.remaining = 0 then none else c.delta?.map fun (d, _) => c.lastTarget + d

end RunCursor

/-- The cursor on a run of targets. -/
def runCursor : Cursor RunCursor := .ofSteps RunCursor.next RunCursor.peek RunCursor.remaining

/-- A state of reading a run of values. -/
structure ValueCursor where
  /-- The page the run lies in. -/
  bytes : Array UInt8
  /-- The place of the next value. -/
  place : Nat
  /-- Values left to read. -/
  remaining : Nat
deriving DecidableEq, Repr, Inhabited

namespace ValueCursor

/-- The state of a node without values. -/
def empty : ValueCursor := ⟨#[], 0, 0⟩

/-- The next value, none after the last. -/
def next (c : ValueCursor) : Option Double × ValueCursor :=
  match c.remaining with
  | 0 => (none, c)
  | left + 1 =>
    (some (.ofBytes (PageTable.slice c.bytes c.place 8)), ⟨c.bytes, c.place + 8, left⟩)

/-- The `count` values from a place on. -/
def valuesFrom (bytes : Array UInt8) (place count : Nat) : List Double :=
  (List.range count).map fun i => .ofBytes (PageTable.slice bytes (place + 8 * i) 8)

/-- The next `count` values, or all when fewer are left, and the state behind them. -/
def take (c : ValueCursor) (count : Nat) : List Double × ValueCursor :=
  let n := min count c.remaining
  (valuesFrom c.bytes c.place n, ⟨c.bytes, c.place + 8 * n, c.remaining - n⟩)

/-- All values left. -/
def toList (c : ValueCursor) : List Double := (c.take c.remaining).1

end ValueCursor

namespace PageTable

/-- Open the run of targets at an offset. -/
def openRun (s : PageTable) (offset : Nat) : RunCursor :=
  if offset = 0 then .empty
  else .start (s.page offset) (placeOf offset + degreeHeader) (s.degree offset)

/-- Open the run of `count` values at an offset. -/
def openValues (s : PageTable) (offset count : Nat) : ValueCursor :=
  if offset = 0 ∨ count = 0 then .empty else ⟨s.page offset, placeOf offset, count⟩

end PageTable

end PagedGraph
