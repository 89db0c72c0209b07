import PagedGraph.Cursor.Basic
import PagedGraph.Numbering.Filter

/-!
# Cursors through a node filter

A filter drops the targets outside a selection and numbers the others anew.
`Cursor.through` does so for any cursor, on the same states.  Selected nodes keep
their order, so a search for a new id is a search for its old id.  A bound that is
no selected node's id is above all of them: the search runs to the end.

`remaining` counts targets that will be dropped too.  `peek` and `hasNext` look for
the next target that passes.
-/

namespace PagedGraph

namespace Cursor

variable {σ : Type}

/-- Step on from a found target until one passes the filter, for at most `fuel` steps. -/
def firstPassing (inner : Cursor σ) (filter : NodeFilter) :
    Nat → Option Nat × σ → Option Nat × σ
  | _, (none, s) => (none, s)
  | fuel, (some root, s) =>
    match filter.newOf? root, fuel with
    | some t, _ => (some t, s)
    | none, 0 => (none, s)
    | none, fuel + 1 => firstPassing inner filter fuel (inner.next s)

/-- Step to the next target that passes, from a search of the unfiltered targets. -/
def passing (inner : Cursor σ) (filter : NodeFilter) (found : Option Nat × σ) :
    Option Nat × σ :=
  firstPassing inner filter (inner.left found.2 + 1) found

/-- Run to the end. -/
def drain (inner : Cursor σ) (s : σ) : Option Nat × σ := (none, (inner.collect s).2)

/-- The next target that passes. -/
def nextThrough (inner : Cursor σ) (filter : NodeFilter) (s : σ) : Option Nat × σ :=
  inner.passing filter (inner.next s)

/-- A cursor read through a filter. -/
def through (filter : NodeFilter) (inner : Cursor σ) : Cursor σ where
  next := inner.nextThrough filter
  peek s := (inner.nextThrough filter s).1
  left := inner.left
  remaining := inner.remaining
  hasNext s := (inner.nextThrough filter s).1.isSome
  seekAbove bound s :=
    match filter.oldOf? bound with
    | some root => inner.passing filter (inner.seekAbove root s)
    | none => inner.drain s
  seekFrom bound s :=
    match filter.oldOf? bound with
    | some root => inner.passing filter (inner.seekFrom root s)
    | none => inner.drain s

end Cursor

end PagedGraph
