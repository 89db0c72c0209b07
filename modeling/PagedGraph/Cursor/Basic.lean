/-!
# Cursors

A cursor walks an ascending list of targets without holding the list.  `Cursor σ` is
the record of its operations on states of type `σ`.  A state is a plain value, so
keeping one is a fork, and nothing done to a fork is seen elsewhere.

* `next` gives the next target and moves behind it, `peek` gives it and does not move.
* `remaining` answers how many targets are left, or gives a bound on that.
* `seekAbove t` moves behind the first target above `t`, `seekFrom t` behind the first
  target not below `t`.  Both give that target, or none when the targets end first.

A loop over `next` ends when there is no target.  It is bounded by `left`, which answers
nobody and is no word: a count that has run over would end the loop too early.

`Cursor.ofSteps` makes a cursor from `next`, `peek` and its count, with the two
searches as loops over `next`.  `listCursor` is the cursor on a plain list.
-/

namespace PagedGraph

/-- The operations of a cursor on its states. -/
structure Cursor (σ : Type) where
  /-- The next target, and the state behind it. -/
  next : σ → Option Nat × σ
  /-- The next target. -/
  peek : σ → Option Nat
  /-- At least the number of targets left.  Loops end by it. -/
  left : σ → Nat
  /-- What the cursor answers when it is asked how many targets are left. -/
  remaining : σ → Nat
  /-- Whether a target is left. -/
  hasNext : σ → Bool
  /-- The first target above a bound, and the state behind it. -/
  seekAbove : Nat → σ → Option Nat × σ
  /-- The first target not below a bound, and the state behind it. -/
  seekFrom : Nat → σ → Option Nat × σ

namespace Cursor

/-- Step until a target is wanted or the targets end, for at most `fuel` steps. -/
def firstWanted {σ : Type} (next : σ → Option Nat × σ) (wanted : Nat → Bool) :
    Nat → σ → Option Nat × σ
  | 0, s => (none, s)
  | fuel + 1, s =>
    match next s with
    | (some t, s) => if wanted t then (some t, s) else firstWanted next wanted fuel s
    | (none, s) => (none, s)

/-- A cursor that counts its targets and searches by stepping. -/
def ofSteps {σ : Type} (next : σ → Option Nat × σ) (peek : σ → Option Nat)
    (count : σ → Nat) : Cursor σ where
  next := next
  peek := peek
  left := count
  remaining := count
  hasNext s := count s > 0
  seekAbove bound s := firstWanted next (· > bound) (count s) s
  seekFrom bound s := firstWanted next (· ≥ bound) (count s) s

/-- The targets `next` gives, for at most `fuel` steps, behind those of `before`, which
come in reverse.  The state behind them is given too. -/
def gather {σ : Type} (c : Cursor σ) : Nat → σ → List Nat → List Nat × σ
  | 0, s, before => (before.reverse, s)
  | fuel + 1, s, before =>
    match c.next s with
    | (some t, s) => c.gather fuel s (t :: before)
    | (none, s) => (before.reverse, s)

/-- The next targets, for at most `fuel` steps, and the state behind them. -/
def take {σ : Type} (c : Cursor σ) (fuel : Nat) (s : σ) : List Nat × σ := c.gather fuel s []

/-- All targets left, and the state behind them.  The step after the last target is
taken too, so a state that only learns there that it is at its end has learned it. -/
def collect {σ : Type} (c : Cursor σ) (s : σ) : List Nat × σ := c.take (c.left s + 1) s

/-- All targets left. -/
def toList {σ : Type} (c : Cursor σ) (s : σ) : List Nat := (c.collect s).1

end Cursor

/-- The cursor on a list of targets. -/
def listCursor : Cursor (List Nat) :=
  .ofSteps (fun ts => (ts.head?, ts.tail)) List.head? List.length

end PagedGraph
