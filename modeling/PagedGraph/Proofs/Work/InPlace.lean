import PagedGraph.Error

/-!
# Work in place

`InPlace σ α` is work on a state of type `σ` that ends with a result or with an error.  The
state is changed step by step, and an error undoes nothing: what was changed before it stays
changed.

A function that gives the next state or an error does not say what a failure leaves behind.
`InPlace.settle` says it for work that fails before it changes anything, so work has this
property if what it does to every state is `settle` of a function.
-/

namespace PagedGraph

/-- Work on a state.  What an error leaves of the state is part of what work does. -/
abbrev InPlace (σ α : Type) : Type := EStateM GraphError σ α

namespace InPlace

variable {σ α β : Type}

/-- The end of work on a state that gives a result and the next state, or fails and leaves
the state as it is. -/
def settle (s : σ) : Except GraphError (α × σ) → EStateM.Result GraphError σ α
  | .ok (a, next) => .ok a next
  | .error e => .error e s

/-- The state that work leaves, whether it fails or not. -/
def left : EStateM.Result GraphError σ α → σ
  | .ok _ s => s
  | .error _ s => s

/-- The result of work, or its error. -/
def answer : EStateM.Result GraphError σ α → Except GraphError α
  | .ok a _ => .ok a
  | .error e _ => .error e

/-- After a check that passes the work goes on in the same state. -/
theorem run_ok_bind (a : α) (next : α → InPlace σ β) (s : σ) :
    (ofExcept (.ok a) >>= next).run s = (next a).run s := rfl

/-- A check that fails ends the work in the state it began in. -/
theorem run_error_bind (e : GraphError) (next : α → InPlace σ β) (s : σ) :
    (ofExcept (.error e) >>= next).run s = .error e s := rfl

end InPlace

end PagedGraph
