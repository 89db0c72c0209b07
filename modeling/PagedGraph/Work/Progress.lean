/-!
# Progress

Progress of a task is announced in steps of ten percent.  Every announcement
is an event: the start, a milestone, or the finish.  A report of work emits at most
one milestone, the highest one reached, and none that was reached before.  A task
without work, and a report of no work, are silent and leave no trace.
-/

namespace PagedGraph

/-- What a task announces. -/
inductive Announcement where
  /-- The task starts and has `total` units of work. -/
  | start (total : Nat)
  /-- The share that is done has reached `percent`. -/
  | milestone (percent : Nat)
  | finish
deriving DecidableEq, Repr

/-- How far a task is. -/
structure TaskProgress where
  /-- Units of work in all. -/
  total : Nat
  /-- Units reported. -/
  completed : Nat := 0
  /-- The milestone announced last, zero before the first. -/
  announced : Nat := 0
deriving DecidableEq, Repr, Inhabited

namespace TaskProgress

/-- The tens of the percents that are completed.  More than all the work counts as all of it. -/
def milestone (total completed : Nat) : Nat :=
  min completed total * 100 % UInt64.size / total / 10 * 10

/-- What is announced before there are any reports. -/
def startAnnouncements (p : TaskProgress) : List Announcement := [.start p.total]

/-- What is announced at the end. -/
def finishAnnouncements : List Announcement := [.finish]

/-- Report work, and say what is announced. -/
def report (p : TaskProgress) (delta : Nat) : TaskProgress × List Announcement :=
  if p.total = 0 ∨ delta = 0 then (p, [])
  else
    let completed := (p.completed + delta) % UInt64.size
    let reached := milestone p.total completed
    if reached > p.announced then
      ({ p with completed, announced := reached }, [.milestone reached])
    else ({ p with completed }, [])

end TaskProgress

end PagedGraph
