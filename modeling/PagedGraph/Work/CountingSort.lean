/-!
# Putting items together by key

Items from 0 on have keys below some bound.  `KeyGroups.ofItems` puts the items of every key
next to each other into one array, in three passes:

* For every key its items are counted.
* The counts are added up, which gives the place where the items of every key start.
* Item by item, ascending, an item is put into the next free place of each of its keys.
-/

namespace PagedGraph

/-- Add one to the count of every key of an item.  The count of a key has the place behind it. -/
def countKeys (counts : Array Nat) (keys : List Nat) : Array Nat :=
  keys.foldl (fun counts key => counts.modify (key + 1) (· + 1)) counts

/-- Replace every number by the sum of all numbers up to it. -/
def runningSums (counts : Array Nat) : Array Nat :=
  (List.range (counts.size - 1)).foldl (fun sums i => sums.modify (i + 1) (· + sums.getD i 0))
    counts

/-- Items that are being put into their places. -/
structure KeySlots where
  /-- The next free place of every key. -/
  next : Array Nat
  /-- The items of all keys. -/
  items : Array Nat
deriving DecidableEq, Repr, Inhabited

namespace KeySlots

/-- Put an item into the next free place of a key. -/
def put (s : KeySlots) (item key : Nat) : KeySlots :=
  match s with
  | ⟨next, items⟩ => ⟨next.modify key (· + 1), items.setIfInBounds (next.getD key 0) item⟩

/-- Put an item into a place of each of its keys. -/
def putAll (s : KeySlots) (item : Nat) (keys : List Nat) : KeySlots :=
  keys.foldl (fun s key => s.put item key) s

end KeySlots

/-- The items of all keys in one array. -/
structure KeyGroups where
  /-- Where the items of every key start, and where the last of all end. -/
  starts : Array Nat
  items : Array Nat
deriving DecidableEq, Repr, Inhabited

namespace KeyGroups

/-- Where the items of every key below `bound` start. -/
def startsOf (keys : Nat → List Nat) (count bound : Nat) : Array Nat :=
  runningSums ((List.range count).foldl (fun counts item => countKeys counts (keys item))
    (Array.replicate (bound + 1) 0))

/-- The first `count` items by their keys, which are below `bound`. -/
def ofItems (keys : Nat → List Nat) (count bound : Nat) : KeyGroups :=
  let starts := startsOf keys count bound
  let blank : KeySlots := ⟨starts, Array.replicate (starts.getD bound 0) 0⟩
  let filled := (List.range count).foldl (fun s item => s.putAll item (keys item)) blank
  ⟨starts, filled.items⟩

/-- The items of a key. -/
def itemsOf (groups : KeyGroups) (key : Nat) : List Nat :=
  (groups.items.extract (groups.starts.getD key 0) (groups.starts.getD (key + 1) 0)).toList

end KeyGroups

end PagedGraph
