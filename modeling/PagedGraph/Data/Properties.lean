import PagedGraph.Data.Named
import PagedGraph.Data.Value

/-!
# Properties

`Properties` give each of their keys one value.  They keep the keys in the order
these were first given, and a key given again takes the new value in the old place.
Listings sort by key.
-/

namespace PagedGraph

/-- Keys with their values, in the order the keys were first given. -/
structure Properties where
  entries : List (String × Value) := []
  nodup : (names entries).Nodup := by exact .nil
deriving DecidableEq, Repr, Inhabited

namespace Properties

/-- No keys. -/
def empty : Properties := {}

/-- The value of a key, none for a key that was not given. -/
def get? (m : Properties) (key : String) : Option Value := m.entries.lookup key

/-- Give a key a value.  A key that has one keeps its place. -/
def insert (m : Properties) (key : String) (value : Value) : Properties :=
  ⟨upsert key (fun _ => value) m.entries, nodup_names_upsert m.nodup ..⟩

/-- The properties of a list of pairs.  Of two with one key the later counts. -/
def ofList (pairs : List (String × Value)) : Properties :=
  pairs.foldl (fun m p => m.insert p.1 p.2) empty

/-- The keys, in the order they were first given. -/
def keys (m : Properties) : List String := names m.entries

/-- The entries sorted by key. -/
def sorted (m : Properties) : List (String × Value) := sortedByName m.entries

@[simp] theorem get?_insert_self (m : Properties) (key : String) (value : Value) :
    (m.insert key value).get? key = some value := lookup_upsert_self ..

theorem get?_insert_of_ne (m : Properties) {key other : String} (h : other ≠ key)
    (value : Value) : (m.insert key value).get? other = m.get? other := lookup_upsert_of_ne h ..

end Properties

end PagedGraph
