import PagedGraph.Data.Named
import PagedGraph.Error
import PagedGraph.Number.Sum

/-!
# Node property columns

A column holds the values of one property key for all nodes.  All values of a column
have one kind.  A node without a value has an empty slot, so every integer and
every double can be a value.
-/

namespace PagedGraph

/-- The values of one property, by internal id. -/
inductive Column where
  | int (slots : Array (Option Int))
  | float (slots : Array (Option Double))
  | intList (slots : Array (Option (List Int)))
  | floatList (slots : Array (Option (List Double)))
deriving DecidableEq, Repr, Inhabited

namespace Column

/-- A column of empty slots. -/
def blank : ValueKind → Nat → Column
  | .int, n => int (Array.replicate n none)
  | .float, n => float (Array.replicate n none)
  | .intList, n => intList (Array.replicate n none)
  | .floatList, n => floatList (Array.replicate n none)

/-- The kind of the values of a column. -/
def kind : Column → ValueKind
  | int _ => .int
  | float _ => .float
  | intList _ => .intList
  | floatList _ => .floatList

/-- Number of slots. -/
def size : Column → Nat
  | int slots => slots.size
  | float slots => slots.size
  | intList slots => slots.size
  | floatList slots => slots.size

/-- The integer of a node, none in a column of another kind. -/
def int? : Column → Nat → Option Int
  | int slots, node => slots.getD node none
  | _, _ => none

/-- The number of a node as a double, none in a column of lists. -/
def double? : Column → Nat → Option Double
  | int slots, node => (slots.getD node none).map .ofInt
  | float slots, node => slots.getD node none
  | _, _ => none

/-- The value of a node, null for an empty slot and for an id that is no node's. -/
def value : Column → Nat → Value
  | int slots, node => ((slots.getD node none).map .int).getD .null
  | float slots, node => ((slots.getD node none).map .float).getD .null
  | intList slots, node => ((slots.getD node none).map .intList).getD .null
  | floatList slots, node => ((slots.getD node none).map .floatList).getD .null

/-- Give a node a value.  Null changes nothing. -/
def set : Column → Nat → Value → Except GraphError Column
  | column, _, .null => .ok column
  | int slots, node, .int x => .ok (int (slots.setIfInBounds node (some x)))
  | float slots, node, .float x => .ok (float (slots.setIfInBounds node (some x)))
  | intList slots, node, .intList x => .ok (intList (slots.setIfInBounds node (some x)))
  | floatList slots, node, .floatList x => .ok (floatList (slots.setIfInBounds node (some x)))
  | column, _, value =>
    match value.kind? with
    | some got => .error (.typeClash (.column column.kind got))
    | none => .ok column

/-- Bytes of a slot that holds a number. -/
def numberSlotBytes : Nat := 16

/-- Bytes of a slot that holds a list, without its items. -/
def listSlotBytes : Nat := 24

/-- Bytes of the slots of a column of lists. -/
def listBytes {α : Type} (slots : Array (Option (List α))) : Nat :=
  addUp (slots.toList.map fun slot => listSlotBytes + 8 * (slot.getD []).length)

/-- Bytes of all slots. -/
def byteSize : Column → Nat
  | int slots => numberSlotBytes * slots.size
  | float slots => numberSlotBytes * slots.size
  | intList slots => listBytes slots
  | floatList slots => listBytes slots

end Column

/-- The columns of all property keys. -/
structure Columns where
  /-- The columns by key. -/
  columns : List (String × Column)
  /-- The keys given to nodes with a label, by label. -/
  keysByLabel : List (String × List String)
deriving DecidableEq, Repr, Inhabited

namespace Columns

/-- No columns. -/
def empty : Columns := ⟨[], []⟩

/-- A column without values for every key. -/
def blank (n : Nat) (kinds : List (String × ValueKind)) : Columns :=
  ⟨kinds.map fun (key, kind) => (key, .blank kind n), []⟩

variable (s : Columns)

/-- The column of a key. -/
def get? (key : String) : Option Column := s.columns.lookup key

/-- The keys that have a column, sorted. -/
def keys : List String := sortedNames (names s.columns)

/-- The keys given to nodes with a label, sorted. -/
def keysOf (label : String) : List String := sortedNames ((s.keysByLabel.lookup label).getD [])

/-- Number of columns. -/
def size : Nat := s.columns.length

/-- Whether there is no column. -/
def isEmpty : Bool := s.columns.isEmpty

/-- Bytes of all columns. -/
def byteSize : Nat := addUp (s.columns.map fun c => c.2.byteSize)

/-- Note that a node with some labels was given some keys. -/
def noteKeys (labels keys : List String) : Columns :=
  { s with
    keysByLabel := labels.foldl (fun table label =>
      upsert label (fun known => keys.foldl (fun ks k => if ks.contains k then ks else ks ++ [k])
        (known.getD [])) table) s.keysByLabel }

/-- Give a node a value in a column.  Fails when the key has no column. -/
def set (node : Nat) (key : String) (value : Value) : Except GraphError Columns :=
  match s.get? key with
  | none => .error (.missing (.nodeProperty key))
  | some column => do
    let column ← column.set node value
    pure { s with columns := upsert key (fun _ => column) s.columns }

/-- Give a node values in several columns. -/
def setAll (s : Columns) (node : Nat) (entries : List (String × Value)) :
    Except GraphError Columns :=
  entries.foldlM (fun s (key, value) => s.set node key value) s

end Columns

end PagedGraph
