import PagedGraph.Number.Shortest

/-!
# Property values

A property of a node or a relationship is null, an integer, a double, or a list
of one of them.  Null is the absence of a value and has no kind.  Integers
convert to doubles where a number is asked for.  Lists do not.
-/

namespace PagedGraph

/-- The kinds of stored values. -/
inductive ValueKind where
  | int
  | float
  | intList
  | floatList
deriving DecidableEq, Repr, Inhabited

/-- A property value. -/
inductive Value where
  /-- No value. -/
  | null
  /-- A 64 bit integer. -/
  | int (n : Int)
  | float (x : Double)
  | intList (ns : List Int)
  | floatList (xs : List Double)
deriving DecidableEq, Repr, Inhabited

namespace ValueKind

/-- The name used in messages. -/
def title : ValueKind → String
  | int => "INTEGER"
  | float => "FLOAT"
  | intList => "LIST<INTEGER>"
  | floatList => "LIST<FLOAT>"

/-- The tag used in texts and listings. -/
def name : ValueKind → String
  | int => "Int"
  | float => "Float"
  | intList => "IntArray"
  | floatList => "FloatArray"

end ValueKind

namespace Value

/-- The kind of a value, none for null. -/
def kind? : Value → Option ValueKind
  | null => none
  | int _ => some .int
  | float _ => some .float
  | intList _ => some .intList
  | floatList _ => some .floatList

/-- Whether a value is null. -/
def isNull (v : Value) : Bool := v.kind?.isNone

/-- The title of a value's kind. -/
def title (v : Value) : String :=
  match v.kind? with
  | none => "NULL"
  | some kind => kind.title

/-- The number a value stands for, none for null and for lists. -/
def asDouble? : Value → Option Double
  | int n => some (.ofInt n)
  | float x => some x
  | _ => none

/-- The items of a list between brackets. -/
def renderList (items : List String) : String := "[" ++ String.intercalate ", " items ++ "]"

/-- A value as it is shown. -/
def render : Value → String
  | null => "null"
  | int n => toString n
  | float x => x.render
  | intList ns => renderList (ns.map toString)
  | floatList xs => renderList (xs.map Double.render)

end Value

end PagedGraph
