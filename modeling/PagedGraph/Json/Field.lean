import PagedGraph.Json.Text
import PagedGraph.Data.Named

/-!
# Reading JSON values

A reader takes a JSON value to a value of the domain, or refuses it.

* Integers are read from integers in range.  Doubles are read from numbers that are not
  out of range, integers included.
* A choice is spelled by a string, or by an object whose only key is the spelling and
  whose value is null.
* A record is an object, or the array of its fields in order.  No field may be given
  twice.  Unknown members of a strict record are refused, and skipped otherwise.  An array
  may leave out fields at the end and may not have more items than fields.
-/

namespace PagedGraph

/-- What reads a parsed text, none where the text does not say it. -/
abbrev JsonReader (α : Type) := JsonValue → Option α

namespace JsonReader

/-- An integer from zero to a bound. -/
def natural (bound : Nat) : JsonReader Nat
  | .number (.natural n) => if n ≤ bound then some n else none
  | _ => none

/-- The largest 64 bit number without sign. -/
def maxWord : Nat := UInt64.size - 1

/-- An unsigned 64 bit integer. -/
def word : JsonReader Nat := natural maxWord

/-- An unsigned 32 bit integer. -/
def halfWord : JsonReader Nat := natural (UInt32.size - 1)

/-- A signed 64 bit integer. -/
def integer : JsonReader Int
  | .number (.natural n) => if n < 0x8000000000000000 then some n else none
  | .number (.negative n) => some (-n)
  | _ => none

/-- A number, rounded to a double. -/
def double : JsonReader Double
  | .number (.natural n) => some (.ofNat n)
  | .number (.negative n) => some (Double.ofNat n).neg
  | .number (.real x) => some x
  | _ => none

/-- A string. -/
def text : JsonReader String
  | .string s => s
  | _ => none

/-- True or false. -/
def bool : JsonReader Bool
  | .bool b => some b
  | _ => none

/-- Null, or what the given reader reads. -/
def nullable {α : Type} (read : JsonReader α) : JsonReader (Option α)
  | .null => some none
  | v => (read v).map some

/-- An array of what the given reader reads. -/
def list {α : Type} (read : JsonReader α) : JsonReader (List α)
  | .array items => items.mapM read
  | _ => none

/-- One of some choices, by a string that spells it. -/
def spelling {α : Type} (all : List α) (word : α → String) : JsonReader α
  | .string (some s) => all.find? fun a => word a = s
  | _ => none

/-- One of some choices, by a string that spells it or by an object with that string as its
only key and null as its value. -/
def choice {α : Type} (all : List α) (word : α → String) : JsonReader α
  | .object [(key, .null)] => spelling all word (.string key)
  | v => spelling all word v

/-- The values of some fields, none for those that were not given. -/
abbrev Fields := List (String × Option JsonValue)

/-- Take a member of an object into the fields. -/
def takeMember (strict : Bool) (fields : Fields) (member : Option String × JsonValue) :
    Option Fields :=
  match member.1 with
  | none => none
  | some key =>
    match fields.lookup key with
    | none => if strict then none else some fields
    | some (some _) => none
    | some none => some (upsert key (fun _ => some member.2) fields)

/-- Give the items of an array to fields in their order.  There may be fewer items than fields. -/
def takeItems : List String → List JsonValue → Option Fields
  | [], [] => some []
  | [], _ :: _ => none
  | name :: names, [] => (takeItems names []).map ((name, none) :: ·)
  | name :: names, item :: items => (takeItems names items).map ((name, some item) :: ·)

/-- The fields of a record. -/
def fields (strict : Bool) (names : List String) : JsonReader Fields
  | .object members => members.foldlM (takeMember strict) (names.map (·, none))
  | .array items => takeItems names items
  | _ => none

/-- A field that has to be given. -/
def required {α : Type} (fields : Fields) (name : String) (read : JsonReader α) : Option α :=
  match fields.lookup name with
  | some (some v) => read v
  | _ => none

/-- A field that has a default. -/
def optional {α : Type} (fields : Fields) (name : String) (read : JsonReader α) (default : α) :
    Option α :=
  match fields.lookup name with
  | some (some v) => read v
  | _ => some default

/-- The keys and values of an object whose keys are not fixed. -/
def members {α : Type} (read : JsonReader α) : JsonReader (List (String × α))
  | .object members => members.mapM fun (key, v) => do
    let key ← key
    let v ← read v
    pure (key, v)
  | _ => none

end JsonReader

end PagedGraph
