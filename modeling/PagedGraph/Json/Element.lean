import PagedGraph.Json.Settings
import PagedGraph.Similarity.Shortlist

/-!
# Elements as texts

Nodes, relationships, values and results can be given as JSON texts.  All their fields
have to be given, and unknown fields are skipped.

A value is its tag with its content, under the keys `type` and `value` in either order,
or as an array of the two.  Under a key the tag is a choice like any other.  In an array
it is a string.  Only under keys, and only for null, can the content be left out.
-/

namespace PagedGraph

open JsonReader

namespace Value

/-- What the tag of a value says: null, or one of the kinds. -/
def tags : List (Option ValueKind) :=
  [none, some .int, some .float, some .intList, some .floatList]

/-- The spelling of a tag. -/
def tagWord : Option ValueKind → String
  | none => "Null"
  | some kind => kind.name

/-- The value of a tag and a content. -/
def ofTagged? : Option ValueKind → Option JsonValue → Option Value
  | none, none => some .null
  | none, some .null => some .null
  | some .int, some v => (integer v).map .int
  | some .float, some v => (double v).map .float
  | some .intList, some v => (list integer v).map .intList
  | some .floatList, some v => (list double v).map .floatList
  | _, _ => none

/-- A value with its tag. -/
def ofJson? : JsonReader Value
  | .array [tag, content] => do
    let tag ← spelling tags tagWord tag
    ofTagged? tag (some content)
  | .object members => do
    let f ← fields false ["type", "value"] (.object members)
    let tag ← required f "type" (choice tags tagWord)
    ofTagged? tag ((f.lookup "value").bind id)
  | _ => none

end Value

/-- Properties from the members of an object. -/
def Properties.ofJson? : JsonReader Properties := fun v => (members Value.ofJson? v).map ofList

/-- A node with its labels and properties. -/
def Node.ofJson? : JsonReader Node := fun v => do
  let f ← fields false ["id", "labels", "properties"] v
  let id ← required f "id" word
  let labels ← required f "labels" (list text)
  let properties ← required f "properties" Properties.ofJson?
  pure { id, labels, properties }

/-- A relationship with its ends, its type and its properties. -/
def Relationship.ofJson? : JsonReader Relationship := fun v => do
  let f ← fields false ["src", "dst", "rel_type", "properties"] v
  let source ← required f "src" word
  let target ← required f "dst" word
  let type ← required f "rel_type" text
  let properties ← required f "properties" Properties.ofJson?
  pure { source, target, type, properties }

/-- A direction by its name. -/
def Direction.ofJson? : JsonReader Direction := choice all name

/-- A triangle by its corners. -/
def Triangle.ofJson? : JsonReader Triangle := fun v => do
  let f ← fields false ["a", "b", "c"] v
  let a ← required f "a" word
  let b ← required f "b" word
  let c ← required f "c" word
  pure { a, b, c }

/-- A pair of nodes with its score. -/
def SimilarPair.ofJson? : JsonReader SimilarPair := fun v => do
  let f ← fields false ["node1", "node2", "similarity"] v
  let left ← required f "node1" word
  let right ← required f "node2" word
  let score ← required f "similarity" double
  pure { left, right, score }

end PagedGraph
