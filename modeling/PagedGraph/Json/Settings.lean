import PagedGraph.Json.Field
import PagedGraph.Load.Graph
import PagedGraph.Similarity.Settings
import PagedGraph.Triangle.Enumerate

/-!
# Settings as texts

All settings can be given as JSON texts.  Fields that are left out have their defaults
and unknown fields are refused, except in the entries of `properties`, where they are
skipped.  A text that is read is then validated.
-/

namespace PagedGraph

open JsonReader

/-- Parse a text and read it. -/
def readText {α : Type} (read : JsonReader α) (text : String) : Except GraphError α :=
  match (JsonValue.ofText? text).bind read with
  | some a => .ok a
  | none => .error .malformedText

/-- Read settings and check them. -/
def readSettings {α : Type} (read : JsonReader α) (validate : α → Except GraphError Unit)
    (text : String) : Except GraphError α := do
  let settings ← readText read text
  validate settings
  pure settings

/-- The settings of a load. -/
def LoadSettings.ofJson? : JsonReader LoadSettings := fun v => do
  let f ← fields true ["concurrency"] v
  let workers ← optional f "concurrency" word defaultWorkers
  pure { workers }

/-- The settings of a triangle search. -/
def TriangleSettings.ofJson? : JsonReader TriangleSettings := fun v => do
  let f ← fields true ["concurrency", "max_degree"] v
  let workers ← optional f "concurrency" word defaultWorkers
  let maxDegree ← optional f "max_degree" halfWord maxDegreeCutoff
  pure { workers, maxDegree }

/-- An aggregation by its spelling. -/
def Aggregation.ofJson? : JsonReader Aggregation := choice all word

/-- An orientation by its spelling. -/
def Orientation.ofJson? : JsonReader Orientation := choice all word

/-- What to do with self-loops, by its spelling. -/
def SelfLoops.ofJson? : JsonReader SelfLoops := choice all word

/-- A metric by its spelling. -/
def SetMetric.ofJson? : JsonReader SetMetric := choice all word

/-- How one property is stored. -/
def PropertyProjection.ofJson? : JsonReader PropertyProjection := fun v => do
  let f ← fields false ["key", "aggregation", "default_value"] v
  let key ← optional f "key" text ""
  let aggregation ← optional f "aggregation" Aggregation.ofJson? .unset
  let defaultValue ← optional f "default_value" double .nan
  pure { key, aggregation, defaultValue }

/-- How the relationships of a type are stored. -/
def Projection.ofJson? : JsonReader Projection := fun v => do
  let f ← fields true ["orientation", "aggregation", "properties", "index_inverse", "self_loops"] v
  let orientation ← optional f "orientation" Orientation.ofJson? .natural
  let aggregation ← optional f "aggregation" Aggregation.ofJson? .unset
  let properties ← optional f "properties" (list PropertyProjection.ofJson?) []
  let withInverse ← optional f "index_inverse" bool false
  let selfLoops ← optional f "self_loops" SelfLoops.ofJson? .keep
  pure { orientation, aggregation, properties, withInverse, selfLoops }

/-- The settings of a similarity run. -/
def SimilaritySettings.ofJson? : JsonReader SimilaritySettings := fun v => do
  let f ← fields true ["concurrency", "metric", "top_k", "bottom_k", "top_n", "bottom_n",
    "similarity_cutoff", "degree_cutoff", "upper_degree_cutoff"] v
  let workers ← optional f "concurrency" word defaultWorkers
  let metric ← optional f "metric" SetMetric.ofJson? .jaccard
  let topK ← optional f "top_k" (nullable integer) none
  let bottomK ← optional f "bottom_k" (nullable integer) none
  let topN ← optional f "top_n" (nullable integer) none
  let bottomN ← optional f "bottom_n" (nullable integer) none
  let scoreCutoff ← optional f "similarity_cutoff" double standardCutoff
  let degreeCutoff ← optional f "degree_cutoff" halfWord 1
  let upperDegreeCutoff ← optional f "upper_degree_cutoff" halfWord maxDegreeCutoff
  pure
    { workers, metric, topK, bottomK, topN, bottomN, scoreCutoff, degreeCutoff, upperDegreeCutoff }

/-- Read and check the settings of a load. -/
def LoadSettings.ofText : String → Except GraphError LoadSettings := readSettings ofJson? validate

/-- Read and check the settings of a triangle search. -/
def TriangleSettings.ofText : String → Except GraphError TriangleSettings :=
  readSettings ofJson? validate

/-- Read and check a projection. -/
def Projection.ofText : String → Except GraphError Projection := readSettings ofJson? validate

/-- Read and check the settings of a similarity run. -/
def SimilaritySettings.ofText : String → Except GraphError SimilaritySettings :=
  readSettings ofJson? validate

end PagedGraph
