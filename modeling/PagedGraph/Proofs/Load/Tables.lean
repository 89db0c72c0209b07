import PagedGraph.Adjacency.Basic
import PagedGraph.Proofs.Cursor.Run
import PagedGraph.Proofs.Load.Sizes

/-!
# Tables of rows

`Adjacency.Stores t n targets` says what an adjacency holds for each of its `n` nodes,
and `ValueTable.Stores` the same of a property.  Tables with the runs of arranged rows
store what the rows say (`Adjacency.LaysRows.stores`, `ValueTable.stores_of_lays`), however
the rows are cut into shards and wherever the runs lie.
-/

namespace PagedGraph

theorem addUp_map_length_flatten {α : Type} (lists : List (List (List α))) :
    addUp (lists.map fun list => addUp (list.map List.length)) =
      addUp (lists.flatten.map List.length) := by
  induction lists with
  | nil => rfl
  | cons list lists ih =>
    rw [List.map_cons, addUp_cons, ih, List.flatten_cons, List.map_append, addUp_append]

/-- The runs of the nodes of all shards, in order. -/
theorem flatten_map_map {α β : Type} (f : α → β) (shards : List (List α)) :
    (shards.map fun nodes => nodes.map f).flatten = shards.flatten.map f := by
  rw [List.map_flatten]

/-- What a function gives for the nodes of all shards, at one of them. -/
theorem getElem?_of_flatten_eq {α : Type} {shards : List (List α)} {n : Nat} {f : Nat → α}
    (h : shards.flatten = (List.range n).map f) {node : Nat} (hnode : node < n) :
    shards.flatten[node]? = some (f node) := by
  simp [h, hnode]

theorem length_of_flatten_eq {α : Type} {shards : List (List α)} {n : Nat} {f : Nat → α}
    (h : shards.flatten = (List.range n).map f) : shards.flatten.length = n := by
  simp [h]

theorem targetRun_eq_nil {targets : List Nat} : targetRun targets = [] ↔ targets = [] := by
  rw [targetRun]
  split
  · next h => simpa using h
  · next h =>
    have hne : littleEndian degreeHeader targets.length ++ Leb128.encodeDeltas targets ≠ [] := by
      refine List.append_ne_nil_of_left_ne_nil (List.ne_nil_of_length_pos ?_) _
      rw [length_littleEndian]
      decide
    simpa [hne] using h

theorem valueRun_eq_nil {values : List Double} : valueRun values = [] ↔ values = [] := by
  rw [← List.length_eq_zero_iff, PageTable.length_valueRun, ← List.length_eq_zero_iff]
  omega

/-! ## Adjacencies -/

namespace Adjacency

/-- What an adjacency holds for its nodes. -/
structure Stores (t : Adjacency) (n : Nat) (targets : Nat → List Nat) : Prop where
  nodeCount : t.nodeCount = n
  reads : ∀ {node}, node < n → (t.openRun node).Reads (targets node)
  degree : ∀ {node}, node < n → t.degree node = (targets node).length
  /-- A degree is a word. -/
  fits : ∀ {node}, node < n → (targets node).length < UInt32.size
  offset : ∀ {node}, node < n → (t.offset node = 0 ↔ targets node = [])
  relationshipCount : t.relationshipCount = addUp ((List.range n).map fun u => (targets u).length)

variable {t : Adjacency} {n : Nat} {targets : Nat → List Nat}

theorem Stores.targets_eq (h : t.Stores n targets) {node : Nat} (hnode : node < n) :
    t.targets node = targets node :=
  walks_runCursor.toList_eq (h.reads hnode)

/-- The relationships are the targets of all nodes. -/
theorem Stores.addUp_degrees (h : t.Stores n targets) :
    t.relationshipCount = addUp ((List.range n).map t.degree) := by
  rw [h.relationshipCount]
  exact congrArg addUp (List.map_congr_left fun node hnode =>
    (h.degree (List.mem_range.mp hnode)).symm)

/-- An adjacency with the runs of some rows, wherever these lie. -/
structure LaysRows (t : Adjacency) (isUndirected : Bool) (shards : List (List (List Row))) :
    Prop where
  runs : t.toRunTable.Lays (targetRuns shards)
  relationshipCount : t.relationshipCount = (ofRows isUndirected shards).relationshipCount
  isUndirected : t.isUndirected = isUndirected

theorem laysRows_ofRows (isUndirected : Bool) (shards : List (List (List Row))) :
    (ofRows isUndirected shards).LaysRows isUndirected shards :=
  ⟨RunTable.lays_ofShards _, rfl, rfl⟩

theorem LaysRows.relationshipCount_eq {isUndirected : Bool} {shards : List (List (List Row))}
    (h : t.LaysRows isUndirected shards) :
    t.relationshipCount = addUp (shards.flatten.map List.length) :=
  h.relationshipCount.trans (addUp_map_length_flatten shards)

/-- An adjacency of rows that stand node after node stores their targets. -/
theorem LaysRows.stores {isUndirected : Bool} {shards : List (List (List Row))}
    (h : t.LaysRows isUndirected shards) {rows : Nat → List Row}
    (hflat : shards.flatten = (List.range n).map rows)
    (hascending : ∀ node < n, ((rows node).map Row.target).Pairwise (· ≤ ·))
    (hfit : ∀ node < n, (rows node).length < UInt32.size) :
    t.Stores n fun node => (rows node).map Row.target := by
  have hruns : (targetRuns shards).flatten =
      (List.range n).map fun node => targetRun ((rows node).map Row.target) := by
    rw [targetRuns, flatten_map_map, hflat, List.map_map]
    rfl
  have hholds : ∀ {node}, node < n →
      t.toRunTable.Holds node (targetRun ((rows node).map Row.target)) :=
    fun hnode => h.runs.holds (getElem?_of_flatten_eq hruns hnode)
  have hfit' : ∀ {node}, node < n → ((rows node).map Row.target).length < UInt32.size := by
    intro node hnode
    rw [List.length_map]
    exact hfit node hnode
  constructor
  case nodeCount =>
    exact h.runs.size_offsets.trans (length_of_flatten_eq hruns)
  case reads =>
    intro node hnode
    rw [openRun]
    rcases hholds hnode with ⟨hnil, hzero⟩ | ⟨hne, hpos, hrun⟩
    · rw [hzero, targetRun_eq_nil.mp hnil]
      exact PageTable.reads_openRun_zero
    · exact PageTable.reads_openRun hpos (mt targetRun_eq_nil.mpr hne) hrun (hfit' hnode)
        (hascending node hnode)
  case degree =>
    intro node hnode
    rw [degree]
    rcases hholds hnode with ⟨hnil, hzero⟩ | ⟨hne, hpos, hrun⟩
    · rw [hzero, targetRun_eq_nil.mp hnil]
      rfl
    · exact PageTable.degree_targetRun hpos (mt targetRun_eq_nil.mpr hne) hrun (hfit' hnode)
  case fits => exact hfit'
  case offset =>
    intro node hnode
    rcases hholds hnode with ⟨hnil, hzero⟩ | ⟨hne, hpos, -⟩
    · exact iff_of_true hzero (targetRun_eq_nil.mp hnil)
    · exact iff_of_false hpos (mt targetRun_eq_nil.mpr hne)
  case relationshipCount =>
    rw [h.relationshipCount_eq, hflat, List.map_map]
    simp [Function.comp_def]

end Adjacency

/-! ## Properties -/

namespace ValueTable

/-- A property gives each node its values, one for each target. -/
def Stores (s : ValueTable) (n : Nat) (values : Nat → List Double) : Prop :=
  ∀ {node}, node < n → (s.openValues node (values node).length).toList = values node

/-- A property of rows that stand node after node stores their values. -/
theorem stores_of_lays {s : ValueTable} {column n : Nat} {shards : List (List (List Row))}
    (h : s.toRunTable.Lays (columnRuns column shards)) {rows : Nat → List Row}
    (hflat : shards.flatten = (List.range n).map rows) :
    s.Stores n fun node => Row.column column (rows node) := by
  have hruns : (columnRuns column shards).flatten =
      (List.range n).map fun node => valueRun (Row.column column (rows node)) := by
    rw [columnRuns, flatten_map_map, hflat, List.map_map]
    rfl
  intro node hnode
  rw [openValues]
  rcases h.holds (getElem?_of_flatten_eq hruns hnode) with
    ⟨hnil, -⟩ | ⟨hne, hpos, hrun⟩
  · have hvalues : Row.column column (rows node) = [] := valueRun_eq_nil.mp hnil
    simp only [hvalues, List.length_nil, PageTable.openValues_zero]
    rfl
  · exact PageTable.toList_openValues hpos (mt valueRun_eq_nil.mpr hne) hrun

end ValueTable

end PagedGraph
