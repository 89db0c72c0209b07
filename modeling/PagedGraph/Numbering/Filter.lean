import PagedGraph.Numbering.Basic

/-!
# Selecting nodes by label

`Numbering.filter` selects the nodes with at least one of some labels and numbers them
anew, again in ascending order.  The result is a `NodeFilter`: a numbering of its own,
in which every selected node has all its labels, and the correspondence of new and
old internal ids.  A label no selected node has is unknown in the new numbering.
-/

namespace PagedGraph

/-- Some nodes of a numbering, numbered anew. -/
structure NodeFilter where
  /-- The numbering of the selected nodes. -/
  numbering : Numbering
  /-- The old internal id of every selected node. -/
  oldIds : Array Nat
  /-- The new internal id by the old. -/
  newIds : SparseTable
  ascending : oldIds.toList.Pairwise (· < ·)
  newIds_get? : ∀ old, newIds.get? old = oldIds.toList.idxOf? old
  oldIds_size : oldIds.size = numbering.nodeCount

namespace NodeFilter

variable (f : NodeFilter)

/-- Number of selected nodes. -/
def nodeCount : Nat := f.oldIds.size

/-- The old internal id of a selected node. -/
def oldOf? (node : Nat) : Option Nat := f.oldIds[node]?

/-- The new internal id of a node, none when it is not selected. -/
def newOf? (old : Nat) : Option Nat := f.newIds.get? old

end NodeFilter

namespace Numbering

variable (m : Numbering)

/-- Nodes keep their order when they are named by their external ids. -/
theorem pairwise_externalIds {nodes : List Nat} (h : nodes.Pairwise (· < ·))
    (hlt : ∀ node ∈ nodes, node < m.nodeCount) :
    (nodes.map fun node => m.externalIds.getD node 0).Pairwise (· < ·) := by
  rw [List.pairwise_map]
  refine List.Pairwise.imp_of_mem (fun {a b} ha hb hab => ?_) h
  have ha' : a < m.externalIds.size := hlt a ha
  have hb' : b < m.externalIds.size := hlt b hb
  have := List.pairwise_iff_getElem.mp m.ascending a b (by simpa using ha') (by simpa using hb') hab
  simpa [Array.getD, ha', hb'] using this

/-- The first of some labels that no node has. -/
def unknownLabel? (labels : List String) : Option String :=
  labels.find? fun l => !m.knowsLabel l

/-- The nodes with at least one of some labels, ascending. -/
def nodesWithAny (labels : List String) : List Nat :=
  numberSet (labels.flatMap fun label => (m.nodesWith? label).getD [])

theorem pairwise_nodesWithAny (labels : List String) :
    (m.nodesWithAny labels).Pairwise (· < ·) := pairwise_numberSet _

theorem lt_of_mem_nodesWithAny {labels : List String} {node : Nat}
    (h : node ∈ m.nodesWithAny labels) : node < m.nodeCount := by
  obtain ⟨label, -, hnode⟩ := List.mem_flatMap.mp (mem_numberSet.mp h)
  cases hnodes : m.nodesWith? label with
  | none => simp [hnodes] at hnode
  | some nodes =>
    rw [hnodes, Option.getD_some] at hnode
    obtain ⟨set, hset, rfl⟩ := Option.map_eq_some_iff.mp hnodes
    exact (m.labelSets_nodes _ (mem_of_lookup hset)).2 node hnode

/-- The entries of the nodes with at least one of some labels. -/
def entriesWithAny (labels : List String) : List NodeEntry :=
  (m.nodesWithAny labels).map fun node => (m.externalIds.getD node 0, m.labelsOf node)

theorem pairwise_entriesWithAny (labels : List String) :
    ((m.entriesWithAny labels).map (·.1)).Pairwise (· < ·) := by
  have h := m.pairwise_externalIds (m.pairwise_nodesWithAny labels) fun _ =>
    m.lt_of_mem_nodesWithAny
  simpa [entriesWithAny, Function.comp_def] using h

/-- The selection of the nodes with at least one of some labels. -/
def select (identity : Nat) (labels : List String) : NodeFilter where
  numbering := ofAscending identity (m.entriesWithAny labels) (m.pairwise_entriesWithAny labels)
  oldIds := (m.nodesWithAny labels).toArray
  newIds := .number 0 (m.nodesWithAny labels) .empty
  ascending := m.pairwise_nodesWithAny labels
  newIds_get? := get?_number_empty (m.pairwise_nodesWithAny labels)
  oldIds_size := by simp [nodeCount, ofAscending, ofIndex, entriesWithAny]

instance : Inhabited NodeFilter := ⟨(empty 0).select 0 []⟩

/-- The nodes with at least one of some labels.  Fails at the first label no node has. -/
def filter (identity : Nat) (labels : List String) : Except GraphError NodeFilter :=
  match m.unknownLabel? labels with
  | some label => .error (.missing (.nodeLabel label))
  | none => .ok (m.select identity labels)

end Numbering

end PagedGraph
