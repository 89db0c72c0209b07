import PagedGraph.Data.Named
import PagedGraph.Numbering.NodeSet
import PagedGraph.Numbering.SparseTable

/-!
# Nodes by label

Loaders give every node its labels.  A `LabelIndex` turns this round: it has for every
label the external ids of the nodes that were given it, the last first.
When the nodes have internal ids, `LabelIndex.translate` makes a set of nodes of the ids
of every label.  The sets are sorted by label, so that they do not depend on the order
in which labels came up.
-/

namespace PagedGraph

/-- A node to be given an internal id: its external id and its labels. -/
abbrev NodeEntry := Nat × List String

/-- External ids of nodes by label. -/
abbrev LabelIndex := List (String × List Nat)

namespace LabelIndex

/-- A node has a label. -/
def push (external : Nat) (index : LabelIndex) (label : String) : LabelIndex :=
  upsert label (fun members => external :: members.getD []) index

/-- A node has some labels. -/
def add (index : LabelIndex) (entry : NodeEntry) : LabelIndex :=
  entry.2.foldl (push entry.1) index

/-- The labels of some nodes. -/
def ofEntries (entries : List NodeEntry) : LabelIndex := entries.foldl add []

/-- The external ids that have a label. -/
def members (index : LabelIndex) (label : String) : List Nat := (index.lookup label).getD []

/-- The nodes of every label, of those external ids that have an internal id. -/
def translate (index : LabelIndex) (internalIds : SparseTable) : List (String × NodeSet) :=
  (sortedNames (names index)).map fun label =>
    (label, .ofList ((index.members label).filterMap internalIds.get?))

/-! ## Laws -/

theorem members_push (external : Nat) (index : LabelIndex) (label other : String) :
    (push external index label).members other =
      if other = label then external :: index.members other else index.members other := by
  rw [members, push]
  by_cases h : other = label
  · rw [if_pos h, h, lookup_upsert_self]
    rfl
  · rw [if_neg h, lookup_upsert_of_ne h]
    rfl

theorem mem_names_push {external : Nat} {index : LabelIndex} {label other : String} :
    other ∈ names (push external index label) ↔ other ∈ names index ∨ other = label := by
  rw [push, names_upsert]
  split
  · next h =>
    refine ⟨.inl, fun hother => hother.elim id fun heq => heq ▸ h⟩
  · simp

/-- A node becomes a member of the labels that it has. -/
theorem mem_members_add {index : LabelIndex} {entry : NodeEntry} {label : String}
    {external : Nat} : external ∈ (index.add entry).members label ↔
      external ∈ index.members label ∨ external = entry.1 ∧ label ∈ entry.2 := by
  obtain ⟨own, labels⟩ := entry
  rw [add]
  induction labels generalizing index with
  | nil => simp
  | cons first rest ih =>
    rw [List.foldl_cons, ih, members_push]
    by_cases h : label = first
    · simp only [h, if_true, List.mem_cons, true_or, and_true]
      refine ⟨fun hmem => ?_, fun hmem => ?_⟩
      · exact hmem.elim Or.symm fun hrest => .inr hrest.1
      · exact hmem.elim (fun hold => .inl (.inr hold)) fun hown => .inl (.inl hown)
    · simp [h]

theorem mem_names_add {index : LabelIndex} {entry : NodeEntry} {label : String} :
    label ∈ names (index.add entry) ↔ label ∈ names index ∨ label ∈ entry.2 := by
  obtain ⟨external, labels⟩ := entry
  rw [add]
  induction labels generalizing index with
  | nil => simp
  | cons first rest ih => rw [List.foldl_cons, ih, mem_names_push, List.mem_cons, or_assoc]

/-- The members of a label are the nodes that have it. -/
theorem mem_members_ofEntries {entries : List NodeEntry} {label : String} {external : Nat} :
    external ∈ (ofEntries entries).members label ↔
      ∃ entry ∈ entries, entry.1 = external ∧ label ∈ entry.2 := by
  have hfold : ∀ index : LabelIndex, external ∈ (entries.foldl add index).members label ↔
      external ∈ index.members label ∨
        ∃ entry ∈ entries, entry.1 = external ∧ label ∈ entry.2 := by
    induction entries with
    | nil => simp
    | cons entry rest ih =>
      intro index
      rw [List.foldl_cons, ih, mem_members_add, or_assoc]
      simp [eq_comm]
  exact (hfold []).trans (or_iff_right List.not_mem_nil)

/-- The labels are those that some node has. -/
theorem mem_names_ofEntries {entries : List NodeEntry} {label : String} :
    label ∈ names (ofEntries entries) ↔ ∃ entry ∈ entries, label ∈ entry.2 := by
  have hfold : ∀ index : LabelIndex, label ∈ names (entries.foldl add index) ↔
      label ∈ names index ∨ ∃ entry ∈ entries, label ∈ entry.2 := by
    induction entries with
    | nil => simp
    | cons entry rest ih =>
      intro index
      rw [List.foldl_cons, ih, mem_names_add, or_assoc]
      simp
  exact (hfold []).trans (or_iff_right (List.not_mem_nil))

theorem names_translate (index : LabelIndex) (internalIds : SparseTable) :
    names (index.translate internalIds) = sortedNames (names index) := by
  simp [translate, names, Function.comp_def]

/-- What is translated is told by the labels and by the members of each. -/
theorem translate_eq {index index' : LabelIndex}
    (hnames : ∀ label, label ∈ names index ↔ label ∈ names index')
    (hmembers : ∀ label external,
      external ∈ index.members label ↔ external ∈ index'.members label)
    (internalIds : SparseTable) : index.translate internalIds = index'.translate internalIds := by
  rw [translate, translate, sortedNames_eq hnames]
  refine List.map_congr_left fun label _ => congrArg (Prod.mk label) ?_
  exact NodeSet.ofList_eq fun node => by simp only [List.mem_filterMap, hmembers]

end LabelIndex

end PagedGraph
