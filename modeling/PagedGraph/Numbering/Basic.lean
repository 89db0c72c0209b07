import PagedGraph.Data.Named
import PagedGraph.Error
import PagedGraph.Number.Sum
import PagedGraph.Numbering.Labels

/-!
# Numberings

Loaders name nodes by external ids, which may be huge and far apart.  Storage
numbers them `0, 1, 2, …` in ascending order of the external ids: the internal ids.
A `Numbering` holds the correspondence and the nodes of every label.  Both directions
are monotone.  That is what keeps an ascending list of targets ascending when it is
renumbered.  `internalOf?_eq_some_iff` says that the two directions are inverse to each
other.

Two numberings made at different times are different even if they have the same
nodes.  They are told apart by `identity`, a number whoever makes one gives it.
-/

namespace PagedGraph

/-- External ids, internal ids and labels of some nodes. -/
structure Numbering where
  /-- The number this numbering is known by. -/
  identity : Nat
  /-- External ids by internal id. -/
  externalIds : Array Nat
  /-- Internal ids by external id. -/
  internalIds : SparseTable
  /-- The nodes of every label, sorted by label. -/
  labelSets : List (String × NodeSet)
  ascending : externalIds.toList.Pairwise (· < ·)
  internalIds_get? : ∀ external, internalIds.get? external = externalIds.toList.idxOf? external
  labels_ascending : (names labelSets).Pairwise fun a b => a ≤ b ∧ a ≠ b
  /-- A label has some nodes. -/
  labelSets_nodes : ∀ entry ∈ labelSets, entry.2.toList ≠ [] ∧
    ∀ node ∈ entry.2.toList, node < externalIds.size

namespace Numbering

/-- The first number that occurs twice in a row. -/
def firstRepeated : List Nat → Option Nat
  | x :: y :: rest => if x = y then some x else firstRepeated (y :: rest)
  | _ => none

/-- An ascending list in which no number occurs twice in a row is strictly ascending. -/
theorem ascending_of_firstRepeated_eq_none {ids : List Nat} (hle : ids.Pairwise (· ≤ ·))
    (h : firstRepeated ids = none) : ids.Pairwise (· < ·) := by
  induction ids with
  | nil => exact .nil
  | cons x rest ih =>
    cases rest with
    | nil => exact List.pairwise_singleton ..
    | cons y rest =>
      have hx := (List.pairwise_cons.mp hle).1
      simp only [firstRepeated] at h
      split at h
      · cases h
      · next hne =>
        have hlt := ih (List.pairwise_cons.mp hle).2 h
        refine List.pairwise_cons.mpr ⟨fun z hz => ?_, hlt⟩
        have hxy : x < y := Nat.lt_of_le_of_ne (hx y (List.mem_cons_self ..)) hne
        rcases List.mem_cons.mp hz with rfl | hz
        · exact hxy
        · exact Nat.lt_trans hxy ((List.pairwise_cons.mp hlt).1 z hz)

/-- Every label of an index has a member, and all members are some external ids. -/
def LabelsAre (index : LabelIndex) (ids : List Nat) : Prop :=
  ∀ label ∈ names index, index.members label ≠ [] ∧ ∀ id ∈ index.members label, id ∈ ids

theorem labelsAre_ofEntries (entries : List NodeEntry) :
    LabelsAre (.ofEntries entries) (entries.map (·.1)) := by
  refine fun label hlabel => ⟨?_, fun id hid => ?_⟩
  · obtain ⟨entry, hentry, hlabel⟩ := LabelIndex.mem_names_ofEntries.mp hlabel
    exact List.ne_nil_of_mem (LabelIndex.mem_members_ofEntries.mpr ⟨entry, hentry, rfl, hlabel⟩)
  · obtain ⟨entry, hentry, rfl, -⟩ := LabelIndex.mem_members_ofEntries.mp hid
    exact List.mem_map_of_mem hentry

/-- An external id that is numbered has its place as internal id. -/
theorem get?_number_empty {ids : List Nat} (h : ids.Pairwise (· < ·)) (external : Nat) :
    (SparseTable.number 0 ids .empty).get? external = ids.idxOf? external := by
  rw [SparseTable.get?_number (nodup_of_ascending h)]
  simp

/-- The numbering of ascending external ids, with the labels of an index. -/
def ofIndex (identity : Nat) (ids : List Nat) (index : LabelIndex) (h : ids.Pairwise (· < ·))
    (hlabels : LabelsAre index ids) : Numbering where
  identity := identity
  externalIds := ids.toArray
  internalIds := .number 0 ids .empty
  labelSets := index.translate (.number 0 ids .empty)
  ascending := h
  internalIds_get? := get?_number_empty h
  labels_ascending := by
    rw [LabelIndex.names_translate]
    exact pairwise_sortedNames _
  labelSets_nodes entry hentry := by
    obtain ⟨label, hlabel, rfl⟩ := List.mem_map.mp hentry
    obtain ⟨hne, hmembers⟩ := hlabels label (mem_sortedNames.mp hlabel)
    refine ⟨?_, fun node hnode => ?_⟩
    · obtain ⟨id, hid⟩ := List.exists_mem_of_ne_nil _ hne
      obtain ⟨node, hnode⟩ := Option.isSome_iff_exists.mp (List.isSome_idxOf?.mpr (hmembers id hid))
      have hget := (get?_number_empty h id).trans hnode
      exact List.ne_nil_of_mem (NodeSet.mem_ofList.mpr (List.mem_filterMap.mpr ⟨id, hid, hget⟩))
    · obtain ⟨id, -, hid⟩ := List.mem_filterMap.mp (NodeSet.mem_ofList.mp hnode)
      rw [get?_number_empty h] at hid
      obtain ⟨hlt, -⟩ := List.idxOf?_eq_some_iff.mp hid
      simpa using hlt

/-- The numbering of entries with ascending external ids. -/
def ofAscending (identity : Nat) (entries : List NodeEntry)
    (h : (entries.map (·.1)).Pairwise (· < ·)) : Numbering :=
  ofIndex identity (entries.map (·.1)) (.ofEntries entries) h (labelsAre_ofEntries entries)

/-- The numbering of no nodes. -/
def empty (identity : Nat) : Numbering := ofAscending identity [] .nil

instance : Inhabited Numbering := ⟨empty 0⟩

/-- External ids in ascending order. -/
def sortIds (ids : List Nat) : List Nat := ids.mergeSort (· ≤ ·)

theorem pairwise_sortIds (ids : List Nat) : (sortIds ids).Pairwise (· ≤ ·) :=
  pairwise_mergeSort ids

theorem labelsAre_sortIds (entries : List NodeEntry) :
    LabelsAre (.ofEntries entries) (sortIds (entries.map (·.1))) := by
  intro label hlabel
  obtain ⟨hne, hmembers⟩ := labelsAre_ofEntries entries label hlabel
  exact ⟨hne, fun id hid => List.mem_mergeSort.mpr (hmembers id hid)⟩

/-- The numbering of some nodes, given in any order.  Fails when an external id is given
twice, and names the smallest such id. -/
def build (identity : Nat) (entries : List NodeEntry) : Except GraphError Numbering :=
  match h : firstRepeated (sortIds (entries.map (·.1))) with
  | some id => .error (.repeatedNode id)
  | none =>
    .ok (ofIndex identity (sortIds (entries.map (·.1))) (.ofEntries entries)
      (ascending_of_firstRepeated_eq_none (pairwise_sortIds _) h) (labelsAre_sortIds entries))

variable (m : Numbering)

/-- Number of nodes. -/
def nodeCount : Nat := m.externalIds.size

/-- The internal id of a node. -/
def internalOf? (external : Nat) : Option Nat := m.internalIds.get? external

/-- The external id of a node, none for an id that is not below the node count. -/
def externalOf? (internal : Nat) : Option Nat := m.externalIds[internal]?

/-- Whether a node has an external id. -/
def contains (external : Nat) : Bool := m.internalIds.contains external

/-- The largest external id. -/
def highestExternal? : Option Nat := m.externalIds.back?

/-- Whether a node has a label.  An id that is no node's has none. -/
def hasLabel (internal : Nat) (label : String) : Bool :=
  match m.labelSets.lookup label with
  | some nodes => nodes.contains internal
  | none => false

/-- The labels of a node, sorted. -/
def labelsOf (internal : Nat) : List String :=
  sortedNames (names (m.labelSets.filter fun entry => entry.2.contains internal))

/-- The labels that some node has, sorted. -/
def allLabels : List String := names m.labelSets

/-- The nodes with a label, ascending.  None when no node has it. -/
def nodesWith? (label : String) : Option (List Nat) := (m.labelSets.lookup label).map (·.toList)

/-- Whether some node has a label. -/
def knowsLabel (label : String) : Bool := (m.nodesWith? label).isSome

/-- The external id of an internal id is one whose internal id that is. -/
theorem internalOf?_eq_some_iff {external internal : Nat} :
    m.internalOf? external = some internal ↔ m.externalOf? internal = some external := by
  rw [internalOf?, m.internalIds_get?, externalOf?, List.idxOf?_eq_some_iff]
  constructor
  · rintro ⟨hlt, heq, _⟩
    have hlt' : internal < m.externalIds.size := by simpa using hlt
    rw [Array.getElem?_eq_getElem hlt']
    simpa using heq
  · intro h
    obtain ⟨hlt, heq⟩ := Array.getElem?_eq_some_iff.mp h
    have hlt' : internal < m.externalIds.toList.length := by simpa using hlt
    refine ⟨hlt', by simpa using heq, fun j hj he => ?_⟩
    have := List.pairwise_iff_getElem.mp m.ascending j internal (Nat.lt_trans hj hlt') hlt' hj
    simp only [Array.getElem_toList] at this he
    omega

/-! ## Memory -/

/-- Bytes of the tables and of the set of every label, when a set takes `setBytes`. -/
def byteSize (setBytes : List Nat → Nat) : Nat :=
  8 * m.nodeCount + m.internalIds.byteSize +
    addUp (m.labelSets.map fun entry => setBytes entry.2.toList)

end Numbering

end PagedGraph
