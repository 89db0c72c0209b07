import PagedGraph.Numbering.Filter

/-!
# The labels of nodes

A numbering has the nodes of every label.  Asked for the labels of a node, it says the same as
when it is asked for the nodes of a label (`mem_labelsOf`, `of_nodesWith?_eq_some`), and a label is
known if some node has it (`knowsLabel_iff`).

What is numbered from an index of labels has the labels that the index has for its external ids
(`hasLabel_ofIndex`).  It does not depend on the order in which labels and their members came up
(`ofIndex_eq`).
-/

namespace PagedGraph

namespace Numbering

variable {m : Numbering} {node : Nat} {label : String}

/-! ## Nodes and labels -/

theorem nodup_labels (m : Numbering) : (names m.labelSets).Nodup :=
  m.labels_ascending.imp And.right

/-- The nodes of a label are ascending, and are those that have it. -/
theorem of_nodesWith?_eq_some {nodes : List Nat} (h : m.nodesWith? label = some nodes) :
    nodes.Pairwise (· < ·) ∧ ∀ node, node ∈ nodes ↔ m.hasLabel node label = true := by
  obtain ⟨set, hset, rfl⟩ := Option.map_eq_some_iff.mp h
  refine ⟨set.ascending, fun node => ?_⟩
  rw [hasLabel, hset, NodeSet.contains_iff]

theorem hasLabel_iff : m.hasLabel node label = true ↔
    ∃ nodes, m.nodesWith? label = some nodes ∧ node ∈ nodes := by
  constructor
  · intro h
    cases hnodes : m.nodesWith? label with
    | none =>
      rw [hasLabel, Option.map_eq_none_iff.mp hnodes] at h
      cases h
    | some nodes => exact ⟨nodes, rfl, ((of_nodesWith?_eq_some hnodes).2 node).mpr h⟩
  · rintro ⟨nodes, hnodes, hmem⟩
    exact ((of_nodesWith?_eq_some hnodes).2 node).mp hmem

/-- Only a node has labels. -/
theorem lt_of_hasLabel (h : m.hasLabel node label = true) : node < m.nodeCount := by
  obtain ⟨nodes, hnodes, hmem⟩ := hasLabel_iff.mp h
  obtain ⟨set, hset, rfl⟩ := Option.map_eq_some_iff.mp hnodes
  exact (m.labelSets_nodes _ (mem_of_lookup hset)).2 node hmem

theorem hasLabel_eq_false_of_le (h : m.nodeCount ≤ node) (label : String) :
    m.hasLabel node label = false :=
  Bool.eq_false_iff.mpr fun htrue => Nat.not_lt.mpr h (lt_of_hasLabel htrue)

/-- The labels of a node are those whose nodes it is among. -/
theorem mem_labelsOf : label ∈ m.labelsOf node ↔ m.hasLabel node label = true := by
  rw [labelsOf, mem_sortedNames, hasLabel_iff, names, List.mem_map]
  constructor
  · rintro ⟨⟨_, set⟩, hentry, rfl⟩
    obtain ⟨hentry, hnode⟩ := List.mem_filter.mp hentry
    have hset := (lookup_eq_some_iff m.nodup_labels).mpr hentry
    exact ⟨_, Option.map_eq_some_iff.mpr ⟨set, hset, rfl⟩, NodeSet.contains_iff.mp hnode⟩
  · rintro ⟨nodes, hnodes, hnode⟩
    obtain ⟨set, hset, rfl⟩ := Option.map_eq_some_iff.mp hnodes
    refine ⟨(label, set), List.mem_filter.mpr ⟨?_, NodeSet.contains_iff.mpr hnode⟩, rfl⟩
    exact (lookup_eq_some_iff m.nodup_labels).mp hset

theorem contains_labelsOf (m : Numbering) (node : Nat) (label : String) :
    (m.labelsOf node).contains label = m.hasLabel node label := by
  rw [Bool.eq_iff_iff, List.contains_iff_mem, mem_labelsOf]

/-- The labels of a node are sorted, and none is there twice. -/
theorem pairwise_labelsOf (m : Numbering) (node : Nat) :
    (m.labelsOf node).Pairwise fun a b => a ≤ b ∧ a ≠ b := pairwise_sortedNames _

/-- A label is known if some node has it. -/
theorem knowsLabel_iff : m.knowsLabel label = true ↔
    ∃ node < m.nodeCount, m.hasLabel node label = true := by
  rw [knowsLabel, Option.isSome_iff_exists]
  constructor
  · rintro ⟨nodes, hnodes⟩
    obtain ⟨set, hset, rfl⟩ := Option.map_eq_some_iff.mp hnodes
    obtain ⟨hne, hlt⟩ := m.labelSets_nodes _ (mem_of_lookup hset)
    obtain ⟨node, hnode⟩ := List.exists_mem_of_ne_nil _ hne
    exact ⟨node, hlt node hnode, hasLabel_iff.mpr ⟨_, hnodes, hnode⟩⟩
  · rintro ⟨node, -, hlabel⟩
    obtain ⟨nodes, hnodes, -⟩ := hasLabel_iff.mp hlabel
    exact ⟨nodes, hnodes⟩

/-- A label is unknown if and only if no nodes are listed for it. -/
theorem nodesWith?_eq_none_iff : m.nodesWith? label = none ↔ m.knowsLabel label = false := by
  rw [knowsLabel]
  cases m.nodesWith? label <;> simp

/-- The nodes with at least one of some labels are the nodes of all of them. -/
theorem mem_nodesWithAny {labels : List String} :
    node ∈ m.nodesWithAny labels ↔ ∃ label ∈ labels, m.hasLabel node label = true := by
  rw [nodesWithAny, mem_numberSet, List.mem_flatMap]
  refine exists_congr fun label => and_congr_right fun _ => ?_
  rw [hasLabel_iff]
  cases m.nodesWith? label <;> simp

/-! ## Labels of an index -/

section OfIndex

variable {identity : Nat} {ids : List Nat} {index : LabelIndex} {h : ids.Pairwise (· < ·)}
  {hlabels : LabelsAre index ids}

/-- A node has the labels that the index has for its external id. -/
theorem hasLabel_ofIndex : (ofIndex identity ids index h hlabels).hasLabel node label = true ↔
    ∃ external, ids[node]? = some external ∧ external ∈ index.members label := by
  have hget : ∀ {external}, (SparseTable.number 0 ids .empty).get? external = some node ↔
      ids[node]? = some external := by
    intro external
    have hinverse :=
      @internalOf?_eq_some_iff (ofIndex identity ids index h hlabels) external node
    simpa [internalOf?, externalOf?, ofIndex] using hinverse
  have hnames : names (ofIndex identity ids index h hlabels).labelSets =
      sortedNames (names index) := LabelIndex.names_translate ..
  rw [hasLabel_iff]
  constructor
  · rintro ⟨nodes, hnodes, hnode⟩
    obtain ⟨set, hset, rfl⟩ := Option.map_eq_some_iff.mp hnodes
    obtain ⟨own, -, heq⟩ := List.mem_map.mp (mem_of_lookup hset)
    cases heq
    obtain ⟨external, hmember, hexternal⟩ := List.mem_filterMap.mp (NodeSet.mem_ofList.mp hnode)
    exact ⟨external, hget.mp hexternal, hmember⟩
  · rintro ⟨external, hexternal, hmember⟩
    have hlabel : label ∈ names index := by
      refine mem_names_iff.mpr ?_
      cases hlookup : index.lookup label with
      | none => simp [LabelIndex.members, hlookup] at hmember
      | some members => exact ⟨members, rfl⟩
    have hset := (lookup_eq_some_iff (nodup_labels (ofIndex identity ids index h hlabels))).mpr
      (List.mem_map.mpr ⟨label, mem_sortedNames.mpr hlabel, rfl⟩)
    refine ⟨_, Option.map_eq_some_iff.mpr ⟨_, hset, rfl⟩, NodeSet.mem_ofList.mpr ?_⟩
    exact List.mem_filterMap.mpr ⟨external, hmember, hget.mpr hexternal⟩

/-- The order in which labels and their members came up makes no difference. -/
theorem ofIndex_eq {index' : LabelIndex}
    (hnames : ∀ label, label ∈ names index ↔ label ∈ names index')
    (hmembers : ∀ label external,
      external ∈ index.members label ↔ external ∈ index'.members label)
    (hlabels' : LabelsAre index' ids) :
    ofIndex identity ids index h hlabels = ofIndex identity ids index' h hlabels' := by
  have hsets := LabelIndex.translate_eq hnames hmembers (.number 0 ids .empty)
  simp only [ofIndex, hsets]

end OfIndex

end Numbering

end PagedGraph
