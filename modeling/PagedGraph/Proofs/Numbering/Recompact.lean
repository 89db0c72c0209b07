import PagedGraph.Proofs.Numbering.Build

/-!
# Numbering selected nodes anew

A filter numbers the nodes with at least one of some labels twice.  The old ids are the selected
nodes in their order, and the numbering of the filter is made of their external ids, as if they
were the only nodes there ever were.  `NodeFilter.Recompacts` says that both are the same order,
so a new id means one node in both, and that this node keeps its external id and all its labels
(`Numbering.recompacts_select`).

What a filter gives is a numbering like any other and may be filtered again.  The same labels
select every node then (`NodeFilter.Recompacts.withSomeLabel_eq`), and other labels select among
the selected (`NodeFilter.Recompacts.exists_oldOf?_bind`).  The result is
`Numbering.filter_recompacts`.
-/

namespace PagedGraph

namespace Numbering

variable {m : Numbering}

/-- A node has at least one of some labels. -/
def HasSome (m : Numbering) (labels : List String) (node : Nat) : Prop :=
  ∃ label ∈ labels, m.hasLabel node label = true

theorem mem_withSomeLabel_iff {labels : List String} {node : Nat} :
    node ∈ m.withSomeLabel labels ↔ m.HasSome labels node := by
  rw [mem_withSomeLabel]
  exact and_iff_right_of_imp fun ⟨_, _, hlabel⟩ => lt_of_hasLabel hlabel

end Numbering

namespace NodeFilter

open PagedGraph.Numbering

/-- A filter selects the nodes of a numbering with at least one of some labels, and numbers them
anew in their order. -/
structure Recompacts (f : NodeFilter) (m : Numbering) (labels : List String) : Prop where
  nodeCount : f.numbering.nodeCount = f.nodeCount
  isSome_oldOf? : ∀ new, (f.oldOf? new).isSome ↔ new < f.nodeCount
  ascending : ∀ {i j x y}, i < j → f.oldOf? i = some x → f.oldOf? j = some y → x < y
  exists_oldOf?_iff : ∀ old, (∃ new, f.oldOf? new = some old) ↔ m.HasSome labels old
  newOf?_eq_some_iff : ∀ {old new}, f.newOf? old = some new ↔ f.oldOf? new = some old
  newOf?_eq_none_iff : ∀ old, f.newOf? old = none ↔ ¬ m.HasSome labels old
  externalOf? : ∀ {new old}, f.oldOf? new = some old →
    f.numbering.externalOf? new = m.externalOf? old
  internalOf? : ∀ external, f.numbering.internalOf? external =
    (m.internalOf? external).bind f.newOf?
  hasLabel : ∀ {new old}, f.oldOf? new = some old → ∀ label,
    f.numbering.hasLabel new label = m.hasLabel old label
  /-- The selected nodes are numbered so by themselves, in whatever order they are given. -/
  build : ∀ {entries : List NodeEntry},
    entries.Perm ((m.withSomeLabel labels).map fun node =>
      (m.externalIds.getD node 0, m.labelsOf node)) →
    Numbering.build f.numbering.identity entries = .ok f.numbering

end NodeFilter

namespace Numbering

variable {m : Numbering}

/-- An external id that is no node's is none of a selected node's. -/
theorem internalOf?_select_eq_none {identity : Nat} {labels : List String} {external : Nat}
    (h : m.internalOf? external = none) :
    (m.select identity labels).numbering.internalOf? external =
      none := by
  refine Option.eq_none_iff_forall_ne_some.mpr fun new hnew => ?_
  obtain ⟨old, -, hexternal⟩ :=
    exists_of_externalOf?_select ((internalOf?_eq_some_iff _).mp hnew)
  rw [(m.internalOf?_eq_some_iff).mpr hexternal] at h
  cases h

/-- The selection of the nodes with at least one of some labels numbers them anew. -/
theorem recompacts_select (identity : Nat) (labels : List String) :
    (m.select identity labels).Recompacts m labels := by
  have hselected : ∀ old, (∃ new,
      (m.select identity labels).oldOf? new = some old) ↔
        m.HasSome labels old := by
    intro old
    rw [← mem_withSomeLabel_iff, List.mem_iff_getElem?]
    exact exists_congr fun new => by rw [oldOf?_select]
  constructor
  case nodeCount => exact (NodeFilter.oldIds_size _).symm
  case isSome_oldOf? =>
    intro new
    rw [Option.isSome_iff_exists]
    exact ⟨fun ⟨_, hold⟩ => NodeFilter.lt_of_oldOf? hold, NodeFilter.exists_oldOf?⟩
  case ascending => exact fun hij hi hj => NodeFilter.oldOf?_lt hi hj hij
  case exists_oldOf?_iff => exact hselected
  case newOf?_eq_some_iff => exact NodeFilter.newOf?_eq_some_iff _
  case newOf?_eq_none_iff =>
    intro old
    rw [← hselected, Option.eq_none_iff_forall_ne_some, not_exists]
    exact forall_congr' fun new => not_congr (NodeFilter.newOf?_eq_some_iff _)
  case externalOf? =>
    intro new old hold
    exact externalOf?_select (oldOf?_select new ▸ hold)
  case internalOf? =>
    intro external
    cases hinternal : m.internalOf? external with
    | none => exact internalOf?_select_eq_none hinternal
    | some old => exact internalOf?_select hinternal
  case hasLabel =>
    intro new old hold label
    exact hasLabel_select (oldOf?_select new ▸ hold) label
  case build =>
    intro entries hperm
    rw [← nodesWithAny_eq] at hperm
    exact build_of_perm_ascending (m.pairwise_entriesWithAny labels) hperm

/-! ## Failing -/

/-- A label that is not known ends a filter.  The first of such labels is named. -/
theorem filter_eq_error_iff {identity : Nat} {labels : List String} {e : GraphError} :
    m.filter identity labels = .error e ↔ ∃ label, labels.find? (fun l => !m.knowsLabel l) =
      some label ∧ e = .missing (.nodeLabel label) := by
  rw [filter, unknownLabel?]
  split
  · next label hlabel => simp [hlabel, eq_comm]
  · next hnone => simp [hnone]

theorem exists_filter_eq_error_iff {identity : Nat} {labels : List String} :
    (∃ e, m.filter identity labels = .error e) ↔
      ∃ label ∈ labels, m.nodesWith? label = none := by
  simp only [filter_eq_error_iff, nodesWith?_eq_none_iff]
  rw [exists_comm]
  simp only [exists_and_left, exists_eq, and_true, ← Option.isSome_iff_exists, List.find?_isSome,
    Bool.not_eq_true']

/-- The selection is the only result a filter can have. -/
theorem eq_select_of_filter_eq_ok {identity : Nat} {labels : List String} {f : NodeFilter}
    (h : m.filter identity labels = .ok f) :
    f = m.select identity labels := by
  rw [filter] at h
  split at h
  · cases h
  · exact (Except.ok.inj h).symm

theorem exists_filter_eq_ok {labels : List String}
    (hknown : ∀ label ∈ labels, m.nodesWith? label ≠ none) (identity : Nat) :
    ∃ f, m.filter identity labels = .ok f ∧ f.Recompacts m labels := by
  have hknown' : ∀ label ∈ labels, m.knowsLabel label = true := fun label hlabel =>
    Bool.not_eq_false _ ▸ mt nodesWith?_eq_none_iff.mpr (hknown label hlabel)
  exact ⟨_, m.filter_eq_ok hknown' identity, recompacts_select identity labels⟩

end Numbering

/-! ## Selecting again -/

namespace NodeFilter.Recompacts

open PagedGraph.Numbering

variable {f f' : NodeFilter} {m : Numbering} {labels labels' : List String}

/-- The new numbering knows the labels that the selected nodes have. -/
theorem nodesWith?_ne_none_iff (h : f.Recompacts m labels) {label : String} :
    f.numbering.nodesWith? label ≠ none ↔
      ∃ old, m.HasSome labels old ∧ m.hasLabel old label = true := by
  rw [ne_eq, nodesWith?_eq_none_iff, Bool.not_eq_false, knowsLabel_iff]
  constructor
  · rintro ⟨new, hnew, hlabel⟩
    obtain ⟨old, hold⟩ := exists_oldOf? (h.nodeCount ▸ hnew)
    exact ⟨old, (h.exists_oldOf?_iff old).mp ⟨new, hold⟩, h.hasLabel hold label ▸ hlabel⟩
  · rintro ⟨old, hsome, hlabel⟩
    obtain ⟨new, hold⟩ := (h.exists_oldOf?_iff old).mpr hsome
    exact ⟨new, h.nodeCount ▸ lt_of_oldOf? hold, (h.hasLabel hold label).trans hlabel⟩

/-- The new numbering knows the labels that selected it, if the old one did. -/
theorem knows (h : f.Recompacts m labels) {label : String} (hlabel : label ∈ labels)
    (hknown : m.nodesWith? label ≠ none) : f.numbering.nodesWith? label ≠ none := by
  rw [ne_eq, nodesWith?_eq_none_iff, Bool.not_eq_false, knowsLabel_iff] at hknown
  obtain ⟨old, -, hold⟩ := hknown
  exact h.nodesWith?_ne_none_iff.mpr ⟨old, ⟨label, hlabel, hold⟩, hold⟩

/-- A selected node has one of some labels in the new numbering if it has in the old one. -/
theorem hasSome_iff (h : f.Recompacts m labels) {new old : Nat} (hold : f.oldOf? new = some old) :
    f.numbering.HasSome labels' new ↔ m.HasSome labels' old := by
  simp only [HasSome, h.hasLabel hold]

/-- Every node of the new numbering has one of the labels that selected it. -/
theorem withSomeLabel_eq (h : f.Recompacts m labels) :
    f.numbering.withSomeLabel labels = List.range f.nodeCount := by
  rw [withSomeLabel, h.nodeCount]
  refine List.filter_eq_self.mpr fun new hnew => ?_
  obtain ⟨old, hold⟩ := exists_oldOf? (f := f) (List.mem_range.mp hnew)
  rw [List.any_eq_true]
  exact (h.hasSome_iff hold).mpr ((h.exists_oldOf?_iff old).mp ⟨new, hold⟩)

/-- The nodes selected twice are those with a label of either list. -/
theorem exists_oldOf?_bind (h : f.Recompacts m labels) (h' : f'.Recompacts f.numbering labels')
    (old : Nat) : (∃ new, (f'.oldOf? new).bind f.oldOf? = some old) ↔
      m.HasSome labels old ∧ m.HasSome labels' old := by
  simp only [Option.bind_eq_some_iff]
  constructor
  · rintro ⟨new, node, hnode, hold⟩
    refine ⟨(h.exists_oldOf?_iff old).mp ⟨node, hold⟩, (h.hasSome_iff hold).mp ?_⟩
    exact (h'.exists_oldOf?_iff node).mp ⟨new, hnode⟩
  · rintro ⟨hsome, hsome'⟩
    obtain ⟨node, hold⟩ := (h.exists_oldOf?_iff old).mpr hsome
    obtain ⟨new, hnode⟩ := (h'.exists_oldOf?_iff node).mpr ((h.hasSome_iff hold).mpr hsome')
    exact ⟨new, node, hnode, hold⟩

end NodeFilter.Recompacts

namespace Numbering

/-- Of what a filter gave, the same labels select every node and leave it its id. -/
theorem exists_filter_again {f : NodeFilter} {m : Numbering} {labels : List String}
    (h : f.Recompacts m labels) (hknown : ∀ label ∈ labels, m.nodesWith? label ≠ none)
    (identity : Nat) :
    ∃ f', f.numbering.filter identity labels = .ok f' ∧ f'.nodeCount = f.nodeCount ∧
      ∀ node < f.nodeCount, f'.oldOf? node = some node ∧ f'.newOf? node = some node ∧
        f'.numbering.externalOf? node = f.numbering.externalOf? node ∧
        f'.numbering.hasLabel node = f.numbering.hasLabel node := by
  obtain ⟨f', hf', hagain⟩ :=
    exists_filter_eq_ok (fun label hlabel => h.knows hlabel (hknown label hlabel)) identity
  have hold : ∀ node, f'.oldOf? node = (List.range f.nodeCount)[node]? := fun node => by
    rw [eq_select_of_filter_eq_ok hf', oldOf?_select, h.withSomeLabel_eq]
  refine ⟨f', hf', ?_, fun node hnode => ?_⟩
  · have hids : f'.oldIds.toList = List.range f.nodeCount :=
      List.ext_getElem? fun node => Array.getElem?_toList.trans (hold node)
    rw [NodeFilter.nodeCount, ← Array.length_toList, hids, List.length_range]
  · have hself : f'.oldOf? node = some node := (hold node).trans (List.getElem?_range hnode)
    exact ⟨hself, hagain.newOf?_eq_some_iff.mpr hself, hagain.externalOf? hself,
      funext (hagain.hasLabel hself)⟩

/-- A filter by labels fails if and only if one of them is unknown, and then it names such a label.
Otherwise it selects the nodes with at least one of the labels and numbers them anew in their
order, with their external ids and all their labels.  Filtered again by the same labels, all nodes
stay and keep their ids.  Filtered by other labels that are known then, those stay that have a
label of either list. -/
theorem filter_recompacts (m : Numbering) (identity : Nat) (labels : List String) :
    ((∃ e, m.filter identity labels = .error e) ↔
      ∃ label ∈ labels, m.nodesWith? label = none) ∧
    (∀ {e}, m.filter identity labels = .error e → ∃ label ∈ labels,
      m.nodesWith? label = none ∧ e = .missing (.nodeLabel label)) ∧
    ∀ {f}, m.filter identity labels = .ok f → f.Recompacts m labels ∧
      (∀ other, ∃ f', f.numbering.filter other labels = .ok f' ∧ f'.nodeCount = f.nodeCount ∧
        ∀ node < f.nodeCount, f'.oldOf? node = some node ∧ f'.newOf? node = some node ∧
          f'.numbering.externalOf? node = f.numbering.externalOf? node ∧
          f'.numbering.hasLabel node = f.numbering.hasLabel node) ∧
      ∀ other {labels'}, (∀ label ∈ labels', f.numbering.nodesWith? label ≠ none) →
        ∃ f', f.numbering.filter other labels' = .ok f' ∧ f'.Recompacts f.numbering labels' ∧
          ∀ old, (∃ new, (f'.oldOf? new).bind f.oldOf? = some old) ↔
            m.HasSome labels old ∧ m.HasSome labels' old := by
  refine ⟨exists_filter_eq_error_iff, fun {e} he => ?_, fun {f} hf => ?_⟩
  · obtain ⟨label, hfind, rfl⟩ := filter_eq_error_iff.mp he
    have hunknown := List.find?_some hfind
    exact ⟨label, List.mem_of_find?_eq_some hfind,
      nodesWith?_eq_none_iff.mpr (by simpa using hunknown), rfl⟩
  · have h : f.Recompacts m labels :=
      eq_select_of_filter_eq_ok hf ▸ recompacts_select identity labels
    have hknown : ∀ label ∈ labels, m.nodesWith? label ≠ none := by
      intro label hlabel hnone
      obtain ⟨e, he⟩ := exists_filter_eq_error_iff.mpr ⟨label, hlabel, hnone⟩
      rw [hf] at he
      cases he
    refine ⟨h, exists_filter_again h hknown, fun other {labels'} hknown' => ?_⟩
    obtain ⟨f', hf', h'⟩ := exists_filter_eq_ok hknown' other
    exact ⟨f', hf', h', h.exists_oldOf?_bind h'⟩

/-- Two of three nodes are selected, then the one of them that has the other label.  A label none
of the three has is refused. -/
theorem filter_recompacts_twoOfThree : ∃ m f f',
    build 0 [(9, ["B", "A"]), (5, ["A"]), (7, [])] = .ok m ∧
    m.filter 1 ["A"] = .ok f ∧ f.Recompacts m ["A"] ∧
    f.numbering.filter 2 ["B"] = .ok f' ∧
    (∀ old, (∃ new, (f'.oldOf? new).bind f.oldOf? = some old) ↔
      m.HasSome ["A"] old ∧ m.HasSome ["B"] old) ∧
    m.filter 1 ["A", "C"] = .error (.missing (.nodeLabel "C")) := by
  have hnodup : ([(9, ["B", "A"]), (5, ["A"]), (7, [])].map (·.1) : List Nat).Nodup := by
    decide
  obtain ⟨m, hm⟩ := exists_build_eq_ok hnodup 0
  have hcarries := carries_of_build_eq_ok hm
  have hA : ∀ label ∈ ["A"], m.nodesWith? label ≠ none := by
    simp [hcarries.nodesWith?_eq_none]
  have hC : m.nodesWith? "C" = none := by simp [hcarries.nodesWith?_eq_none]
  obtain ⟨f, hf, -⟩ := exists_filter_eq_ok hA 1
  obtain ⟨-, -, hok⟩ := filter_recompacts m 1 ["A"]
  obtain ⟨h, -, hother⟩ := hok hf
  obtain ⟨node, hnode⟩ :=
    Option.isSome_iff_exists.mp ((hcarries.isSome_internalOf? 9).mpr (by decide))
  have hlabels : ∀ label ∈ ["B", "A"], m.hasLabel node label = true := fun label hlabel =>
    (hcarries.hasLabel node label).mpr ⟨_, List.mem_cons_self, hcarries.externalOf? hnode, hlabel⟩
  have hB : ∀ label ∈ ["B"], f.numbering.nodesWith? label ≠ none := by
    intro label hlabel
    obtain rfl := List.mem_singleton.mp hlabel
    exact h.nodesWith?_ne_none_iff.mpr
      ⟨node, ⟨"A", by decide, hlabels "A" (by decide)⟩, hlabels "B" (by decide)⟩
  obtain ⟨f', hf', -, hboth⟩ := hother 2 hB
  obtain ⟨hfails, hnames, -⟩ := filter_recompacts m 1 ["A", "C"]
  obtain ⟨e, he⟩ := hfails.mpr ⟨"C", by simp, hC⟩
  obtain ⟨label, hlabel, hunknown, rfl⟩ := hnames he
  obtain rfl : label = "C" := by
    rcases List.mem_cons.mp hlabel with rfl | hlabel
    · exact absurd hunknown (hA "A" (by decide))
    · exact List.mem_singleton.mp hlabel
  exact ⟨m, f, f', hm, hf, h, hf', hboth, he⟩

end Numbering

end PagedGraph
