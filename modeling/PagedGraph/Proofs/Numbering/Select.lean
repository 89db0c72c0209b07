import Mathlib.Data.List.Nodup
import PagedGraph.Number.Ascending
import PagedGraph.Proofs.Numbering.Filter
import PagedGraph.Proofs.Numbering.Labels

/-!
# Selecting nodes before and after numbering

`Numbering.Numbers m entries` says that `m` numbers just these entries, each with its
labels.  Numberings of the same entries are the same up to their identity, because
external ids ascend (`Numbers.externalIds_eq`, `Numbers.hasLabel_eq`).

A filter by labels numbers the entries that have one of the labels (`Numbers.select`).
So it makes no difference whether nodes are selected before they are numbered or after.
-/

namespace PagedGraph

namespace Numbering

variable (m : Numbering)

/-- The nodes that have at least one of some labels, ascending. -/
def withSomeLabel (labels : List String) : List Nat :=
  (List.range m.nodeCount).filter fun node => labels.any fun label => m.hasLabel node label

theorem mem_withSomeLabel {labels : List String} {node : Nat} :
    node ∈ m.withSomeLabel labels ↔
      node < m.nodeCount ∧ ∃ label ∈ labels, m.hasLabel node label = true := by
  rw [withSomeLabel, List.mem_filter, List.mem_range, List.any_eq_true]

theorem nodesWithAny_eq (labels : List String) :
    m.nodesWithAny labels = m.withSomeLabel labels := by
  refine eq_of_ascending (m.pairwise_nodesWithAny labels)
    (List.Pairwise.filter _ List.pairwise_lt_range) fun node => ?_
  rw [mem_nodesWithAny, mem_withSomeLabel]
  exact (and_iff_right_of_imp fun ⟨_, _, hlabel⟩ => lt_of_hasLabel hlabel).symm

variable {m}

/-! ## Entries -/

/-- A numbering of some entries. -/
structure Numbers (m : Numbering) (entries : List NodeEntry) : Prop where
  exists_iff : ∀ {external}, (∃ node, m.externalOf? node = some external) ↔
    external ∈ entries.map (·.1)
  hasLabel : ∀ {entry node}, entry ∈ entries → m.externalOf? node = some entry.1 →
    ∀ label, m.hasLabel node label = entry.2.contains label

/-- A strictly ascending list of numbers repeats none in a row. -/
theorem firstRepeated_eq_none_of_ascending {ids : List Nat} (h : ids.Pairwise (· < ·)) :
    firstRepeated ids = none := by
  induction ids with
  | nil => rfl
  | cons x rest ih =>
    obtain ⟨hx, hrest⟩ := List.pairwise_cons.mp h
    cases rest with
    | nil => rfl
    | cons y rest =>
      rw [firstRepeated, if_neg (Nat.ne_of_lt (hx y (List.mem_cons_self ..)))]
      exact ih hrest

theorem sortIds_perm (ids : List Nat) : (sortIds ids).Perm ids := List.mergeSort_perm ..

/-- Entries are numbered if and only if their external ids are all different. -/
theorem build_eq_ok_iff {identity : Nat} {entries : List NodeEntry} {m : Numbering} :
    build identity entries = .ok m ↔ ∃ h : (sortIds (entries.map (·.1))).Pairwise (· < ·),
      m = ofIndex identity (sortIds (entries.map (·.1))) (.ofEntries entries) h
        (labelsAre_sortIds entries) := by
  rw [build]
  split
  · next id hid =>
    constructor
    · nofun
    · rintro ⟨h, -⟩
      rw [firstRepeated_eq_none_of_ascending h] at hid
      cases hid
  · next hnone =>
    constructor
    · intro h
      exact ⟨_, (Except.ok.inj h).symm⟩
    · rintro ⟨h, rfl⟩
      rfl

theorem nodup_of_build_eq_ok {identity : Nat} {entries : List NodeEntry}
    (h : build identity entries = .ok m) : (entries.map (·.1)).Nodup := by
  obtain ⟨hascending, -⟩ := build_eq_ok_iff.mp h
  exact (sortIds_perm _).nodup_iff.mp (nodup_of_ascending hascending)

theorem exists_build_eq_ok {entries : List NodeEntry} (h : (entries.map (·.1)).Nodup)
    (identity : Nat) : ∃ m, build identity entries = .ok m := by
  have hnodup := (sortIds_perm _).nodup_iff.mpr h
  exact ⟨_, build_eq_ok_iff.mpr ⟨ascending_of_nodup (pairwise_sortIds _) hnodup, rfl⟩⟩

/-- Entries in another order have the same labels. -/
theorem ofIndex_eq_of_perm {identity : Nat} {ids : List Nat} {entries entries' : List NodeEntry}
    (hperm : entries.Perm entries') (h : ids.Pairwise (· < ·))
    (hlabels : LabelsAre (.ofEntries entries) ids)
    (hlabels' : LabelsAre (.ofEntries entries') ids) :
    ofIndex identity ids (.ofEntries entries) h hlabels =
      ofIndex identity ids (.ofEntries entries') h hlabels' := by
  refine ofIndex_eq (fun label => ?_) (fun label external => ?_) hlabels'
  · simp only [LabelIndex.mem_names_ofEntries, hperm.mem_iff]
  · simp only [LabelIndex.mem_members_ofEntries, hperm.mem_iff]

/-- Entries in another order, whose external ids are sorted alike. -/
theorem build_of_perm {identity : Nat} {ids : List Nat} {entries entries' : List NodeEntry}
    (hperm : entries.Perm entries') (hids : sortIds (entries'.map (·.1)) = ids)
    (h : ids.Pairwise (· < ·)) (hlabels : LabelsAre (.ofEntries entries) ids) :
    build identity entries' = .ok (ofIndex identity ids (.ofEntries entries) h hlabels) := by
  subst hids
  exact build_eq_ok_iff.mpr ⟨h, ofIndex_eq_of_perm hperm h hlabels (labelsAre_sortIds entries')⟩

/-- Entries are numbered alike in any order. -/
theorem build_eq_of_perm {identity : Nat} {entries entries' : List NodeEntry} {m : Numbering}
    (h : build identity entries = .ok m) (hperm : entries.Perm entries') (other : Nat) :
    build other entries' = .ok { m with identity := other } := by
  obtain ⟨hascending, rfl⟩ := build_eq_ok_iff.mp h
  have hids : sortIds (entries'.map (·.1)) = sortIds (entries.map (·.1)) :=
    mergeSort_eq_of_perm (hperm.symm.map _)
  exact build_of_perm hperm hids hascending (labelsAre_sortIds entries)

/-- Ascending entries, shuffled, are numbered as they were. -/
theorem build_of_perm_ascending {identity : Nat} {entries entries' : List NodeEntry}
    (h : (entries.map (·.1)).Pairwise (· < ·)) (hperm : entries'.Perm entries) :
    build identity entries' = .ok (ofAscending identity entries h) := by
  have hids : sortIds (entries'.map (·.1)) = entries.map (·.1) :=
    eq_of_perm (pairwise_sortIds _) (h.imp Nat.le_of_lt)
      ((sortIds_perm _).trans (hperm.map _))
  exact build_of_perm hperm.symm hids h (labelsAre_ofEntries entries)

/-- A node has the labels of its entry. -/
theorem hasLabel_ofEntries {identity : Nat} {ids : List Nat} {entries : List NodeEntry}
    {h : ids.Pairwise (· < ·)} {hlabels : LabelsAre (.ofEntries entries) ids}
    (hnodup : (entries.map (·.1)).Nodup) {entry : NodeEntry} (hentry : entry ∈ entries)
    {node : Nat} (hnode : ids[node]? = some entry.1) (label : String) :
    (ofIndex identity ids (.ofEntries entries) h hlabels).hasLabel node label =
      entry.2.contains label := by
  rw [Bool.eq_iff_iff, hasLabel_ofIndex, List.contains_iff_mem]
  constructor
  · rintro ⟨external, hexternal, hmember⟩
    obtain ⟨other, hother, rfl, hlabel⟩ := LabelIndex.mem_members_ofEntries.mp hmember
    rw [hnode] at hexternal
    rwa [List.inj_on_of_nodup_map hnodup hentry hother (Option.some.inj hexternal)]
  · intro hlabel
    exact ⟨_, hnode, LabelIndex.mem_members_ofEntries.mpr ⟨entry, hentry, rfl, hlabel⟩⟩

theorem hasLabel_ofAscending {identity : Nat} {entries : List NodeEntry}
    (h : (entries.map (·.1)).Pairwise (· < ·)) {node : Nat} {entry : NodeEntry}
    (hentry : entries[node]? = some entry) (label : String) :
    (ofAscending identity entries h).hasLabel node label = entry.2.contains label :=
  hasLabel_ofEntries (nodup_of_ascending h) (List.mem_of_getElem? hentry)
    (by rw [List.getElem?_map, hentry]; rfl) label

/-- The nodes with one of some labels are the places of the entries with one of them. -/
theorem withSomeLabel_ofAscending {identity : Nat} {entries : List NodeEntry}
    (h : (entries.map (·.1)).Pairwise (· < ·)) (labels : List String) :
    (ofAscending identity entries h).withSomeLabel labels =
      (List.range entries.length).filter fun node =>
        entries[node]?.any fun entry => labels.any entry.2.contains := by
  have hcount : (ofAscending identity entries h).nodeCount = entries.length := by
    simp [nodeCount, ofAscending, ofIndex]
  rw [withSomeLabel, hcount]
  refine List.filter_congr fun node hnode => ?_
  rw [List.getElem?_eq_getElem (List.mem_range.mp hnode), Option.any_some]
  refine congrArg labels.any (funext fun label => ?_)
  exact hasLabel_ofAscending h (List.getElem?_eq_getElem (List.mem_range.mp hnode)) label

/-- The labels of entries are known. -/
theorem knowsLabel_ofAscending {identity : Nat} {entries : List NodeEntry}
    (h : (entries.map (·.1)).Pairwise (· < ·)) {entry : NodeEntry} (hentry : entry ∈ entries)
    {label : String} (hlabel : label ∈ entry.2) :
    (ofAscending identity entries h).knowsLabel label = true := by
  obtain ⟨node, hnode⟩ := List.mem_iff_getElem?.mp hentry
  have hhas : (ofAscending identity entries h).hasLabel node label = true :=
    (hasLabel_ofAscending h hnode label).trans (List.contains_iff_mem.mpr hlabel)
  exact knowsLabel_iff.mpr ⟨node, lt_of_hasLabel hhas, hhas⟩

/-- Numbering entries numbers them. -/
theorem numbers_of_build_eq_ok {identity : Nat} {entries : List NodeEntry}
    (h : build identity entries = .ok m) : m.Numbers entries := by
  have hnodup := nodup_of_build_eq_ok h
  obtain ⟨hascending, rfl⟩ := build_eq_ok_iff.mp h
  have hexternal : ∀ node, externalOf? (ofIndex identity (sortIds (entries.map (·.1)))
      (.ofEntries entries) hascending (labelsAre_sortIds entries)) node =
        (sortIds (entries.map (·.1)))[node]? := fun node => by simp [externalOf?, ofIndex]
  constructor
  case exists_iff =>
    intro external
    simp only [hexternal, ← List.mem_iff_getElem?, (sortIds_perm _).mem_iff]
  case hasLabel =>
    intro entry node hentry hnode label
    exact hasLabel_ofEntries hnodup hentry (hexternal node ▸ hnode) label

/-! ## The selection -/

/-- Labels that nodes have select the nodes that have at least one of them. -/
theorem filter_eq_ok {labels : List String}
    (hknown : ∀ label ∈ labels, m.knowsLabel label = true) (identity : Nat) :
    m.filter identity labels = .ok (m.select identity labels) := by
  have hnone : m.unknownLabel? labels = none :=
    List.find?_eq_none.mpr fun label hlabel => by simp [hknown label hlabel]
  rw [filter, hnone]

/-- The old ids of the selected nodes. -/
theorem oldOf?_select {identity : Nat} {labels : List String} (new : Nat) :
    (m.select identity labels).oldOf? new = (m.withSomeLabel labels)[new]? := by
  rw [NodeFilter.oldOf?, select, List.getElem?_toArray, nodesWithAny_eq]

/-- The new ids of nodes are their places among the selected ones. -/
theorem newOf?_select {identity : Nat} {labels : List String} :
    (m.select identity labels).newOf? = (m.withSomeLabel labels).idxOf? := by
  funext old
  rw [NodeFilter.newOf?, NodeFilter.newIds_get?, ← nodesWithAny_eq]
  rfl

/-- A selected node is a node. -/
theorem lt_of_oldOf?_select {identity : Nat} {labels : List String} {new old : Nat}
    (h : (m.select identity labels).oldOf? new = some old) : old < m.nodeCount := by
  rw [oldOf?_select] at h
  exact ((m.mem_withSomeLabel).mp (List.mem_of_getElem? h)).1

/-- A selected node keeps its external id. -/
theorem externalOf?_select {identity : Nat} {labels : List String} {new old : Nat}
    (h : (m.withSomeLabel labels)[new]? = some old) :
    (m.select identity labels).numbering.externalOf? new = m.externalOf? old := by
  have hold : old < m.externalIds.size := (m.mem_withSomeLabel.mp (List.mem_of_getElem? h)).1
  simp [externalOf?, select, ofAscending, ofIndex, entriesWithAny, nodesWithAny_eq, h, hold]

theorem hasLabel_select {identity : Nat} {labels : List String} {new old : Nat}
    (h : (m.withSomeLabel labels)[new]? = some old) (label : String) :
    (m.select identity labels).numbering.hasLabel new label = m.hasLabel old label := by
  have hentry : (m.entriesWithAny labels)[new]? =
      some (m.externalIds.getD old 0, m.labelsOf old) := by
    simp [entriesWithAny, nodesWithAny_eq, h]
  exact (hasLabel_ofAscending _ hentry label).trans (m.contains_labelsOf old label)

theorem exists_of_externalOf?_select {identity : Nat} {labels : List String} {new external : Nat}
    (h : (m.select identity labels).numbering.externalOf? new = some external) :
    ∃ old, (m.withSomeLabel labels)[new]? = some old ∧ m.externalOf? old = some external := by
  have hlt := (Array.getElem?_eq_some_iff.mp h).1
  obtain ⟨old, hold⟩ := @NodeFilter.exists_oldOf? (m.select identity labels) new
    (Nat.lt_of_lt_of_eq hlt (NodeFilter.oldIds_size _).symm)
  rw [oldOf?_select] at hold
  exact ⟨old, hold, (externalOf?_select hold).symm.trans h⟩

/-- An external id has in the selection the new id of what it has before. -/
theorem internalOf?_select {identity : Nat} {labels : List String} {external old : Nat}
    (h : m.internalOf? external = some old) :
    (m.select identity labels).numbering.internalOf? external =
      (m.select identity labels).newOf? old := by
  refine Option.ext fun new => ?_
  rw [internalOf?_eq_some_iff, NodeFilter.newOf?_eq_some_iff, oldOf?_select]
  constructor
  · intro hnew
    obtain ⟨old', hold, hexternal⟩ := exists_of_externalOf?_select hnew
    rw [(m.internalOf?_eq_some_iff).mpr hexternal] at h
    rwa [Option.some.inj h] at hold
  · intro hold
    rw [externalOf?_select hold]
    exact (m.internalOf?_eq_some_iff).mp h

/-! ## Numberings of the same entries -/

namespace Numbers

variable {m' : Numbering} {entries : List NodeEntry}

/-- The same entries get the same internal ids. -/
theorem externalIds_eq (h : m.Numbers entries) (h' : m'.Numbers entries) :
    m.externalIds = m'.externalIds := by
  have hmem : ∀ {k : Numbering}, k.Numbers entries → ∀ {external},
      external ∈ k.externalIds.toList ↔ external ∈ entries.map (·.1) := by
    intro k hk external
    rw [← hk.exists_iff, Array.mem_toList_iff, Array.mem_iff_getElem?]
    rfl
  refine Array.toList_inj.mp (eq_of_ascending m.ascending m'.ascending fun external => ?_)
  rw [hmem h, hmem h']

theorem externalOf?_eq (h : m.Numbers entries) (h' : m'.Numbers entries) :
    m.externalOf? = m'.externalOf? :=
  funext fun node => by rw [externalOf?, externalOf?, h.externalIds_eq h']

theorem internalOf?_eq (h : m.Numbers entries) (h' : m'.Numbers entries) :
    m.internalOf? = m'.internalOf? := by
  funext external
  refine Option.ext fun node => ?_
  rw [internalOf?_eq_some_iff, internalOf?_eq_some_iff, h.externalOf?_eq h']

theorem nodeCount_eq (h : m.Numbers entries) (h' : m'.Numbers entries) :
    m.nodeCount = m'.nodeCount := by
  rw [nodeCount, nodeCount, h.externalIds_eq h']

theorem hasLabel_eq (h : m.Numbers entries) (h' : m'.Numbers entries) :
    m.hasLabel = m'.hasLabel := by
  funext node label
  rcases Nat.lt_or_ge node m.nodeCount with hlt | hle
  · obtain ⟨external, hnode⟩ : ∃ external, m.externalOf? node = some external :=
      ⟨m.externalIds[node], Array.getElem?_eq_getElem hlt⟩
    obtain ⟨entry, hentry, rfl⟩ := List.mem_map.mp (h.exists_iff.mp ⟨node, hnode⟩)
    rw [h.hasLabel hentry hnode, h'.hasLabel hentry (h.externalOf?_eq h' ▸ hnode)]
  · rw [hasLabel_eq_false_of_le hle, hasLabel_eq_false_of_le (h.nodeCount_eq h' ▸ hle)]

theorem exists_entry (h : m.Numbers entries) {node external : Nat}
    (hnode : m.externalOf? node = some external) :
    ∃ labels, (external, labels) ∈ entries ∧
      ∀ label, m.hasLabel node label = labels.contains label := by
  obtain ⟨⟨_, labels⟩, hentry, rfl⟩ := List.mem_map.mp (h.exists_iff.mp ⟨node, hnode⟩)
  exact ⟨labels, hentry, h.hasLabel hentry hnode⟩

/-- A filter by labels numbers the entries that have one of the labels. -/
theorem select (h : m.Numbers entries) (identity : Nat) (labels : List String) :
    (m.select identity labels).numbering.Numbers
      (entries.filter fun entry => labels.any entry.2.contains) := by
  constructor
  case exists_iff =>
    intro external
    constructor
    · rintro ⟨new, hnew⟩
      obtain ⟨old, hold, hexternal⟩ := exists_of_externalOf?_select hnew
      obtain ⟨own, hentry, hown⟩ := h.exists_entry hexternal
      obtain ⟨-, label, hlabel, hhas⟩ := (m.mem_withSomeLabel).mp (List.mem_of_getElem? hold)
      refine List.mem_map.mpr ⟨(external, own), List.mem_filter.mpr ⟨hentry, ?_⟩, rfl⟩
      exact List.any_eq_true.mpr ⟨label, hlabel, hown label ▸ hhas⟩
    · intro hmem
      obtain ⟨entry, hentry, rfl⟩ := List.mem_map.mp hmem
      obtain ⟨hentry, hany⟩ := List.mem_filter.mp hentry
      obtain ⟨label, hlabel, hhas⟩ := List.any_eq_true.mp hany
      obtain ⟨old, hexternal⟩ := h.exists_iff.mpr (List.mem_map_of_mem hentry)
      have hlt : old < m.nodeCount := (Array.getElem?_eq_some_iff.mp hexternal).1
      have hmem := (m.mem_withSomeLabel).mpr
        ⟨hlt, label, hlabel, (h.hasLabel hentry hexternal label).trans hhas⟩
      obtain ⟨new, hnew⟩ := List.mem_iff_getElem?.mp hmem
      exact ⟨new, (externalOf?_select hnew).trans hexternal⟩
  case hasLabel =>
    intro entry new hentry hnew label
    obtain ⟨old, hold, hexternal⟩ := exists_of_externalOf?_select hnew
    rw [hasLabel_select hold]
    exact h.hasLabel (List.mem_filter.mp hentry).1 hexternal label

end Numbers

end Numbering

end PagedGraph
