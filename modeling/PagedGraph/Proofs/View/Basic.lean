import PagedGraph.Proofs.Cursor.Merge
import PagedGraph.Proofs.Cursor.Through
import PagedGraph.Proofs.Load.RoundTrip
import PagedGraph.View.Basic

/-!
# Loaded views

`View.Loaded v` says that `v` reads loaded tables: one side of a type, a union of such
sides, or such a view under filters by labels.  Every loaded view is sound
(`View.Loaded.sound`).

* Every node opens as a cursor that walks along the targets of the node.
* The degree of a node is the number of its targets up to a multiple of two to the power of
  32.  If that many targets are more than any node has (`View.DegreesFit`), it is their number
  (`View.Sound.degree_of_fits`).  One side always fits (`View.degreesFit_ofSingle`), and a
  filter keeps that (`View.DegreesFit.under`).
* The relationship count is the number of all targets, if this is a word of 64 bits
  (`View.CountFits`).
* No target is outside the view.
* In an undirected view a target has its source as a target.

Soundness is proved for one side, then for a union, and kept by a filter
(`View.Sound.filtered`).
-/

namespace PagedGraph

/-! ## One side -/

theorem Adjacency.Stores.self {t : Adjacency} {n : Nat} {targets : Nat → List Nat}
    (h : t.Stores n targets) : t.Stores n t.targets where
  nodeCount := h.nodeCount
  reads hnode := by
    rw [h.targets_eq hnode]
    exact h.reads hnode
  degree hnode := by rw [h.targets_eq hnode, h.degree hnode]
  fits hnode := by
    rw [h.targets_eq hnode]
    exact h.fits hnode
  offset hnode := by rw [h.targets_eq hnode, h.offset hnode]
  relationshipCount := by
    rw [h.relationshipCount]
    refine congrArg addUp (List.map_congr_left fun node hnode => ?_)
    rw [h.targets_eq (List.mem_range.mp hnode)]

namespace SingleGraph

/-- A graph that reads one side of loaded tables. -/
def Loaded (g : SingleGraph) : Prop :=
  ∃ t : TypeTables, t.Loaded g.numbering ∧
    (g.adjacency = t.outgoing ∨ t.incoming = some g.adjacency)

/-- The targets of one side are those of its nodes. -/
structure Sound (g : SingleGraph) : Prop where
  stores : g.adjacency.Stores g.numbering.nodeCount g.adjacency.targets
  bounded : ∀ {node t}, node < g.numbering.nodeCount → t ∈ g.adjacency.targets node →
    t < g.numbering.nodeCount
  symmetric : g.adjacency.isUndirected = true → ∀ {x y}, x < g.numbering.nodeCount →
    y ∈ g.adjacency.targets x → x ∈ g.adjacency.targets y

theorem Loaded.sound {g : SingleGraph} (h : g.Loaded) : g.Sound := by
  obtain ⟨t, ht, hside⟩ := h
  obtain ⟨p, arrivals, -, hproper, hholds⟩ := ht.exists_holds
  have hlt : ∀ {a x y}, a ∈ arrivals → (x, y) ∈ p.pairs a.source a.target →
      x < g.numbering.nodeCount ∧ y < g.numbering.nodeCount := by
    intro a x y ha hpair
    rcases Projection.mem_pairs hpair with ⟨rfl, rfl⟩ | ⟨rfl, rfl⟩
    · exact ⟨(hproper a ha).source_lt, (hproper a ha).target_lt⟩
    · exact ⟨(hproper a ha).target_lt, (hproper a ha).source_lt⟩
  rcases hside with hside | hside
  · obtain ⟨stored, hstored⟩ := hholds.outgoing
    rw [← hside] at hstored
    refine ⟨hstored.adjacency.self, fun hnode ht => ?_, fun hundirected x y hx hy => ?_⟩
    · obtain ⟨a, ha, hpair⟩ := (hstored.mem_targets hnode).mp ht
      exact (hlt ha hpair).2
    · have horientation : p.orientation = .undirected := by
        rw [hside, hholds.isUndirected] at hundirected
        exact of_decide_eq_true hundirected
      obtain ⟨a, ha, hpair⟩ := (hstored.mem_targets hx).mp hy
      exact (hstored.mem_targets (hlt ha hpair).2).mpr
        ⟨a, ha, Projection.mem_pairs_swap horientation hpair⟩
  · obtain ⟨hdirected, stored, hstored⟩ := hholds.incoming hside
    refine ⟨hstored.adjacency.self, fun hnode ht => ?_, fun hundirected => ?_⟩
    · obtain ⟨a, ha, hpair⟩ := (hstored.mem_targets hnode).mp ht
      exact (hlt ha (Projection.mem_inversePairs hpair)).1
    · rw [hdirected] at hundirected
      cases hundirected

end SingleGraph

/-! ## Views -/

namespace View

/-- What a state of reading through some filters stands for. -/
def readsThrough : List FilterLayer → BaseCursor → List Nat → Prop
  | [] => BaseCursor.Reads
  | layer :: below => Cursor.PassedBy layer.filter (readsThrough below)

/-- The cursors of a view walk along what their states stand for. -/
theorem walks_cursorThrough (layers : List FilterLayer) :
    (cursorThrough layers).Walks (readsThrough layers) := by
  induction layers with
  | nil => exact walks_baseCursor
  | cons layer below ih => exact ih.through layer.filter

theorem walks_cursor (v : View) : v.cursor.Walks (readsThrough v.layers) :=
  walks_cursorThrough v.layers

/-- Number of targets of all nodes. -/
def targetCount (v : View) : Nat :=
  addUp ((List.range v.nodeCount).map fun node => (v.targets node).length)

/-- No node has more targets than 32 bits can count. -/
def DegreesFit (v : View) : Prop := ∀ node < v.nodeCount, (v.targets node).length < UInt32.size

/-- There are no more targets than 64 bits can count. -/
def CountFits (v : View) : Prop := v.targetCount < UInt64.size

/-- Every node opens as a cursor on its targets, and these are nodes of the view. -/
structure Sound (v : View) : Prop where
  opens : ∀ {node}, node < v.nodeCount →
    ∃ s, v.openAt? node = some s ∧ readsThrough v.layers s (v.targets node)
  closed : ∀ {node}, v.nodeCount ≤ node → v.openAt? node = none
  bounded : ∀ {node t}, node < v.nodeCount → t ∈ v.targets node → t < v.nodeCount
  degree : ∀ {node}, node < v.nodeCount → v.degree node = (v.targets node).length % UInt32.size
  symmetric : v.isUndirected = true → ∀ {x y}, x < v.nodeCount → y ∈ v.targets x →
    x ∈ v.targets y
  /-- Relationships are counted exactly or in 64 bits. -/
  counted : v.relationshipCount = v.targetCount ∨
    v.relationshipCount = v.targetCount % UInt64.size

theorem targets_eq {v : View} {node : Nat} {s : BaseCursor} {ts : List Nat}
    (hopen : v.openAt? node = some s) (hs : readsThrough v.layers s ts) : v.targets node = ts := by
  rw [targets, targets?, hopen]
  exact (walks_cursorThrough v.layers).toList_eq hs

variable {v : View}

/-- A node of the view has targets. -/
theorem Sound.targets?_eq (h : v.Sound) {node : Nat} (hnode : node < v.nodeCount) :
    v.targets? node = some (v.targets node) := by
  obtain ⟨s, hopen, -⟩ := h.opens hnode
  rw [targets, targets?, hopen]
  rfl

theorem Sound.ascending (h : v.Sound) {node : Nat} (hnode : node < v.nodeCount) :
    (v.targets node).Pairwise (· ≤ ·) := by
  obtain ⟨s, -, hs⟩ := h.opens hnode
  exact (walks_cursorThrough v.layers).ascending hs

/-- A degree that fits is the number of targets. -/
theorem Sound.degree_of_fits (h : v.Sound) (hfits : v.DegreesFit) {node : Nat}
    (hnode : node < v.nodeCount) : v.degree node = (v.targets node).length := by
  rw [h.degree hnode, Nat.mod_eq_of_lt (hfits node hnode)]

/-- A count that fits is the number of all targets. -/
theorem Sound.relationshipCount_of_fits (h : v.Sound) (hfits : v.CountFits) :
    v.relationshipCount = v.targetCount := by
  rcases h.counted with hcount | hcount
  · exact hcount
  · rw [hcount, Nat.mod_eq_of_lt hfits]

/-- In 64 bits the count is the number of all targets. -/
theorem Sound.relationshipCount_mod (h : v.Sound) :
    v.relationshipCount % UInt64.size = v.targetCount % UInt64.size := by
  rcases h.counted with hcount | hcount
  · rw [hcount]
  · rw [hcount, Nat.mod_mod]

/-! ## Bases -/

end View

namespace BaseGraph

/-- A base opens every node on some targets, which are nodes. -/
structure Stores (b : BaseGraph) (targets : Nat → List Nat) : Prop where
  reads : ∀ {node}, node < b.numbering.nodeCount → (b.openRuns node).Reads (targets node)
  degree : ∀ {node}, node < b.numbering.nodeCount →
    b.degree node = (targets node).length % UInt32.size
  bounded : ∀ {node t}, node < b.numbering.nodeCount → t ∈ targets node → t < b.numbering.nodeCount
  symmetric : b.isUndirected = true → ∀ {x y}, x < b.numbering.nodeCount → y ∈ targets x →
    x ∈ targets y
  counted : b.relationshipCount =
      addUp ((List.range b.numbering.nodeCount).map fun node => (targets node).length) ∨
    b.relationshipCount =
      addUp ((List.range b.numbering.nodeCount).map fun node => (targets node).length) %
        UInt64.size

/-- One side as a base. -/
theorem stores_single {g : SingleGraph} (h : g.Sound) : (single g).Stores g.adjacency.targets where
  reads hnode := h.stores.reads hnode
  degree hnode := by
    rw [degree, h.stores.degree hnode, Nat.mod_eq_of_lt (h.stores.fits hnode)]
  bounded := h.bounded
  symmetric hundirected := h.symmetric (by simpa [isUndirected, members] using hundirected)
  counted := Or.inl h.stores.relationshipCount

/-- The targets of a node in all members, ascending. -/
def unionTargets (members : List SingleGraph) (node : Nat) : List Nat :=
  (members.flatMap fun g => g.adjacency.targets node).mergeSort (· ≤ ·)

theorem mem_unionTargets {members : List SingleGraph} {node t : Nat} :
    t ∈ unionTargets members node ↔ ∃ g ∈ members, t ∈ g.adjacency.targets node := by
  rw [unionTargets, List.mem_mergeSort, List.mem_flatMap]

theorem length_unionTargets (members : List SingleGraph) (node : Nat) :
    (unionTargets members node).length =
      addUp (members.map fun g => (g.adjacency.targets node).length) := by
  rw [unionTargets, List.length_mergeSort]
  induction members with
  | nil => rfl
  | cons g members ih => rw [List.flatMap_cons, List.length_append, ih, List.map_cons, addUp_cons]

/-- Some sides over one numbering as a base. -/
theorem stores_union {g : SingleGraph} {gs : List SingleGraph}
    (hsound : ∀ member ∈ g :: gs, member.Sound)
    (hnumbering : ∀ member ∈ g :: gs, member.numbering = g.numbering) :
    (union g gs).Stores (unionTargets (g :: gs)) where
  reads {node} hnode := by
    refine MergeCursor.reads_ofRuns ?_ (pairwise_mergeSort _) (List.mergeSort_perm ..)
    rw [List.forall₂_map_left_iff, List.forall₂_map_right_iff, List.forall₂_same]
    intro member hmember
    refine (hsound member hmember).stores.reads ?_
    rw [hnumbering member hmember]
    exact hnode
  degree {node} hnode := by
    rw [length_unionTargets, degree]
    refine congrArg (addUp · % UInt32.size) (List.map_congr_left fun member hmember => ?_)
    refine (hsound member hmember).stores.degree ?_
    rw [hnumbering member hmember]
    exact hnode
  bounded {node t} hnode ht := by
    obtain ⟨member, hmember, ht⟩ := mem_unionTargets.mp ht
    have hbounded : node < member.numbering.nodeCount → t < member.numbering.nodeCount := fun h =>
      (hsound member hmember).bounded h ht
    rw [hnumbering member hmember] at hbounded
    exact hbounded hnode
  symmetric hundirected {x y} hx hy := by
    obtain ⟨member, hmember, hy⟩ := mem_unionTargets.mp hy
    have hmember' : member.adjacency.isUndirected = true :=
      List.all_eq_true.mp hundirected member hmember
    refine mem_unionTargets.mpr ⟨member, hmember, ?_⟩
    refine (hsound member hmember).symmetric hmember' ?_ hy
    rw [hnumbering member hmember]
    exact hx
  counted := by
    refine Or.inr ?_
    simp only [length_unionTargets]
    rw [relationshipCount, ← addUp_comm]
    refine congrArg (addUp · % UInt64.size) (List.map_congr_left fun member hmember => ?_)
    rw [(hsound member hmember).stores.relationshipCount, hnumbering member hmember]
    rfl

end BaseGraph

namespace View

theorem openAt?_ofBase (b : BaseGraph) (node : Nat) :
    (ofBase b).openAt? node =
      if node < b.numbering.nodeCount then some (b.openRuns node) else none := by
  rw [openAt?, root?, ofBase, rootThrough?]
  split <;> rfl

theorem degree_ofBase {b : BaseGraph} {node : Nat} (hnode : node < b.numbering.nodeCount) :
    (ofBase b).degree node = b.degree node := by
  simp [degree, degree?, ofBase, root?, rootThrough?, hnode]

theorem targets_ofBase {b : BaseGraph} {targets : Nat → List Nat} (h : b.Stores targets)
    {node : Nat} (hnode : node < b.numbering.nodeCount) :
    (ofBase b).targets node = targets node :=
  targets_eq ((openAt?_ofBase b node).trans (if_pos hnode)) (h.reads hnode)

theorem sound_ofBase {b : BaseGraph} {targets : Nat → List Nat} (h : b.Stores targets) :
    (ofBase b).Sound where
  opens {node} hnode := by
    refine ⟨b.openRuns node, (openAt?_ofBase b node).trans (if_pos hnode), ?_⟩
    rw [targets_ofBase h hnode]
    exact h.reads hnode
  closed {node} hnode := (openAt?_ofBase b node).trans (if_neg (Nat.not_lt.mpr hnode))
  bounded {node t} hnode ht := by
    rw [targets_ofBase h hnode] at ht
    exact h.bounded hnode ht
  degree {node} hnode := by
    rw [targets_ofBase h hnode, degree_ofBase (b := b) hnode, h.degree hnode]
  symmetric hundirected {x y} hx hy := by
    rw [targets_ofBase h hx] at hy
    rw [targets_ofBase h (h.bounded hx hy)]
    exact h.symmetric hundirected hx hy
  counted := by
    have htotal : (ofBase b).targetCount =
        addUp ((List.range b.numbering.nodeCount).map fun node => (targets node).length) := by
      refine congrArg addUp (List.map_congr_left fun node hnode => ?_)
      rw [targets_ofBase h (List.mem_range.mp hnode)]
    rw [htotal]
    exact h.counted

theorem sound_ofSingle {g : SingleGraph} (h : g.Sound) : (ofSingle g).Sound :=
  sound_ofBase (BaseGraph.stores_single h)

/-- The degrees of one side are written in its runs, so they fit. -/
theorem degreesFit_ofSingle {g : SingleGraph} (h : g.Sound) : (ofSingle g).DegreesFit := by
  intro node hnode
  rw [ofSingle, targets_ofBase (BaseGraph.stores_single h) hnode]
  exact h.stores.fits hnode

/-- The count of one side is the number of its targets. -/
theorem relationshipCount_ofSingle {g : SingleGraph} (h : g.Sound) :
    (ofSingle g).relationshipCount = (ofSingle g).targetCount := by
  refine h.stores.relationshipCount.trans
    (congrArg addUp (List.map_congr_left fun node hnode => ?_))
  rw [ofSingle, targets_ofBase (BaseGraph.stores_single h) (List.mem_range.mp hnode)]

/-! ## Filters -/

/-- A view under one more filter. -/
def under (v : View) (layer : FilterLayer) : View := ⟨v.base, layer :: v.layers⟩

/-- A selected node is the base's node that its old id is. -/
theorem root?_under (v : View) (filter : NodeFilter) (count node : Nat) :
    (v.under ⟨filter, count⟩).root? node = (filter.oldOf? node).bind v.root? := by
  rw [root?, under, rootThrough?]
  cases filter.oldOf? node <;> rfl

/-- The view under a filter opens a selected node as the view opens its old id. -/
theorem openAt?_under (v : View) (filter : NodeFilter) (count node : Nat) :
    (v.under ⟨filter, count⟩).openAt? node = (filter.oldOf? node).bind v.openAt? := by
  rw [openAt?, root?_under]
  cases filter.oldOf? node <;> rfl

/-- A filter that selects nodes of a view. -/
def Selects (filter : NodeFilter) (v : View) : Prop :=
  ∀ {new old}, filter.oldOf? new = some old → old < v.nodeCount

theorem selects_of_filter {v : View} {filter : NodeFilter} {identity : Nat} {labels : List String}
    (h : v.numbering.filter identity labels = .ok filter) : Selects filter v := by
  rw [Numbering.filter] at h
  split at h
  · cases h
  · cases h
    intro new old hold
    have hmem := List.mem_of_getElem? (by simpa [NodeFilter.oldOf?, Numbering.select] using hold)
    exact v.numbering.lt_of_mem_nodesWithAny hmem

theorem nodeCount_under (v : View) (filter : NodeFilter) (count : Nat) :
    (v.under ⟨filter, count⟩).nodeCount = filter.nodeCount :=
  filter.oldIds_size.symm

/-- The targets of a selected node are the new ids of those that pass. -/
theorem readsThrough_under {v : View} (h : v.Sound) {filter : NodeFilter}
    (hselects : Selects filter v)
    (count : Nat) {node old : Nat} (hold : filter.oldOf? node = some old) :
    ∃ s, (v.under ⟨filter, count⟩).openAt? node = some s ∧
      readsThrough (v.under ⟨filter, count⟩).layers s
        ((v.targets old).filterMap filter.newOf?) := by
  obtain ⟨s, hopen, hs⟩ := h.opens (hselects hold)
  refine ⟨s, ?_, v.targets old, hs, rfl⟩
  rw [openAt?_under, hold, Option.bind_some, hopen]

theorem targets_under {v : View} (h : v.Sound) {filter : NodeFilter} (hselects : Selects filter v)
    (count : Nat) {node old : Nat} (hold : filter.oldOf? node = some old) :
    (v.under ⟨filter, count⟩).targets node =
      (v.targets old).filterMap filter.newOf? := by
  obtain ⟨s, hopen, hs⟩ := readsThrough_under h hselects count hold
  exact targets_eq hopen hs

/-- The number of targets that pass is the number of their new ids. -/
theorem passingCount_eq {v : View} {filter : NodeFilter} {node old : Nat}
    (hold : filter.oldOf? node = some old) :
    v.passingCount filter node = ((v.targets old).filterMap filter.newOf?).length := by
  rw [passingCount, hold, List.length_filterMap_eq_countP, List.countP_eq_length_filter]

/-- The relationships under a filter are counted batch by batch, which is node by node. -/
theorem countThrough_eq (v : View) (filter : NodeFilter) (workers : Nat) :
    v.countThrough filter workers =
      addUp ((List.range filter.nodeCount).map (v.passingCount filter)) % UInt64.size := by
  rw [countThrough, ← flatMap_nodes_batchesOf filter.nodeCount workers]
  refine congrArg (· % UInt64.size) ?_
  induction batchesOf filter.nodeCount workers with
  | nil => rfl
  | cons batch batches ih =>
    rw [List.map_cons, addUp_cons, ih, List.flatMap_cons, List.map_append, addUp_append]

/-- A filter over a sound view is a sound view. -/
theorem Sound.under {v : View} (h : v.Sound) {filter : NodeFilter} (hselects : Selects filter v)
    (workers : Nat) :
    (v.under ⟨filter, v.countThrough filter workers⟩).Sound := by
  have hnew : ∀ {node},
      node < (v.under ⟨filter, v.countThrough filter workers⟩).nodeCount →
      ∃ old, filter.oldOf? node = some old := by
    intro node hnode
    rw [nodeCount_under] at hnode
    exact NodeFilter.exists_oldOf? hnode
  constructor
  case opens =>
    intro node hnode
    obtain ⟨old, hold⟩ := hnew hnode
    rw [targets_under h hselects _ hold]
    exact readsThrough_under h hselects _ hold
  case closed =>
    intro node hnode
    rw [nodeCount_under] at hnode
    rw [openAt?_under, NodeFilter.oldOf?, Array.getElem?_eq_none hnode]
    rfl
  case bounded =>
    intro node t hnode ht
    obtain ⟨old, hold⟩ := hnew hnode
    rw [targets_under h hselects _ hold] at ht
    obtain ⟨u, -, hu⟩ := List.mem_filterMap.mp ht
    rw [nodeCount_under]
    exact NodeFilter.lt_of_newOf? hu
  case degree =>
    intro node hnode
    obtain ⟨old, hold⟩ := hnew hnode
    obtain ⟨s, hopen, -⟩ := readsThrough_under h hselects (v.countThrough filter workers) hold
    rw [View.degree, degree?, targets, targets?, hopen]
    rfl
  case symmetric =>
    intro hundirected x y hx hy
    obtain ⟨oldX, holdX⟩ := hnew hx
    rw [targets_under h hselects _ holdX] at hy
    obtain ⟨oldY, hmem, hnewY⟩ := List.mem_filterMap.mp hy
    have holdY := (filter.newOf?_eq_some_iff).mp hnewY
    rw [targets_under h hselects _ holdY]
    exact List.mem_filterMap.mpr ⟨oldX, h.symmetric hundirected (hselects holdX) hmem,
      (filter.newOf?_eq_some_iff).mpr holdX⟩
  case counted =>
    refine Or.inr ((countThrough_eq v filter workers).trans ?_)
    rw [targetCount, nodeCount_under]
    refine congrArg (addUp · % UInt64.size) (List.map_congr_left fun node hnode => ?_)
    obtain ⟨old, hold⟩ := NodeFilter.exists_oldOf? (List.mem_range.mp hnode)
    rw [passingCount_eq hold, targets_under h hselects _ hold]

/-- Under a filter nodes have no more targets than before. -/
theorem DegreesFit.under {v : View} (hfits : v.DegreesFit) (h : v.Sound) {filter : NodeFilter}
    (hselects : Selects filter v) (count : Nat) : (v.under ⟨filter, count⟩).DegreesFit := by
  intro node hnode
  obtain ⟨old, hold⟩ := NodeFilter.exists_oldOf? (nodeCount_under v filter count ▸ hnode)
  rw [targets_under h hselects count hold]
  exact Nat.lt_of_le_of_lt (List.length_filterMap_le ..) (hfits old (hselects hold))

/-! ## Loaded views -/

/-- The views that loaded tables are seen through. -/
inductive Loaded : View → Prop where
  | single {g : SingleGraph} (hg : g.Loaded) : Loaded (ofSingle g)
  /-- Members with the same identity have the same numbering. -/
  | union {members : List SingleGraph} {b : BaseGraph} (hmembers : ∀ g ∈ members, g.Loaded)
      (hidentity : ∀ g ∈ members, ∀ h ∈ members, g.numbering.identity = h.numbering.identity →
        g.numbering = h.numbering)
      (hunite : BaseGraph.unite members = .ok b) : Loaded (ofBase b)
  | filtered {v v' : View} {identity workers : Nat} {labels : List String} {filter : NodeFilter}
      (hv : Loaded v) (hfilter : v.numbering.filter identity labels = .ok filter)
      (hview : v.filtered filter workers = .ok v') : Loaded v'

/-- A filter that is put over a view counts its relationships. -/
theorem of_filtered_eq_ok {v v' : View} {filter : NodeFilter} {workers : Nat}
    (h : v.filtered filter workers = .ok v') :
    v' = v.under ⟨filter, v.countThrough filter workers⟩ := by
  cases workers with
  | zero => cases h
  | succ workers =>
    rw [filtered, checkWorkers_eq_ok (Nat.succ_pos _)] at h
    cases h
    rfl

/-- Loaded views are sound. -/
theorem Loaded.sound {v : View} (h : v.Loaded) : v.Sound := by
  induction h with
  | single hg => exact sound_ofSingle hg.sound
  | @union members b hmembers hidentity hunite =>
    cases members with
    | nil => cases hunite
    | cons g gs =>
      rw [BaseGraph.unite] at hunite
      split at hunite
      · next hall =>
        cases hunite
        refine sound_ofBase (BaseGraph.stores_union (fun member hmember =>
          (hmembers member hmember).sound) fun member hmember => ?_)
        rcases List.mem_cons.mp hmember with rfl | hmember'
        · rfl
        · exact hidentity member hmember g (List.mem_cons_self ..)
            (of_decide_eq_true (List.all_eq_true.mp hall member hmember'))
      · cases hunite
  | filtered _ hfilter hview ih =>
    rw [of_filtered_eq_ok hview]
    exact ih.under (selects_of_filter hfilter) _

/-! ## A small view -/

/-- Three nodes, the second of which has both labels. -/
def threeNodes : Numbering := .ofAscending 0 [(1, ["A"]), (2, ["A", "B"]), (3, ["B"])] (by decide)

/-- Relationships between every two of them. -/
def threeNodeArrivals : List Arrival := [⟨0, 1, []⟩, ⟨2, 1, []⟩, ⟨0, 2, []⟩]

/-- The tables of three nodes, every two of them related. -/
def threeNodeTables : TypeTables :=
  match ((RelationshipLoader.blank threeNodes { orientation := .undirected } 1).pushAll
      threeNodeArrivals).build with
  | .ok tables => tables
  | .error _ => default

theorem loaded_threeNodeTables : threeNodeTables.Loaded threeNodes ∧
    threeNodeTables.Holds { orientation := .undirected } 3 threeNodeArrivals := by
  have hproper : ∀ a ∈ threeNodeArrivals,
      a.Proper threeNodes.nodeCount { orientation := .undirected } := by
    decide
  obtain ⟨t, hbuild, hloaded, hholds⟩ := TypeTables.exists_loaded (m := threeNodes)
    (p := { orientation := .undirected }) Nat.one_pos rfl hproper
    (Arrival.sidesFit_of_length_lt (by decide) _)
  have heq : threeNodeTables = t := by
    rw [threeNodeTables, hbuild]
  rw [heq]
  exact ⟨hloaded, hholds⟩

/-- Three nodes, every two of them related, as a view. -/
def threeNodeView : View := ofSingle ⟨threeNodes, threeNodeTables.outgoing, none, []⟩

theorem loaded_threeNodeView : threeNodeView.Loaded :=
  .single ⟨threeNodeTables, loaded_threeNodeTables.1, Or.inl rfl⟩

theorem degreesFit_threeNodeView : threeNodeView.DegreesFit :=
  degreesFit_ofSingle
    (SingleGraph.Loaded.sound ⟨threeNodeTables, loaded_threeNodeTables.1, Or.inl rfl⟩)

theorem mem_targets_threeNodeView {node t : Nat} (hnode : node < 3) :
    t ∈ threeNodeView.targets node ↔ t < 3 ∧ t ≠ node := by
  obtain ⟨stored, hside⟩ := loaded_threeNodeTables.2.outgoing
  have hsound : SingleGraph.Sound ⟨threeNodes, threeNodeTables.outgoing, none, []⟩ :=
    SingleGraph.Loaded.sound ⟨threeNodeTables, loaded_threeNodeTables.1, Or.inl rfl⟩
  rw [threeNodeView, ofSingle, targets_ofBase (BaseGraph.stores_single hsound) hnode,
    hside.mem_targets hnode]
  simp [threeNodeArrivals, Projection.pairs]
  omega

theorem length_targets_threeNodeView_le {node : Nat} (hnode : node < 3) :
    (threeNodeView.targets node).length ≤ 2 := by
  obtain ⟨stored, hside⟩ := loaded_threeNodeTables.2.outgoing
  have hsound : SingleGraph.Sound ⟨threeNodes, threeNodeTables.outgoing, none, []⟩ :=
    SingleGraph.Loaded.sound ⟨threeNodeTables, loaded_threeNodeTables.1, Or.inl rfl⟩
  have hrows : ∀ node < 3, ((Arrival.rows (Projection.pairs { orientation := .undirected })
      threeNodeArrivals node).map Row.target).length ≤ 2 := by
    decide
  rw [threeNodeView, ofSingle, targets_ofBase (BaseGraph.stores_single hsound) hnode,
    hside.adjacency.targets_eq hnode, hside.map_target]
  exact Nat.le_trans (length_storedTargets_le ..) (hrows node hnode)

theorem isUndirected_threeNodeView : threeNodeView.isUndirected = true := by
  have h := loaded_threeNodeTables.2.isUndirected
  simpa [threeNodeView, isUndirected, ofSingle, ofBase, BaseGraph.isUndirected, BaseGraph.members]
    using h

end View

end PagedGraph
