import PagedGraph.Graph.Basic
import PagedGraph.Proofs.Numbering.Select
import PagedGraph.Proofs.View.Basic

/-!
# A filter by labels is the induced subgraph

`View.Induced v' v nodes` says that `v'` is what `nodes` induce in `v`: its nodes are
these, in their order, and of the relationships of `v` it has those with both ends among
them, with their multiplicity and their values.  Targets, degrees, counts and values are
filtered separately, and they agree as far as degrees are counted in 32 bits and relationships
in 64.

A graph puts a filter by labels over its views in this sense
(`PropertyGraph.exists_withLabels`).
-/

namespace PagedGraph

namespace View

/-- A view that some nodes of another induce, numbered by their places. -/
structure Induced (v' v : View) (nodes : List Nat) : Prop where
  nodeCount : v'.nodeCount = nodes.length
  externalOf? : ∀ {new old}, nodes[new]? = some old →
    v'.numbering.externalOf? new = v.numbering.externalOf? old
  externalIds : v'.numbering.externalIds.toList.Pairwise (· < ·)
  hasLabel : ∀ {new old}, nodes[new]? = some old → ∀ label,
    v'.numbering.hasLabel new label = v.numbering.hasLabel old label
  /-- The cursor of a node yields the targets that are among the nodes. -/
  yields : ∀ {new old}, nodes[new]? = some old → ∃ s, v'.openAt? new = some s ∧
    v'.cursor.Yields s ((v.targets old).filterMap nodes.idxOf?)
  targets : ∀ {new old}, nodes[new]? = some old →
    v'.targets new = (v.targets old).filterMap nodes.idxOf?
  ascending : ∀ {new}, new < nodes.length → (v'.targets new).Pairwise (· ≤ ·)
  count : ∀ {new old t u}, nodes[new]? = some old → nodes[t]? = some u →
    (v'.targets new).count t = (v.targets old).count u
  /-- A degree is the number of targets, counted in 32 bits. -/
  degree : ∀ {new}, new < nodes.length → v'.degree new = (v'.targets new).length % UInt32.size
  degree_of_fits : ∀ {new}, new < nodes.length → (v'.targets new).length < UInt32.size →
    v'.degree new = (v'.targets new).length
  relationshipCount_mod : v'.relationshipCount % UInt64.size = v'.targetCount % UInt64.size
  relationshipCount : v'.DegreesFit → v'.CountFits →
    v'.relationshipCount = addUp ((List.range nodes.length).map v'.degree)
  /-- The values of a node are those of its targets that are among the nodes. -/
  weighted? : ∀ {new old}, nodes[new]? = some old → ∀ fallback,
    ∃ pairs, v.weighted? fallback old = some pairs ∧
      v'.weighted? fallback new =
        some (pairs.filterMap fun (t, value) => (nodes.idxOf? t).map (·, value))
  /-- A consumer is handed these values. -/
  visitWeighted? : ∀ {new old}, nodes[new]? = some old → ∀ {σ : Type} (fallback : Double)
    (consumer : σ → Nat × Double → σ × Bool) (s : σ),
    v'.visitWeighted? fallback new consumer s = (v.weighted? fallback old).map fun pairs =>
      visit consumer (pairs.filterMap fun (t, value) => (nodes.idxOf? t).map (·, value)) s
  closed : ∀ {new}, nodes.length ≤ new → v'.openAt? new = none ∧ ∀ fallback,
    v'.weighted? fallback new = none

variable {v : View}

/-- The relationships of a node under a filter are those of its old id that pass. -/
theorem weighted?_under (v : View) (filter : NodeFilter) (count : Nat) (fallback : Double)
    (node : Nat) : (v.under ⟨filter, count⟩).weighted? fallback node =
      (filter.oldOf? node).bind fun old => (v.weighted? fallback old).map fun pairs =>
        pairs.filterMap fun (t, value) => (filter.newOf? t).map (·, value) := by
  rw [weighted?, root?_under]
  cases filter.oldOf? node with
  | none => rfl
  | some old =>
    rw [Option.bind_some, Option.bind_some, weighted?, Option.map_map]
    rfl

theorem exists_weighted? {node : Nat} {s : BaseCursor} (h : v.openAt? node = some s)
    (fallback : Double) : ∃ pairs, v.weighted? fallback node = some pairs := by
  rw [openAt?] at h
  obtain ⟨root, hroot, -⟩ := Option.map_eq_some_iff.mp h
  exact ⟨_, by rw [weighted?, hroot]; rfl⟩

/-- Renumbering keeps how often a target occurs. -/
theorem count_filterMap_newOf? {filter : NodeFilter} {new old : Nat}
    (h : filter.oldOf? new = some old) (targets : List Nat) :
    (targets.filterMap filter.newOf?).count new = targets.count old := by
  induction targets with
  | nil => rfl
  | cons t targets ih =>
    have hnew := (filter.newOf?_eq_some_iff).mpr h
    cases ht : filter.newOf? t with
    | none =>
      have hne : t ≠ old := by
        rintro rfl
        rw [hnew] at ht
        cases ht
      rw [List.filterMap_cons_none ht, ih, List.count_cons_of_ne hne]
    | some u =>
      rw [List.filterMap_cons_some ht, List.count_cons, List.count_cons, ih]
      by_cases hu : u = new
      · subst hu
        rw [NodeFilter.newOf?_inj ht hnew]
        simp
      · have hne : t ≠ old := by
          rintro rfl
          rw [hnew] at ht
          exact hu (Option.some.inj ht).symm
        simp [hu, hne]

/-- A sound view under a filter is what the selected nodes induce. -/
theorem Sound.induced (h : v.Sound) {filter : NodeFilter} (hselects : Selects filter v)
    {nodes : List Nat} (hnodes : filter.oldIds.toList = nodes)
    (hexternal : ∀ {new old}, nodes[new]? = some old →
      filter.numbering.externalOf? new = v.numbering.externalOf? old)
    (hlabels : ∀ {new old}, nodes[new]? = some old → ∀ label,
      filter.numbering.hasLabel new label = v.numbering.hasLabel old label) (workers : Nat) :
    Induced (v.under ⟨filter, v.countThrough filter workers⟩) v nodes := by
  have hsound := h.under hselects workers
  have hcount : (v.under ⟨filter, v.countThrough filter workers⟩).nodeCount = nodes.length := by
    rw [nodeCount_under, NodeFilter.nodeCount, ← hnodes, Array.length_toList]
  have hold : ∀ {new old}, nodes[new]? = some old → filter.oldOf? new = some old := by
    intro new old hnode
    rw [NodeFilter.oldOf?, ← Array.getElem?_toList, hnodes, hnode]
  have hnew : filter.newOf? = nodes.idxOf? := by
    funext old
    rw [NodeFilter.newOf?, filter.newIds_get?, hnodes]
  constructor
  case nodeCount => exact hcount
  case externalOf? => exact hexternal
  case externalIds => exact filter.numbering.ascending
  case hasLabel => exact hlabels
  case yields =>
    intro new old hnode
    obtain ⟨s, hopen, hs⟩ :=
      readsThrough_under h hselects (v.countThrough filter workers) (hold hnode)
    rw [← hnew]
    exact ⟨s, hopen, (walks_cursor _).yields hs⟩
  case targets =>
    intro new old hnode
    rw [targets_under h hselects _ (hold hnode), hnew]
  case ascending =>
    intro new hlt
    exact hsound.ascending (hcount ▸ hlt)
  case count =>
    intro new old t u hnode ht
    rw [targets_under h hselects _ (hold hnode), count_filterMap_newOf? (hold ht)]
  case degree =>
    intro new hlt
    exact hsound.degree (hcount ▸ hlt)
  case degree_of_fits =>
    intro new hlt hfits
    rw [hsound.degree (hcount ▸ hlt), Nat.mod_eq_of_lt hfits]
  case relationshipCount_mod => exact hsound.relationshipCount_mod
  case relationshipCount =>
    intro hdegrees hfits
    rw [hsound.relationshipCount_of_fits hfits, targetCount, hcount]
    refine congrArg addUp (List.map_congr_left fun new hlt => ?_)
    exact (hsound.degree_of_fits hdegrees (hcount ▸ List.mem_range.mp hlt)).symm
  case weighted? =>
    intro new old hnode fallback
    obtain ⟨s, hopen, -⟩ := h.opens (hselects (hold hnode))
    obtain ⟨pairs, hpairs⟩ := exists_weighted? hopen fallback
    refine ⟨pairs, hpairs, ?_⟩
    rw [weighted?_under, hold hnode, Option.bind_some, hpairs, hnew]
    rfl
  case visitWeighted? =>
    intro new old hnode σ fallback consumer s
    rw [visitWeighted?, weighted?_under, hold hnode, Option.bind_some, Option.map_map, hnew]
    rfl
  case closed =>
    intro new hle
    have hnone : filter.oldOf? new = none := by
      rw [NodeFilter.oldOf?, ← Array.getElem?_toList, hnodes]
      exact List.getElem?_eq_none hle
    refine ⟨?_, fun fallback => ?_⟩
    · rw [openAt?_under, hnone]
      rfl
    · rw [weighted?_under, hnone]
      rfl

end View

namespace PropertyGraph

variable {g : PropertyGraph}

/-- A live graph puts a filter by known labels over a view of its nodes. -/
theorem withLabels_eq_ok (hlive : g.released = false) {v : View}
    (hnumbering : v.numbering = g.numbering) {labels : List String}
    (hknown : ∀ label ∈ labels, g.numbering.knowsLabel label = true) {workers : Nat}
    (hworkers : 0 < workers) (identity : Nat) :
    g.withLabels v identity labels workers =
      .ok (v.under ⟨g.numbering.select identity labels,
        v.countThrough (g.numbering.select identity labels) workers⟩) := by
  rw [withLabels, checkLive, hlive, if_neg Bool.false_ne_true, hnumbering]
  simp only [bind, Except.bind, ne_eq, not_true_eq_false, if_false,
    g.numbering.filter_eq_ok hknown identity]
  rw [View.filtered, checkWorkers_eq_ok hworkers]
  rfl

theorem selects_select {v : View} (hnumbering : v.numbering = g.numbering) (identity : Nat)
    (labels : List String) : View.Selects (g.numbering.select identity labels) v := by
  intro new old hold
  rw [View.nodeCount, hnumbering]
  exact Numbering.lt_of_oldOf?_select hold

/-- The result is what the nodes with at least one of the labels induce. -/
theorem exists_withLabels (hlive : g.released = false) {v : View} (hv : v.Loaded)
    (hnumbering : v.numbering = g.numbering) {labels : List String}
    (hknown : ∀ label ∈ labels, g.numbering.knowsLabel label = true) {workers : Nat}
    (hworkers : 0 < workers) (identity : Nat) :
    ∃ v', g.withLabels v identity labels workers = .ok v' ∧
      v'.Induced v (g.numbering.withSomeLabel labels) := by
  have hnodes := g.numbering.nodesWithAny_eq labels
  refine ⟨_, withLabels_eq_ok hlive hnumbering hknown hworkers identity,
    hv.sound.induced (selects_select hnumbering identity labels) hnodes ?_ ?_ workers⟩
  · intro new old hnode
    rw [hnumbering]
    exact Numbering.externalOf?_select hnode
  · intro new old hnode label
    rw [hnumbering]
    exact Numbering.hasLabel_select hnode label

end PropertyGraph

end PagedGraph
