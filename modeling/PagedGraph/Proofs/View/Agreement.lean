import PagedGraph.Proofs.View.Offered
import PagedGraph.Proofs.View.Visit

/-!
# Counting and iterating agree

A view answers what a node is related to in several ways: by a degree that is written down or
counted, by a cursor, by a search, and by calls to a consumer, with values and without.
`View.AgreesAt v node ts` says that all these answers are those of the list `ts`.

With their values the relationships come member after member (`View.Weighs`), so of a union they
are the list in another order.

The views of loaded tables agree at every node with the targets that they list, and their
relationships are as many as their degrees say (`View.ReadsTables.agrees`).  This is so of every
view that a built graph gives (`GraphLoader.views_agree`).

A degree is a word of 32 bits.  A node of a union can have more targets than such a word counts,
since a union adds up what its members have and may have a member twice.  Then the degree is what
is left of the number in 32 bits, and all other answers are as before.
-/

namespace PagedGraph

/-- Relationships of a node on one side, with their values: the targets in order, side by side with
what stepping through the values gives, or all with a fallback where there is no property. -/
structure SingleGraph.Weighs (g : SingleGraph) (fallback : Double) (node : Nat)
    (entries : List (Nat × Double)) : Prop where
  targets : entries.map Prod.fst = g.adjacency.targets node
  values : ∀ {values}, g.openValues? node = some values → values.Yields (entries.map Prod.snd)
  missing : g.values = none → ∀ entry ∈ entries, entry.2 = fallback

namespace View

/-- Relationships of a node of a view with their values: those of all members, one member after
another, and of these what passes the filters, under new ids. -/
inductive Weighs (fallback : Double) : View → Nat → List (Nat × Double) → Prop where
  | base {b : BaseGraph} {node : Nat} {parts : List (List (Nat × Double))}
    (hnode : node < b.numbering.nodeCount)
    (h : List.Forall₂ (fun member part => member.Weighs fallback node part) b.members parts) :
    Weighs fallback (.ofBase b) node parts.flatten
  | under {v : View} {layer : FilterLayer} {node old : Nat} {entries : List (Nat × Double)}
    (hold : layer.filter.oldOf? node = some old) (h : Weighs fallback v old entries) :
    Weighs fallback (v.under layer) node
      (entries.filterMap fun (target, value) => (layer.filter.newOf? target).map (·, value))

/-- All answers of a view about a node are those of a list of targets. -/
structure AgreesAt (v : View) (node : Nat) (ts : List Nat) : Prop where
  yields : ∃ c, v.openAt? node = some c ∧ v.cursor.Yields c ts
  targets : v.targets? node = some ts
  degree : v.degree? node = some (ts.length % UInt32.size)
  /-- A degree that fits in 32 bits is the number of targets. -/
  degree_of_fits : ts.length < UInt32.size → v.degree? node = some ts.length
  hasRelationship : ∀ target, v.hasRelationship? node target = some (decide (target ∈ ts))
  visits : Hands (v.visitTargets? node) ts
  /-- Stepping a cursor calls a consumer just so. -/
  steps : Hands (v.visitCursor? node) (ts.map (node, ·))
  /-- With their values the relationships of a union may come in another order. -/
  weighs : ∀ fallback, ∃ entries, v.Weighs fallback node entries ∧ (entries.map Prod.fst).Perm ts ∧
    (∀ g, v.base = .single g → entries.map Prod.fst = ts) ∧
    v.weighted? fallback node = some entries ∧
    Hands (v.visitWeighted? fallback node) entries ∧
    Hands (v.visitEach? fallback node) (entries.map (node, ·))

/-- A view agrees with the targets that it lists, at each of its nodes and in all. -/
structure Agrees (v : View) : Prop where
  nodes : ∀ {node}, node < v.nodeCount → v.AgreesAt node (v.targets node)
  /-- In 64 bits the relationships are as many as the targets. -/
  relationshipCount_mod : v.relationshipCount % UInt64.size = v.targetCount % UInt64.size
  /-- If all these numbers fit in their words, the relationships are as many as the degrees say. -/
  relationshipCount : v.DegreesFit → v.CountFits →
    v.relationshipCount = addUp ((List.range v.nodeCount).map v.degree)

end View

/-! ## Degrees and searches -/

namespace View

variable {v : View} {node : Nat}

/-- A node that opens has a degree. -/
theorem degree?_eq_some {c : BaseCursor} (hopen : v.openAt? node = some c) :
    v.degree? node = some (v.degree node) := by
  obtain ⟨root, hroot, -⟩ := Option.map_eq_some_iff.mp hopen
  rw [degree, degree?, targets?, hopen, hroot]
  split <;> rfl

/-- A search finds a target if it is in the list that the cursor stands for. -/
theorem hasRelationship?_eq {c : BaseCursor} {ts : List Nat} (hopen : v.openAt? node = some c)
    (hc : readsThrough v.layers c ts) (target : Nat) :
    v.hasRelationship? node target = some (decide (target ∈ ts)) := by
  have hascending := v.walks_cursor.ascending hc
  have hhead : (v.cursor.seekFrom target c).1 = (ts.filter (target ≤ ·)).head? := by
    rw [← dropWhile_lt_eq_filter hascending]
    exact (v.walks_cursor.seekFrom target hc).1
  rw [hasRelationship?, hopen, Option.map_some, hhead, Option.some_inj, Bool.eq_iff_iff,
    beq_iff_eq, decide_eq_true_iff]
  constructor
  · intro h
    exact List.mem_of_mem_filter (List.mem_of_mem_head? h)
  · intro hmem
    refine head?_eq_some_of_least (hascending.filter _) ?_ fun u hu => ?_
    · exact List.mem_filter.mpr ⟨hmem, decide_eq_true (Nat.le_refl _)⟩
    · exact of_decide_eq_true (List.mem_filter.mp hu).2

end View

/-! ## Values -/

theorem SingleGraph.ReadsTables.weighs {g : SingleGraph} (h : g.ReadsTables) (fallback : Double)
    {node : Nat} (hnode : node < g.numbering.nodeCount) :
    g.Weighs fallback node (g.weighted fallback node) := by
  have hopened : ∀ {values}, g.openValues? node = some values →
      g.weighted fallback node = (g.adjacency.targets node).zip values.toList := by
    intro values hvalues
    rw [weighted, hvalues]
  have hclosed : g.openValues? node = none →
      g.weighted fallback node = (g.adjacency.targets node).map (·, fallback) := by
    intro hvalues
    rw [weighted, hvalues]
  constructor
  case targets =>
    cases hvalues : g.openValues? node with
    | none =>
      rw [hclosed hvalues, List.map_map]
      exact List.map_id _
    | some values =>
      rw [hopened hvalues, List.map_fst_zip (Nat.le_of_eq (h.length_openValues hnode hvalues).symm)]
  case values =>
    intro values hvalues
    rw [hopened hvalues, List.map_snd_zip (Nat.le_of_eq (h.length_openValues hnode hvalues))]
    exact values.yields_toList
  case missing =>
    intro hnone entry hentry
    rw [hclosed (by rw [openValues?, hnone]; rfl)] at hentry
    obtain ⟨target, -, rfl⟩ := List.mem_map.mp hentry
    rfl

namespace View

variable {fallback : Double} {node : Nat}

/-- The relationships of a base are those of its members. -/
theorem weighs_ofBase {b : BaseGraph} (hnode : node < b.numbering.nodeCount)
    (h : ∀ member ∈ b.members, member.Weighs fallback node (member.weighted fallback node)) :
    (ofBase b).Weighs fallback node (b.weighted fallback node) := by
  rw [BaseGraph.weighted, List.flatMap_def]
  refine .base hnode ?_
  rw [List.forall₂_map_right_iff, List.forall₂_same]
  exact h

theorem weighted?_ofBase {b : BaseGraph} (hnode : node < b.numbering.nodeCount) :
    (ofBase b).weighted? fallback node = some (b.weighted fallback node) := by
  simp [weighted?, root?, ofBase, rootThrough?, weightedThrough, hnode]

/-- Without their values they are the targets of the members. -/
theorem map_fst_weighted {b : BaseGraph}
    (h : ∀ member ∈ b.members, member.Weighs fallback node (member.weighted fallback node)) :
    (b.weighted fallback node).map Prod.fst =
      b.members.flatMap fun member => member.adjacency.targets node := by
  rw [BaseGraph.weighted, List.map_flatMap]
  exact List.flatMap_congr fun member hmember => (h member hmember).targets

/-- What passes a filter has the targets that pass. -/
theorem map_fst_filterMap (filter : NodeFilter) (entries : List (Nat × Double)) :
    (entries.filterMap fun (target, value) => (filter.newOf? target).map (·, value)).map Prod.fst =
      (entries.map Prod.fst).filterMap filter.newOf? := by
  rw [List.map_filterMap, List.filterMap_map]
  refine congrArg (List.filterMap · entries) (funext fun (target, value) => ?_)
  rw [Option.map_map]
  exact Option.map_id' ..

namespace ReadsTables

variable {v : View}

/-- The relationships of a node with their values have the targets of the node. -/
theorem exists_weighs (h : v.ReadsTables) (fallback : Double) {node : Nat}
    (hnode : node < v.nodeCount) :
    ∃ entries, v.Weighs fallback node entries ∧ (entries.map Prod.fst).Perm (v.targets node) ∧
      (∀ g, v.base = .single g → entries.map Prod.fst = v.targets node) ∧
      v.weighted? fallback node = some entries := by
  induction h generalizing node with
  | @single sg h =>
    have hweighs : ∀ member ∈ (BaseGraph.single sg).members,
        member.Weighs fallback node (member.weighted fallback node) :=
      List.forall_mem_singleton.mpr (h.weighs fallback hnode)
    have htargets : ((BaseGraph.single sg).weighted fallback node).map Prod.fst =
        (ofSingle sg).targets node := by
      rw [map_fst_weighted hweighs, targets_ofSingle h.loaded.sound hnode]
      exact List.append_nil _
    exact ⟨_, weighs_ofBase hnode hweighs, .of_eq htargets, fun _ _ => htargets,
      weighted?_ofBase hnode⟩
  | @union first others hmembers hnumbering =>
    have hweighs : ∀ member ∈ (BaseGraph.union first others).members,
        member.Weighs fallback node (member.weighted fallback node) := fun member hmember =>
      (hmembers member hmember).weighs fallback (hnumbering member hmember ▸ hnode)
    have hstores := BaseGraph.stores_union
      (fun member hmember => (hmembers member hmember).loaded.sound) hnumbering
    refine ⟨_, weighs_ofBase hnode hweighs, ?_, nofun, weighted?_ofBase hnode⟩
    rw [map_fst_weighted hweighs, targets_ofBase hstores hnode]
    exact (List.mergeSort_perm ..).symm
  | @under v filter identity workers labels hv hfilter ih =>
    have hselects : Selects filter v := selects_of_filter hfilter
    obtain ⟨old, hold⟩ := NodeFilter.exists_oldOf? (nodeCount_under v filter _ ▸ hnode)
    obtain ⟨entries, hweighs, hperm, hsingle, hentries⟩ := ih (hselects hold)
    refine ⟨_, .under hold hweighs, ?_, fun g hg => ?_, ?_⟩
    · rw [map_fst_filterMap, targets_under hv.sound hselects _ hold]
      exact hperm.filterMap _
    · rw [map_fst_filterMap, targets_under hv.sound hselects _ hold, hsingle g hg]
    · rw [weighted?_under, hold, Option.bind_some, hentries, Option.map_some]

/-! ## Agreement -/

theorem agreesAt (h : v.ReadsTables) {node : Nat} (hnode : node < v.nodeCount) :
    v.AgreesAt node (v.targets node) := by
  have hsound := h.sound
  obtain ⟨c, hopen, hc⟩ := hsound.opens hnode
  have htargets := hsound.targets?_eq hnode
  constructor
  case yields => exact ⟨c, hopen, v.walks_cursor.yields hc⟩
  case targets => exact htargets
  case degree => rw [degree?_eq_some hopen, hsound.degree hnode]
  case degree_of_fits =>
    intro hfits
    rw [degree?_eq_some hopen, hsound.degree hnode, Nat.mod_eq_of_lt hfits]
  case hasRelationship => exact hasRelationship?_eq hopen hc
  case visits =>
    refine hands_of_visit fun consumer s => ?_
    rw [visitTargets?, htargets, Option.map_some]
  case steps =>
    refine hands_of_visit fun consumer s => ?_
    rw [hsound.visitCursor?_eq hnode, visitTargets?, htargets, Option.map_some, visit_map]
  case weighs =>
    intro fallback
    obtain ⟨entries, hweighs, hperm, hsingle, hentries⟩ := h.exists_weighs fallback hnode
    refine ⟨entries, hweighs, hperm, hsingle, hentries, hands_of_visit fun consumer s => ?_,
      hands_of_visit fun consumer s => ?_⟩
    · rw [visitWeighted?, hentries, Option.map_some]
    · rw [visitEach?_eq h.members, visitWeighted?, hentries, Option.map_some, ← visit_map]

/-- The views of loaded tables agree. -/
theorem agrees (h : v.ReadsTables) : v.Agrees where
  nodes := h.agreesAt
  relationshipCount_mod := h.sound.relationshipCount_mod
  relationshipCount hdegrees hcount := by
    rw [h.sound.relationshipCount_of_fits hcount]
    refine congrArg addUp (List.map_congr_left fun node hnode => ?_)
    exact (h.sound.degree_of_fits hdegrees (List.mem_range.mp hnode)).symm

end ReadsTables

end View

namespace GraphLoader

/-- The views of a built graph agree, and so do all that are put together of sides of loaded tables,
whoever owns the tables. -/
theorem views_agree :
    (∀ {b : GraphLoader} {identity : Nat} {g : PropertyGraph}, b.build identity = .ok g →
      ∀ {v : View}, g.Offers v → v.Agrees) ∧
    ∀ {v : View}, v.ReadsTables → v.Agrees :=
  ⟨fun h _ hv => (readsTables_of_offers h hv).agrees, fun hv => hv.agrees⟩

/-- One side with a property and the other without, as one. -/
theorem views_agree_mixed : ∃ g out inc base,
    (run { workers := 1 } parallelCalls).build 0 = .ok g ∧
    g.single "T" .outgoing (some "w") = .ok out ∧ g.single "T" .incoming none = .ok inc ∧
    BaseGraph.unite [out, inc] = .ok base ∧ (View.ofBase base).Agrees := by
  obtain ⟨g, hg, hsides⟩ := exists_build_parallelCalls
  obtain ⟨out, hout⟩ := hsides .outgoing nofun (some "w") (by simp)
  obtain ⟨inc, hinc⟩ := hsides .incoming nofun none nofun
  have hmembers : ∀ member ∈ [out, inc], g.HasSide member :=
    List.forall_mem_cons.mpr ⟨⟨_, _, _, hout⟩, List.forall_mem_singleton.mpr ⟨_, _, _, hinc⟩⟩
  have hunite : BaseGraph.unite [out, inc] = .ok (.union out [inc]) :=
    BaseGraph.unite_eq_ok fun member hmember => (hmembers member hmember).numbering.trans
      (hmembers out List.mem_cons_self).numbering.symm
  exact ⟨g, out, inc, _, hg, hout, hinc, hunite, views_agree.1 hg (.unite hmembers hunite)⟩

end GraphLoader

end PagedGraph
