import PagedGraph.Proofs.View.Offered

/-!
# Symmetric views

A view is symmetric if as many relationships lead from a node to another as back
(`View.Symmetric`).  A view that says that it is undirected is symmetric
(`View.ReadsTables.symmetric`): one side by the pairs that were stored, a union because each of its
members is, and under a filter as many relationships stay in both directions.

A union in both directions is symmetric although its members are not.  Each of its types adds its
outgoing relationships, and these turned round unless they are stored both ways anyway
(`GraphLoader.count_targets_both`).
-/

namespace PagedGraph

/-- As many relationships lead from a node to another as back. -/
def View.Symmetric (v : View) : Prop :=
  ∀ x y, x < v.nodeCount → y < v.nodeCount →
    ∃ ts us, v.targets? x = some ts ∧ v.targets? y = some us ∧ ts.count y = us.count x

/-! ## Undirected views -/

/-- A union has the targets that its members have, each as often as they do together. -/
theorem BaseGraph.count_unionTargets (members : List SingleGraph) (node t : Nat) :
    (unionTargets members node).count t =
      addUp (members.map fun g => (g.adjacency.targets node).count t) := by
  rw [unionTargets, (List.mergeSort_perm ..).count_eq]
  induction members with
  | nil => rfl
  | cons g members ih => rw [List.flatMap_cons, List.count_append, ih, List.map_cons, addUp_cons]

namespace View

variable {v : View}

theorem Sound.symmetric_of_count (h : v.Sound)
    (hcount : ∀ {x y}, x < v.nodeCount → y < v.nodeCount →
      (v.targets x).count y = (v.targets y).count x) : v.Symmetric :=
  fun _ _ hx hy => ⟨_, _, h.targets?_eq hx, h.targets?_eq hy, hcount hx hy⟩

theorem Symmetric.count_targets (h : v.Symmetric) {x y : Nat} (hx : x < v.nodeCount)
    (hy : y < v.nodeCount) : (v.targets x).count y = (v.targets y).count x := by
  obtain ⟨ts, us, hts, hus, hcount⟩ := h x y hx hy
  rw [targets, targets, hts, hus]
  exact hcount

/-- A filter keeps a view symmetric. -/
theorem Symmetric.under (h : v.Symmetric) (hsound : v.Sound) {filter : NodeFilter}
    (hselects : Selects filter v) (workers : Nat) :
    (v.under ⟨filter, v.countThrough filter workers⟩).Symmetric := by
  refine (hsound.under hselects workers).symmetric_of_count fun {x y} hx hy => ?_
  rw [nodeCount_under] at hx hy
  obtain ⟨oldX, holdX⟩ := NodeFilter.exists_oldOf? hx
  obtain ⟨oldY, holdY⟩ := NodeFilter.exists_oldOf? hy
  rw [targets_under hsound hselects _ holdX, targets_under hsound hselects _ holdY,
    count_filterMap_newOf? holdY, count_filterMap_newOf? holdX,
    h.count_targets (hselects holdX) (hselects holdY)]

/-- An undirected view is symmetric. -/
theorem ReadsTables.symmetric (h : v.ReadsTables) (hundirected : v.isUndirected = true) :
    v.Symmetric := by
  induction h with
  | @single sg h =>
    have hsound := h.loaded.sound
    have hside : sg.adjacency.isUndirected = true :=
      List.all_eq_true.mp hundirected sg List.mem_cons_self
    refine (sound_ofSingle hsound).symmetric_of_count fun {x y} hx hy => ?_
    rw [targets_ofSingle hsound hx, targets_ofSingle hsound hy]
    exact h.count_targets hside hx hy
  | @union first others hmembers hnumbering =>
    have hstores := BaseGraph.stores_union
      (fun member hmember => (hmembers member hmember).loaded.sound) hnumbering
    refine (sound_ofBase hstores).symmetric_of_count fun {x y} hx hy => ?_
    rw [targets_ofBase hstores hx, targets_ofBase hstores hy, BaseGraph.count_unionTargets,
      BaseGraph.count_unionTargets]
    refine congrArg addUp (List.map_congr_left fun member hmember => ?_)
    have hside : member.adjacency.isUndirected = true :=
      List.all_eq_true.mp hundirected member hmember
    exact (hmembers member hmember).count_targets hside (hnumbering member hmember ▸ hx)
      (hnumbering member hmember ▸ hy)
  | under hv hfilter ih => exact (ih hundirected).under hv.sound (selects_of_filter hfilter) _

end View

/-! ## Both directions -/

/-- The incoming side of a type holds its relationships turned round. -/
theorem TypeTables.Holds.transposed_incoming {t : TypeTables} {p : Projection} {n : Nat}
    {arrivals : List Arrival} (h : t.Holds p n arrivals) {type : String} {adjacency : Adjacency}
    {values : List (String × ValueTable)} {inverse : Bool}
    (hside : PropertyGraph.side type t .incoming = .ok (adjacency, values, inverse)) :
    ∃ pairs stored, TransposedPairs p.pairs pairs ∧
      SideHolds p n (Arrival.rows pairs arrivals) stored adjacency values := by
  rw [PropertyGraph.side] at hside
  split at hside
  · next hundirected =>
    cases hside
    rw [h.isUndirected, decide_eq_true_eq] at hundirected
    obtain ⟨stored, hstored⟩ := h.outgoing
    exact ⟨_, stored, Projection.transposedPairs_undirected hundirected, hstored⟩
  · cases hincoming : t.incoming with
    | none =>
      rw [hincoming] at hside
      cases hside
    | some inverse =>
      rw [hincoming] at hside
      cases hside
      have hinverse : p.storesInverse = true := by rw [← h.isSome_incoming, hincoming]; rfl
      obtain ⟨-, stored, hstored⟩ := h.incoming hincoming
      exact ⟨_, stored, Projection.transposedPairs_inverse hinverse, hstored⟩

/-- How many relationships of a type lead from a node to another, on the outgoing side. -/
def PropertyGraph.outgoingCount (g : PropertyGraph) (type : String) (x y : Nat) : Nat :=
  match g.single type .outgoing none with
  | .ok out => ((View.ofSingle out).targets x).count y
  | .error _ => 0

namespace GraphLoader

variable {b : GraphLoader} {identity : Nat} {g : PropertyGraph}

/-- How many relationships from a node to another a type adds to a union in both directions: those
that lead there and those that lead back, or only the former if they are stored both ways. -/
def bothCount (b : GraphLoader) (g : PropertyGraph) (x y : Nat) (type : String) : Nat :=
  if (b.projectionOf type).orientation = .undirected then g.outgoingCount type x y
  else g.outgoingCount type x y + g.outgoingCount type y x

/-- The outgoing side of a type, and its incoming side turned round. -/
theorem count_targets_single (h : b.build identity = .ok g) {type : String}
    {out : SingleGraph} (hout : g.single type .outgoing none = .ok out) :
    out.adjacency.isUndirected = decide ((b.projectionOf type).orientation = .undirected) ∧
    ∀ {x y}, x < g.nodeCount → y < g.nodeCount →
      (out.adjacency.targets x).count y = g.outgoingCount type x y ∧
      ∀ {inc}, g.single type .incoming none = .ok inc →
        (inc.adjacency.targets x).count y = g.outgoingCount type y x := by
  have htype : type ∈ g.typeNames := by
    rw [PropertyGraph.typeNames, mem_sortedNames]
    exact PropertyGraph.mem_names_of_single hout
  obtain ⟨hvalid, tables, arrivals, hg, hloaded, hholds⟩ := exists_holds_of_build h htype
  obtain ⟨_, _, _, hrequest, hreads⟩ := PropertyGraph.reads_of_single_eq_ok hg.live hg.tables hout
  cases hrequest
  have hnumbering := hreads.numbering
  have hcount : ∀ {x y}, x < g.nodeCount →
      (out.adjacency.targets x).count y = g.outgoingCount type x y := by
    intro x y hx
    rw [PropertyGraph.outgoingCount, hout]
    show _ = ((View.ofSingle out).targets x).count y
    rw [View.targets_ofSingle (hg.sound_single hloaded hout) (hnumbering ▸ hx)]
  refine ⟨by rw [hreads.adjacency, hholds.isUndirected], fun {x y} hx hy => ⟨hcount hx, ?_⟩⟩
  intro inc hinc
  obtain ⟨adjacency, values, inverse, hrequest, hreads'⟩ :=
    PropertyGraph.reads_of_single_eq_ok hg.live hg.tables hinc
  obtain ⟨stored, hside⟩ := hholds.outgoing
  obtain ⟨pairs, stored', hpairs, hside'⟩ := hholds.transposed_incoming hrequest
  rw [← hcount hy, hreads.adjacency, hreads'.adjacency]
  exact (hside.count_targets_eq hvalid hpairs hside' hy hx).symm

/-- What a type adds to a union in both directions. -/
theorem addUp_count_unionMembers (h : b.build identity = .ok g) {type : String}
    {members : List SingleGraph}
    (hmembers : g.unionMembers .both type = .ok members) {x y : Nat} (hx : x < g.nodeCount)
    (hy : y < g.nodeCount) :
    addUp (members.map fun member => (member.adjacency.targets x).count y) =
      b.bothCount g x y type := by
  obtain ⟨out, hout, hcases⟩ := PropertyGraph.of_unionMembers_both hmembers
  obtain ⟨horientation, hcount⟩ := count_targets_single h hout
  obtain ⟨hforward, hback⟩ := hcount hx hy
  rw [bothCount, ← hforward]
  rcases hcases with ⟨hundirected, rfl⟩ | ⟨hdirected, inc, hinc, rfl⟩
  · rw [hundirected] at horientation
    rw [if_pos (of_decide_eq_true horientation.symm)]
    rfl
  · rw [hdirected] at horientation
    rw [if_neg (of_decide_eq_false horientation.symm), ← hback hinc]
    rfl

/-- What some types add, one after another. -/
theorem addUp_count_flatten (h : b.build identity = .ok g) {types : List String}
    {added : List (List SingleGraph)}
    (hadded : List.Forall₂ (fun type members => g.unionMembers .both type = .ok members) types
      added)
    {x y : Nat} (hx : x < g.nodeCount) (hy : y < g.nodeCount) :
    addUp (added.flatten.map fun member => (member.adjacency.targets x).count y) =
      addUp (types.map (b.bothCount g x y)) := by
  induction hadded with
  | nil => rfl
  | cons hmembers _ ih =>
    rw [List.flatten_cons, List.map_append, addUp_append, List.map_cons, addUp_cons, ih,
      addUp_count_unionMembers h hmembers hx hy]

/-- A union in both directions has from a node to another what its types add. -/
theorem count_targets_both (h : b.build identity = .ok g) {types : List String}
    {base : BaseGraph} (hbase : g.union types .both = .ok base) {x y : Nat}
    (hx : x < g.nodeCount) (hy : y < g.nodeCount) :
    ∃ ts, (View.ofBase base).targets? x = some ts ∧
      ts.count y = addUp (types.map (b.bothCount g x y)) := by
  have hview := (readsTables_of_offers h (.union hbase)).sound
  obtain ⟨first, others, added, hadded, hflatten, rfl, hmembers⟩ :=
    PropertyGraph.exists_members_of_union hbase
  have hnumbering : first.numbering = g.numbering := (hmembers first List.mem_cons_self).numbering
  have hstores := BaseGraph.stores_union
    (fun member hmember => (readsTables_of_hasSide h (hmembers member hmember)).loaded.sound)
    fun member hmember => (hmembers member hmember).numbering.trans hnumbering.symm
  have hnode : x < first.numbering.nodeCount := hnumbering ▸ hx
  refine ⟨_, hview.targets?_eq hnode, ?_⟩
  rw [View.targets_ofBase hstores hnode, BaseGraph.count_unionTargets, ← hflatten,
    addUp_count_flatten h hadded hx hy]

/-- What a type adds from a node to another it also adds back. -/
theorem bothCount_comm (h : b.build identity = .ok g) {type : String}
    {out : SingleGraph} (hout : g.single type .outgoing none = .ok out) {x y : Nat}
    (hx : x < g.nodeCount) (hy : y < g.nodeCount) :
    b.bothCount g x y type = b.bothCount g y x type := by
  obtain ⟨horientation, hcount⟩ := count_targets_single h hout
  rw [bothCount, bothCount]
  split
  · next hundirected =>
    have hnodes : out.numbering.nodeCount = g.nodeCount :=
      congrArg _ (PropertyGraph.HasSide.numbering ⟨_, _, _, hout⟩)
    have hsymmetric := (readsTables_of_hasSide h ⟨_, _, _, hout⟩).count_targets
      (horientation.trans (decide_eq_true hundirected)) (hnodes ▸ hx) (hnodes ▸ hy)
    rwa [(hcount hx hy).1, (hcount hy hx).1] at hsymmetric
  · exact Nat.add_comm ..

/-- A view that says that it is undirected is symmetric.  A union in both directions is so whatever
it says: each of its types adds what leads from a node to another and back, or the former alone if
the type is stored both ways. -/
theorem views_symmetric (h : b.build identity = .ok g) :
    (∀ {v : View}, g.Offers v → v.isUndirected = true → v.Symmetric) ∧
    ∀ {types : List String} {base : BaseGraph}, g.union types .both = .ok base →
      (View.ofBase base).Symmetric ∧
      (∀ type ∈ types, ∃ out, g.single type .outgoing none = .ok out) ∧
      ∀ {x y}, x < g.nodeCount → y < g.nodeCount → ∃ ts,
        (View.ofBase base).targets? x = some ts ∧
          ts.count y = addUp (types.map (b.bothCount g x y)) := by
  refine ⟨fun hv hundirected => (readsTables_of_offers h hv).symmetric hundirected, ?_⟩
  intro types base hbase
  obtain ⟨first, others, added, hadded, -, rfl, hmembers⟩ :=
    PropertyGraph.exists_members_of_union hbase
  have hsingle : ∀ type ∈ types, ∃ out, g.single type .outgoing none = .ok out := by
    intro type htype
    obtain ⟨members, -, hadds⟩ := exists_of_mem_right hadded.flip htype
    obtain ⟨out, hout, -⟩ := PropertyGraph.of_unionMembers_both hadds
    exact ⟨out, hout⟩
  have hcount := fun {x y} => count_targets_both h hbase (x := x) (y := y)
  refine ⟨fun x y hx hy => ?_, hsingle, hcount⟩
  have hnodes : (View.ofBase (.union first others)).nodeCount = g.nodeCount :=
    congrArg _ (hmembers first List.mem_cons_self).numbering
  rw [hnodes] at hx hy
  obtain ⟨ts, hts, hforward⟩ := hcount hx hy
  obtain ⟨us, hus, hback⟩ := hcount hy hx
  refine ⟨ts, us, hts, hus, ?_⟩
  rw [hforward, hback]
  refine congrArg addUp (List.map_congr_left fun type htype => ?_)
  obtain ⟨out, hout⟩ := hsingle type htype
  exact bothCount_comm h hout hx hy

/-- A directed type, listed twice. -/
theorem views_symmetric_repeated : ∃ g base,
    (run { workers := 1 } parallelCalls).build 0 = .ok g ∧ g.union ["T", "T"] .both = .ok base ∧
      (View.ofBase base).isUndirected = false ∧ (View.ofBase base).Symmetric := by
  obtain ⟨g, hg, hsides⟩ := exists_build_parallelCalls
  obtain ⟨out, hout⟩ := hsides .outgoing nofun none nofun
  obtain ⟨inc, hinc⟩ := hsides .incoming nofun none nofun
  have hdirected : out.adjacency.isUndirected = false :=
    (count_targets_single hg hout).1.trans (by decide)
  have hadds : g.unionMembers .both "T" = .ok [out, inc] := by
    rw [PropertyGraph.unionMembers, hout]
    simp [bind, Except.bind, hdirected, hinc, pure, Except.pure]
  have hmembers : ∀ member ∈ [out, inc, out, inc], member.numbering = out.numbering := by
    have hnumbering : inc.numbering = out.numbering :=
      (PropertyGraph.HasSide.numbering ⟨_, _, _, hinc⟩).trans
        (PropertyGraph.HasSide.numbering ⟨_, _, _, hout⟩).symm
    simp [hnumbering]
  have hunion : g.union ["T", "T"] .both = .ok (.union out [inc, out, inc]) :=
    PropertyGraph.union_eq_ok_iff.mpr
      ⟨[[out, inc], [out, inc]], .cons hadds (.cons hadds .nil), BaseGraph.unite_eq_ok hmembers⟩
  refine ⟨g, _, hg, hunion, ?_, ((views_symmetric hg).2 hunion).1⟩
  simp [View.isUndirected, View.ofBase, BaseGraph.isUndirected, BaseGraph.members, hdirected]

end GraphLoader

end PagedGraph
