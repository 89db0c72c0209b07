import PagedGraph.Proofs.Load.Rearranged
import PagedGraph.Proofs.Load.Transpose
import PagedGraph.Proofs.View.Reload

/-!
# Neighbors in external ids

What was given to a loader in external ids is read from the graph in external ids: as neighbors of
a node (`View.neighbors?`).  `Projection.multiplicity` counts the relationships that lead from a
node to another by the rules of the projection, and `View.Shows` says that the neighbors of a view
are counted like this.

* A relationship is stored as pairs of internal ids just as it would be as pairs of external ones
  (`Projection.count_pairs_congr`), so the rows of a node lead to another as often as the
  relationships ask for (`Arrival.count_rows`).
* The graph that is built of accepted calls shows all relationships of the calls and no others,
  and it is the same for the nodes in any order (`GraphLoader.build_keeps_calls`).
-/

namespace PagedGraph

namespace Numbering

variable {m : Numbering}

/-- A later node has a larger external id. -/
theorem getD_externalIds_le {i j : Nat} (hij : i ≤ j) (hj : j < m.nodeCount) :
    m.externalIds.getD i 0 ≤ m.externalIds.getD j 0 := by
  rcases Nat.eq_or_lt_of_le hij with rfl | hlt
  · exact Nat.le_refl _
  · have hpair : [i, j].Pairwise (· < ·) := List.pairwise_pair.mpr hlt
    have hnames := m.pairwise_externalIds hpair
      (List.forall_mem_cons.mpr ⟨Nat.lt_trans hlt hj, List.forall_mem_singleton.mpr hj⟩)
    exact Nat.le_of_lt (List.pairwise_pair.mp hnames)

/-- An external id stands among the names of some nodes as often as its node among them. -/
theorem count_map_externalIds {ts : List Nat} (hts : ∀ t ∈ ts, t < m.nodeCount) {j y : Nat}
    (hj : m.externalOf? j = some y) :
    (ts.map fun t => m.externalIds.getD t 0).count y = ts.count j := by
  rw [List.count_eq_countP, List.countP_map, List.count_eq_countP]
  refine List.countP_congr fun t ht => ?_
  simpa using (eq_iff_of_externalOf? (externalOf?_eq_getD (hts t ht)) hj).symm

theorem count_map_externalIds_eq_zero {ts : List Nat} (hts : ∀ t ∈ ts, t < m.nodeCount) {y : Nat}
    (hy : m.internalOf? y = none) : (ts.map fun t => m.externalIds.getD t 0).count y = 0 := by
  refine List.count_eq_zero.mpr fun hmem => ?_
  obtain ⟨t, ht, rfl⟩ := List.mem_map.mp hmem
  rw [(m.internalOf?_eq_some_iff).mpr (externalOf?_eq_getD (hts t ht))] at hy
  cases hy

end Numbering

/-! ## What relationships ask for -/

/-- How many of some relationships are given from a node to another. -/
def between (rs : List Relationship) (source target : Nat) : Nat :=
  rs.countP fun r => r.source = source ∧ r.target = target

namespace Projection

variable (p : Projection)

/-- How many of some relationships lead from a node to another when they are projected. -/
def multiplicity (rs : List Relationship) (x y : Nat) : Nat :=
  if x = y ∧ p.selfLoops = .drop then 0
  else
    match p.orientation with
    | .natural => between rs x y
    | .reverse => between rs y x
    | .undirected => if x = y then between rs x x else between rs x y + between rs y x

/-- How many are left, at most one unless the aggregation of the relationships, keeping them where
none is chosen, is to keep parallel ones. -/
def storedMultiplicity (rs : List Relationship) (x y : Nat) : Nat :=
  if p.aggregation.orKeep = .keep then p.multiplicity rs x y else min 1 (p.multiplicity rs x y)

variable {p}

theorem between_cons (r : Relationship) (rs : List Relationship) (x y : Nat) :
    between (r :: rs) x y = (if r.source = x ∧ r.target = y then 1 else 0) + between rs x y := by
  rw [between, List.countP_cons, Nat.add_comm]
  simp [between]

theorem multiplicity_nil {x y : Nat} : p.multiplicity [] x y = 0 := by
  rw [multiplicity]
  cases p.orientation <;> simp [between]

/-- One more relationship leads from a node to another as often as it is stored as this pair. -/
theorem multiplicity_cons (r : Relationship) (rs : List Relationship) (x y : Nat) :
    p.multiplicity (r :: rs) x y =
      (p.pairs r.source r.target).count (x, y) + p.multiplicity rs x y := by
  rw [multiplicity, multiplicity, pairs, apply_ite (List.count (x, y))]
  simp only [between_cons]
  cases p.orientation with
  | natural =>
    simp only [List.count_cons, List.count_nil, beq_iff_eq, Prod.mk.injEq]
    grind
  | reverse =>
    simp only [List.count_cons, List.count_nil, beq_iff_eq, Prod.mk.injEq]
    grind
  | undirected =>
    simp only [apply_ite (List.count (x, y)), List.count_cons, List.count_nil, beq_iff_eq,
      Prod.mk.injEq]
    grind

/-- A relationship is stored as a pair as often under other names. -/
theorem count_pairs_congr {s t x y s' t' x' y' : Nat} (hst : s = t ↔ s' = t')
    (hsx : s = x ↔ s' = x') (hsy : s = y ↔ s' = y') (htx : t = x ↔ t' = x')
    (hty : t = y ↔ t' = y') : (p.pairs s t).count (x, y) = (p.pairs s' t').count (x', y') := by
  rw [pairs, pairs]
  simp only [hst]
  split
  · rfl
  · cases p.orientation with
    | natural => simp [List.count_cons, hsx, hty]
    | reverse => simp [List.count_cons, htx, hsy]
    | undirected =>
      simp only
      split <;> simp [List.count_cons, hsx, hsy, htx, hty]

/-- What leads from a node to another is given between them. -/
theorem exists_of_multiplicity_pos {rs : List Relationship} {x y : Nat}
    (h : 0 < p.multiplicity rs x y) : ∃ r ∈ rs,
      (x = r.source ∧ y = r.target) ∨ (x = r.target ∧ y = r.source) := by
  induction rs with
  | nil =>
    rw [multiplicity_nil] at h
    cases h
  | cons r rs ih =>
    rw [multiplicity_cons] at h
    rcases Nat.eq_zero_or_pos ((p.pairs r.source r.target).count (x, y)) with hzero | hpos
    · obtain ⟨r', hr', hends⟩ := ih (by rwa [hzero, Nat.zero_add] at h)
      exact ⟨r', List.mem_cons_of_mem _ hr', hends⟩
    · exact ⟨r, List.mem_cons_self, mem_pairs (List.count_pos_iff.mp hpos)⟩

/-- The order in which relationships are given does not matter. -/
theorem storedMultiplicity_eq_of_perm {rs rs' : List Relationship} (h : rs.Perm rs') :
    p.storedMultiplicity rs = p.storedMultiplicity rs' := by
  have hbetween : between rs = between rs' :=
    funext fun x => funext fun y => h.countP_eq _
  funext x y
  rw [storedMultiplicity, storedMultiplicity, multiplicity, multiplicity, hbetween]

end Projection

/-! ## What nodes are given -/

/-- A target is stored as often as it comes, or once. -/
theorem Projection.count_stored (p : Projection) (ts : List Nat) (t : Nat) :
    (p.stored ts).count t =
      if p.aggregation.orKeep = .keep then ts.count t else min 1 (ts.count t) := by
  rw [stored]
  split
  · exact (List.mergeSort_perm ..).count_eq t
  · rw [(List.mergeSort_perm ..).count_eq, List.count_dedup]
    split
    · next ht => exact (Nat.min_eq_left (List.count_pos_iff.mpr ht)).symm
    · next ht => rw [List.count_eq_zero.mpr ht, Nat.min_zero]

namespace Arrival

variable {m : Numbering} {p : Projection}

/-- The rows of a node lead to another as often as the relationships ask for. -/
theorem count_rows {rs : List Relationship} {arrivals : List Arrival}
    (h : rs.mapM (ofRelationship m p) = .ok arrivals) {i j x y : Nat}
    (hi : m.externalOf? i = some x) (hj : m.externalOf? j = some y) :
    ((rows p.pairs arrivals i).map Row.target).count j = p.multiplicity rs x y := by
  have hresolved := mapM_eq_ok_iff.mp h
  clear h
  induction hresolved with
  | nil => exact p.multiplicity_nil.symm
  | @cons r a rs arrivals hr _ ih =>
    obtain ⟨hsource, htarget, -⟩ := ofRelationship_eq_ok_iff.mp hr
    rw [m.internalOf?_eq_some_iff] at hsource htarget
    rw [rows_cons, List.map_append, List.count_append, ih, Projection.multiplicity_cons,
      ← Row.length_rowsTo, Row.rowsTo_ofPairs, List.length_replicate]
    have hsame := @Numbering.eq_iff_of_externalOf? m
    exact congrArg (· + _) (Projection.count_pairs_congr (hsame hsource htarget)
      (hsame hsource hi) (hsame hsource hj) (hsame htarget hi) (hsame htarget hj))

end Arrival

/-! ## Neighbors -/

namespace View

/-- The neighbors of a node of a view, in external ids. -/
def neighbors? (v : View) (x : Nat) : Option (List Nat) := do
  let node ← v.numbering.internalOf? x
  let targets ← v.targets? node
  targets.mapM v.numbering.externalOf?

/-- A view shows relationships between the nodes with some ids: a node has its neighbors in
ascending order, and each of them as often as is given. -/
structure Shows (v : View) (ids : List Nat) (count : Nat → Nat → Nat) : Prop where
  isSome_iff : ∀ {x}, (v.neighbors? x).isSome ↔ x ∈ ids
  ascending : ∀ {x ys}, v.neighbors? x = some ys → ys.Pairwise (· ≤ ·)
  count_eq : ∀ x y, ((v.neighbors? x).getD []).count y = count x y

variable {v w : View}

theorem neighbors?_eq_none {x : Nat} (h : v.numbering.internalOf? x = none) :
    v.neighbors? x = none := by
  rw [neighbors?, h]
  rfl

/-- A node has as neighbors its targets under their external ids. -/
theorem Sound.neighbors?_eq (h : v.Sound) {x node : Nat}
    (hnode : v.numbering.internalOf? x = some node) :
    v.neighbors? x = some ((v.targets node).map fun t => v.numbering.externalIds.getD t 0) := by
  have hlt : node < v.nodeCount :=
    Numbering.lt_of_externalOf? ((v.numbering.internalOf?_eq_some_iff).mp hnode)
  have hnames : ∀ {ts : List Nat}, (∀ t ∈ ts, t < v.nodeCount) → ts.mapM v.numbering.externalOf? =
      some (ts.map fun t => v.numbering.externalIds.getD t 0) := by
    intro ts hts
    induction ts with
    | nil => rfl
    | cons t ts ih =>
      obtain ⟨ht, hts⟩ := List.forall_mem_cons.mp hts
      rw [List.mapM_cons, Numbering.externalOf?_eq_getD ht, ih hts]
      rfl
  rw [neighbors?, hnode]
  show (v.targets? node >>= _) = _
  rw [h.targets?_eq hlt]
  exact hnames fun t ht => h.bounded hlt ht

/-- A view shows as many relationships as its nodes have targets. -/
theorem Sound.shows (h : v.Sound) {ids : List Nat}
    (hids : ∀ {x}, x ∈ ids ↔ ∃ node, v.numbering.internalOf? x = some node)
    {count : Nat → Nat → Nat}
    (hcount : ∀ {i j x y}, v.numbering.externalOf? i = some x → v.numbering.externalOf? j = some y →
      (v.targets i).count j = count x y)
    (habsent : ∀ {x y}, x ∉ ids ∨ y ∉ ids → count x y = 0) : v.Shows ids count := by
  have hnot : ∀ {x}, x ∉ ids → v.numbering.internalOf? x = none := fun hx =>
    Option.eq_none_iff_forall_ne_some.mpr fun node hnode => hx (hids.mpr ⟨node, hnode⟩)
  have hnone : ∀ {x}, x ∉ ids → v.neighbors? x = none := fun hx => neighbors?_eq_none (hnot hx)
  have hnode : ∀ {x}, x ∈ ids → ∃ i, v.numbering.externalOf? i = some x ∧ i < v.nodeCount ∧
      v.neighbors? x = some ((v.targets i).map fun t => v.numbering.externalIds.getD t 0) := by
    intro x hx
    obtain ⟨i, hi⟩ := hids.mp hx
    have hexternal := (v.numbering.internalOf?_eq_some_iff).mp hi
    exact ⟨i, hexternal, Numbering.lt_of_externalOf? hexternal, h.neighbors?_eq hi⟩
  constructor
  case isSome_iff =>
    intro x
    by_cases hx : x ∈ ids
    · obtain ⟨i, -, -, hys⟩ := hnode hx
      exact iff_of_true (hys ▸ rfl) hx
    · exact iff_of_false (by simp [hnone hx]) hx
  case ascending =>
    intro x ys hys
    by_cases hx : x ∈ ids
    · obtain ⟨i, -, hi, hys'⟩ := hnode hx
      obtain rfl := Option.some.inj (hys.symm.trans hys')
      refine List.pairwise_map.mpr ((h.ascending hi).imp_of_mem fun _ hb hab => ?_)
      exact Numbering.getD_externalIds_le hab (h.bounded hi hb)
    · rw [hnone hx] at hys
      cases hys
  case count_eq =>
    intro x y
    by_cases hx : x ∈ ids
    · obtain ⟨i, hexternal, hi, hys⟩ := hnode hx
      have hbounded : ∀ t ∈ v.targets i, t < v.nodeCount := fun t ht => h.bounded hi ht
      rw [hys, Option.getD_some]
      by_cases hy : y ∈ ids
      · obtain ⟨j, hj, -⟩ := hnode hy
        rw [Numbering.count_map_externalIds hbounded hj, hcount hexternal hj]
      · rw [Numbering.count_map_externalIds_eq_zero hbounded (hnot hy), habsent (Or.inr hy)]
    · rw [hnone hx, habsent (Or.inl hx)]
      rfl

/-- Views of one numbering with the same targets have the same neighbors. -/
theorem neighbors?_congr (hinternal : v.numbering.internalOf? = w.numbering.internalOf?)
    (hexternal : v.numbering.externalOf? = w.numbering.externalOf?)
    (htargets : v.targets? = w.targets?) : v.neighbors? = w.neighbors? := by
  funext x
  rw [neighbors?, hinternal, hexternal, htargets, neighbors?]

theorem Sound.targets?_eq_none (h : v.Sound) {node : Nat} (hnode : v.nodeCount ≤ node) :
    v.targets? node = none := by
  rw [targets?, h.closed hnode]
  rfl

/-- Views of two sides with the same targets are read alike. -/
theorem targets?_ofSingle_congr {sg sg' : SingleGraph} (h : sg.Sound) (h' : sg'.Sound)
    (hcount : sg.numbering.nodeCount = sg'.numbering.nodeCount)
    (htargets : ∀ {node}, node < sg.numbering.nodeCount →
      sg.adjacency.targets node = sg'.adjacency.targets node) :
    (ofSingle sg).targets? = (ofSingle sg').targets? := by
  have hview : (ofSingle sg).Sound := sound_ofSingle h
  have hview' : (ofSingle sg').Sound := sound_ofSingle h'
  funext node
  rcases Nat.lt_or_ge node sg.numbering.nodeCount with hlt | hle
  · rw [hview.targets?_eq hlt, hview'.targets?_eq (Nat.lt_of_lt_of_eq hlt hcount),
      targets_ofSingle h hlt, targets_ofSingle h' (Nat.lt_of_lt_of_eq hlt hcount), htargets hlt]
  · rw [hview.targets?_eq_none hle,
      hview'.targets?_eq_none (Nat.le_trans (Nat.le_of_eq hcount.symm) hle)]

end View

/-! ## Built graphs -/

/-- Two graphs with the same nodes, the same columns, and the same neighbors on every side of every
type.  Their numberings may be known by different numbers. -/
structure PropertyGraph.SameContents (g g' : PropertyGraph) : Prop where
  numbering : g'.numbering = { g.numbering with identity := g'.numbering.identity }
  column : ∀ key, g.columns.get? key = g'.columns.get? key
  keys : g.columns.keys = g'.columns.keys
  keysOf : ∀ label, g.columns.keysOf label = g'.columns.keysOf label
  typeNames : g.typeNames = g'.typeNames
  neighbors : ∀ {type direction sg}, g.single type direction none = .ok sg →
    ∃ sg', g'.single type direction none = .ok sg' ∧
      (View.ofSingle sg).neighbors? = (View.ofSingle sg').neighbors?

/-- A type of which there is a view has tables. -/
theorem PropertyGraph.mem_names_of_single {g : PropertyGraph} {type : String}
    {direction : Direction} {key : Option String} {sg : SingleGraph}
    (h : g.single type direction key = .ok sg) : type ∈ names g.types := by
  rw [single] at h
  obtain ⟨tables, htables, -⟩ := bind_eq_ok h
  rw [tablesOf] at htables
  obtain ⟨_, -, htables⟩ := bind_eq_ok htables
  cases hlookup : g.types.lookup type with
  | none =>
    rw [hlookup] at htables
    cases htables
  | some tables => exact mem_names_iff.mpr ⟨tables, hlookup⟩

namespace SideHolds

variable {p : Projection} {n : Nat} {pairs : Nat → Nat → List (Nat × Nat)}
  {arrivals arrivals' : List Arrival} {stored stored' : Nat → List Row}
  {adjacency adjacency' : Adjacency} {values values' : List (String × ValueTable)}

/-- A side that holds the same relationships in another order has the same targets. -/
theorem targets_eq_of_perm (h : SideHolds p n (Arrival.rows pairs arrivals) stored adjacency values)
    (h' : SideHolds p n (Arrival.rows pairs arrivals') stored' adjacency' values')
    (hperm : arrivals.Perm arrivals') {node : Nat} (hnode : node < n) :
    adjacency.targets node = adjacency'.targets node := by
  rw [h.adjacency.targets_eq hnode, h'.adjacency.targets_eq hnode, h.map_target, h'.map_target,
    Arrival.storedTargets_rows_eq_of_perm hperm]

/-- A side has a target as often as the relationships that it was loaded from ask for. -/
theorem count_targets_eq_storedMultiplicity {m : Numbering}
    (h : SideHolds p m.nodeCount (Arrival.rows p.pairs arrivals) stored adjacency values)
    {rs : List Relationship} (hrs : rs.mapM (Arrival.ofRelationship m p) = .ok arrivals)
    {i j x y : Nat} (hi : m.externalOf? i = some x) (hj : m.externalOf? j = some y) :
    (adjacency.targets i).count j = p.storedMultiplicity rs x y := by
  rw [h.adjacency.targets_eq (Numbering.lt_of_externalOf? hi), h.map_target, ← p.stored_eq,
    p.count_stored, Arrival.count_rows hrs hi hj, Projection.storedMultiplicity]

end SideHolds

namespace GraphLoader

variable {b b' : GraphLoader} {calls calls' : List LoadCall}

/-- Nothing leads from or to what is no node. -/
theorem Gathers.storedMultiplicity_eq_zero (h : b.Gathers calls) {identity : Nat}
    {g : PropertyGraph} (hg : b.build identity = .ok g) (p : Projection) (type : String) {x y : Nat}
    (hxy : x ∉ b.ids ∨ y ∉ b.ids) : p.storedMultiplicity (relationshipsOf calls type) x y = 0 := by
  have hzero : p.multiplicity (relationshipsOf calls type) x y = 0 := by
    refine Nat.eq_zero_of_not_pos fun hpos => ?_
    obtain ⟨r, hr, hends⟩ := Projection.exists_of_multiplicity_pos hpos
    obtain ⟨hsource, htarget⟩ := h.ends_mem_ids hg hr
    rcases hends with ⟨rfl, rfl⟩ | ⟨rfl, rfl⟩
    · exact hxy.elim (· hsource) (· htarget)
    · exact hxy.elim (· htarget) (· hsource)
  rw [Projection.storedMultiplicity, hzero, Nat.min_zero, ite_self]

/-- A view of the outgoing side of a type shows the relationships that the calls gave. -/
theorem Gathers.exists_shows (h : b.Gathers calls) {identity : Nat} {g : PropertyGraph}
    (hg : b.build identity = .ok g) {type : String}
    (htype : mentionsType calls type = true) :
    ∃ sg, g.single type .outgoing none = .ok sg ∧
      (View.ofSingle sg).Shows ((nodesOf calls).map (·.id))
        (((lastProjection? calls type).getD {}).storedMultiplicity
          (relationshipsOf calls type)) := by
  obtain ⟨rs, hrs⟩ := PagedGraph.mem_names_iff.mp (h.mem_names_iff.mpr htype)
  obtain ⟨-, tables, arrivals, htables, harrivals, hloaded, hholds⟩ :=
    exists_arrivals_of_build hg hrs
  obtain ⟨hlive, hm, -⟩ := of_build_eq_ok hg
  obtain ⟨stored, hside⟩ := hholds.outgoing
  obtain ⟨sg, hsg, hreads⟩ : ∃ sg, g.single type .outgoing none = .ok sg ∧
      sg.Reads g.numbering tables.outgoing tables.outgoingValues none :=
    PropertyGraph.exists_single hlive htables rfl nofun
  have hsound : sg.Sound := (PropertyGraph.Holds.mk hlive rfl htables).sound_single hloaded hsg
  have hview : (View.ofSingle sg).Sound := View.sound_ofSingle hsound
  have hnumbering : (View.ofSingle sg).numbering = g.numbering := hreads.numbering
  have hids : (nodesOf calls).map (·.id) = b.ids := by rw [ids, h.nodes]
  rw [hids]
  refine ⟨sg, hsg, hview.shows ?_ ?_ fun hxy => h.storedMultiplicity_eq_zero hg _ type hxy⟩
  · intro x
    rw [hnumbering]
    exact mem_ids_iff hm
  · intro i j x y hi hj
    rw [hnumbering] at hi hj
    have hlt : i < sg.numbering.nodeCount := hreads.numbering ▸ Numbering.lt_of_externalOf? hi
    rw [View.targets_ofSingle hsound hlt, hreads.adjacency, ← h.projectionOf,
      ← Projection.storedMultiplicity_eq_of_perm (h.relationships hrs)]
    exact hside.count_targets_eq_storedMultiplicity harrivals hi hj

namespace Gathers

variable (h : b.Gathers calls) (h' : b'.Gathers calls') (hcalls : Rearranged calls calls')
  {identity identity' : Nat} {g g' : PropertyGraph}

include h h' hcalls

/-- The relationships of a type resolve to the same arrivals. -/
theorem perm_arrivals {m : Numbering} {type : String} {rs rs' : Array Relationship}
    (hrs : b.relationships.lookup type = some rs) (hrs' : b'.relationships.lookup type = some rs')
    {arrivals arrivals' : List Arrival}
    (harrivals : rs.toList.mapM (Arrival.ofRelationship m (b.projectionOf type)) = .ok arrivals)
    (harrivals' : rs'.toList.mapM (Arrival.ofRelationship { m with identity := identity' }
      (b'.projectionOf type)) = .ok arrivals') : arrivals.Perm arrivals' := by
  obtain ⟨others, hothers, hperm⟩ :=
    exists_mapM_of_perm (h.perm_relationships h' hcalls hrs hrs') harrivals
  rw [← h.projectionOf_eq h' hcalls] at harrivals'
  obtain rfl : others = arrivals' := Except.ok.inj (hothers.symm.trans harrivals')
  exact hperm.symm

/-- A type that one graph has, both have.  Their tables hold the same relationships. -/
theorem exists_tables (hg : b.build identity = .ok g) (hg' : b'.build identity' = .ok g')
    (hnumbering : g'.numbering = { g.numbering with identity := identity' })
    {type : String} (htype : type ∈ names g.types) :
    ∃ (tables tables' : TypeTables) (arrivals arrivals' : List Arrival),
      g.Holds g.numbering type tables ∧ g'.Holds g'.numbering type tables' ∧
      tables.Loaded g.numbering ∧ tables'.Loaded g'.numbering ∧
      tables.Holds (b.projectionOf type) g.numbering.nodeCount arrivals ∧
      tables'.Holds (b.projectionOf type) g.numbering.nodeCount arrivals' ∧
      arrivals.Perm arrivals' := by
  rw [names_types_of_build hg] at htype
  obtain ⟨rs, hrs⟩ := PagedGraph.mem_names_iff.mp htype
  rw [h.mem_names_iff, hcalls.mentionsType_eq, ← h'.mem_names_iff] at htype
  obtain ⟨rs', hrs'⟩ := PagedGraph.mem_names_iff.mp htype
  obtain ⟨-, tables, arrivals, htables, harrivals, hloaded, hholds⟩ :=
    exists_arrivals_of_build hg hrs
  obtain ⟨-, tables', arrivals', htables', harrivals', hloaded', hholds'⟩ :=
    exists_arrivals_of_build hg' hrs'
  refine ⟨tables, tables', arrivals, arrivals', ⟨(of_build_eq_ok hg).1, rfl, htables⟩,
    ⟨(of_build_eq_ok hg').1, rfl, htables'⟩, hloaded, hloaded', hholds, ?_, ?_⟩
  · rw [← h.projectionOf_eq h' hcalls, hnumbering] at hholds'
    exact hholds'
  · rw [hnumbering] at harrivals'
    exact h.perm_arrivals h' hcalls hrs hrs' harrivals harrivals'

/-- Views of both graphs have the same neighbors. -/
theorem exists_neighbors?_eq (hg : b.build identity = .ok g) (hg' : b'.build identity' = .ok g')
    (hnumbering : g'.numbering = { g.numbering with identity := identity' })
    {type : String} {direction : Direction} {sg : SingleGraph}
    (hsg : g.single type direction none = .ok sg) :
    ∃ sg', g'.single type direction none = .ok sg' ∧
      (View.ofSingle sg).neighbors? = (View.ofSingle sg').neighbors? := by
  obtain ⟨tables, tables', arrivals, arrivals', htables, htables', hloaded, hloaded', hholds,
    hholds', hperm⟩ := h.exists_tables h' hcalls hg hg' hnumbering
      (PropertyGraph.mem_names_of_single hsg)
  obtain ⟨adjacency, values, inverse, hside, hreads⟩ :=
    PropertyGraph.reads_of_single_eq_ok htables.live htables.tables hsg
  obtain ⟨adjacency', values', hside', pairs, -, ⟨stored, hstored⟩, stored', hstored'⟩ :=
    hholds.exists_side hholds' hside
  obtain ⟨sg', hsg', hreads'⟩ : ∃ sg', g'.single type direction none = .ok sg' ∧
      sg'.Reads g'.numbering adjacency' values' none :=
    PropertyGraph.exists_single htables'.live htables'.tables hside' nofun
  have hsame : sg'.numbering = { sg.numbering with identity := identity' } := by
    rw [hreads.numbering, hreads'.numbering, hnumbering]
  refine ⟨sg', hsg', View.neighbors?_congr ?_ ?_ (View.targets?_ofSingle_congr
    (htables.sound_single hloaded hsg) (htables'.sound_single hloaded' hsg') ?_ ?_)⟩
  · exact (congrArg Numbering.internalOf? hsame).symm
  · exact (congrArg Numbering.externalOf? hsame).symm
  · exact (congrArg Numbering.nodeCount hsame).symm
  · intro node hnode
    rw [hreads.adjacency, hreads'.adjacency]
    exact hstored.targets_eq_of_perm hstored' hperm (hreads.numbering ▸ hnode)

end Gathers

/-- A graph that is built of accepted calls, by any number of workers and in whatever order they
look at the relationships, has the types that were registered or used.  Of each type it shows all
relationships that were given and no others, in the way of the projection that the type was given
last.  The same graph is built of the calls when those that add nodes come in another order and at
other places. -/
theorem build_keeps_calls {c : LoadSettings} {new b : GraphLoader} {calls : List LoadCall}
    (hnew : create c = .ok new) (hcalls : new.Accepts calls) (hb : (new.run calls).Reordered b)
    {identity : Nat} {g : PropertyGraph} (hg : b.build identity = .ok g) :
    (g.typeNames.Nodup ∧ ∀ type, type ∈ g.typeNames ↔ mentionsType calls type = true) ∧
    (∀ {type}, mentionsType calls type = true → ∃ sg, g.single type .outgoing none = .ok sg ∧
      (View.ofSingle sg).Shows ((nodesOf calls).map (·.id))
        (((lastProjection? calls type).getD {}).storedMultiplicity (relationshipsOf calls type))) ∧
    ∀ {c' : LoadSettings} {new' b' : GraphLoader} {calls' : List LoadCall} (identity' : Nat),
      create c' = .ok new' → Rearranged calls calls' → (new'.run calls').Reordered b' →
      new'.Accepts calls' ∧ ∃ g', b'.build identity' = .ok g' ∧ g.SameContents g' := by
  have hgathers := gathers_of_accepts hnew hcalls hb
  refine ⟨⟨nodup_sortedNames _, fun type => ?_⟩, fun {type} htype => ?_, ?_⟩
  · rw [PropertyGraph.typeNames, mem_sortedNames, names_types_of_build hg, hgathers.mem_names_iff]
  · exact hgathers.exists_shows hg htype
  · intro c' new' b' calls' identity' hnew' hrearranged hb'
    have hcalls' : new'.Accepts calls' :=
      (accepts_iff hnew').mpr (((accepts_iff hnew).mp hcalls).rearranged hrearranged)
    have hgathers' := gathers_of_accepts hnew' hcalls' hb'
    obtain ⟨g', hg', hnumbering⟩ := hgathers.exists_build hgathers' hrearranged hg identity'
    refine ⟨hcalls', g', hg', ?_⟩
    constructor
    case numbering => rw [hnumbering]
    case column => exact hgathers.get?_columns_eq hgathers' hrearranged hg hg' hnumbering
    case keys => exact hgathers.keys_columns_eq hgathers' hrearranged hg hg'
    case keysOf => exact hgathers.keysOf_columns_eq hgathers' hrearranged hg hg'
    case typeNames => exact hgathers.typeNames_eq hgathers' hrearranged hg hg'
    case neighbors =>
      exact hgathers.exists_neighbors?_eq hgathers' hrearranged hg hg' hnumbering

/-- Relationships that are given before their nodes, and before their type is registered. -/
def lateCalls : List LoadCall :=
  [.relationship ⟨8, 5, "T", .empty⟩, .node ⟨8, ["A"], .empty⟩, .relationship ⟨5, 8, "T", .empty⟩,
    .relationship ⟨5, 5, "T", .empty⟩, .project "T" { orientation := .undirected },
    .node ⟨5, [], .empty⟩]

/-- The same with the nodes in front. -/
def earlyCalls : List LoadCall :=
  [.node ⟨5, [], .empty⟩, .node ⟨8, ["A"], .empty⟩, .relationship ⟨8, 5, "T", .empty⟩,
    .relationship ⟨5, 8, "T", .empty⟩, .relationship ⟨5, 5, "T", .empty⟩,
    .project "T" { orientation := .undirected }]

theorem build_keeps_calls_late : ∃ g g' sg,
    (run { workers := 1 } lateCalls).build 0 = .ok g ∧
    (run { workers := 2 } earlyCalls).build 1 = .ok g' ∧ g.SameContents g' ∧
    "T" ∈ g.typeNames ∧ g.single "T" .outgoing none = .ok sg ∧
    (((View.ofSingle sg).neighbors? 5).getD []).count 8 = 2 ∧
    (((View.ofSingle sg).neighbors? 5).getD []).count 5 = 1 := by
  have hreached : (run { workers := 1 } lateCalls).Reached := ⟨⟨1⟩, _, _, rfl, rfl⟩
  obtain ⟨g, hg⟩ :=
    hreached.consistent.exists_build_of_bare (by decide) (by decide) (by decide) (by decide) 0
  have hcalls : Accepts { workers := 1 } lateCalls := ⟨rfl, rfl, rfl, rfl, rfl, rfl, trivial⟩
  have hnew : create ⟨1⟩ = .ok { workers := 1 } := rfl
  obtain ⟨⟨-, htypes⟩, hshows, hsame⟩ :=
    build_keeps_calls hnew hcalls (.refl _) hg
  have htype : mentionsType lateCalls "T" = true := by decide
  obtain ⟨sg, hsg, hview⟩ := hshows htype
  have hnew' : create ⟨2⟩ = .ok { workers := 2 } := rfl
  have hrearranged : Rearranged lateCalls earlyCalls := ⟨.swap .., rfl⟩
  obtain ⟨-, g', hg', hcontents⟩ := hsame 1 hnew' hrearranged (.refl _)
  exact ⟨g, g', sg, hg, hg', hcontents, (htypes "T").mpr htype, hsg,
    (hview.count_eq 5 8).trans (by decide), (hview.count_eq 5 5).trans (by decide)⟩

end GraphLoader

end PagedGraph
