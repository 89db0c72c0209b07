import Mathlib.Data.Set.Function
import PagedGraph.Proofs.Load.Graph

/-!
# Nodes with too many relationships

The relationships of a type crowd a node if they store more targets for it than a degree can count,
on a side that is stored (`Projection.Crowded`).  This is said in external ids.  How the nodes are
numbered does not matter to it, since different nodes have different external ids
(`Arrival.length_stored_eq`).

Relationships that resolve can be built exactly if they crowd no node
(`Arrival.sidesFit_iff`).  Otherwise the error tells the degree of a node that they crowd
(`RelationshipLoader.crowded_of_build_eq_error`).
-/

namespace PagedGraph

/-- Different things have different images, so as many of them are stored. -/
theorem length_storedTargets_map {f : Nat → Nat} {nodes : Set Nat} (hf : Set.InjOn f nodes)
    (collapses : Bool) {ts : List Nat} (hts : ∀ t ∈ ts, t ∈ nodes) :
    (storedTargets collapses (ts.map f)).length = (storedTargets collapses ts).length := by
  rw [storedTargets, storedTargets, List.length_mergeSort, List.length_mergeSort]
  cases collapses with
  | false => exact List.length_map _
  | true =>
    have hnodup : (ts.dedup.map f).Nodup := (List.nodup_dedup ts).map_on fun x hx y hy =>
      hf.eq_iff (hts x (List.mem_dedup.mp hx)) (hts y (List.mem_dedup.mp hy)) |>.mp
    have hperm : ((ts.map f).dedup).Perm (ts.dedup.map f) :=
      (List.perm_ext_iff_of_nodup (List.nodup_dedup _) hnodup).mpr fun t => by
        simp only [List.mem_dedup, List.mem_map]
    exact hperm.length_eq.trans (List.length_map _)

namespace Projection

variable (p : Projection)

/-! ## The rules under other names -/

section Renamed

variable {p} {f : Nat → Nat} {nodes : Set Nat} (hf : Set.InjOn f nodes) {node source target : Nat}
  (hnode : node ∈ nodes) (hsource : source ∈ nodes) (htarget : target ∈ nodes)

include hf hnode hsource htarget

theorem map_outgoingTargets : (p.outgoingTargets node source target).map f =
    p.outgoingTargets (f node) (f source) (f target) := by
  simp only [outgoingTargets, hf.eq_iff hsource htarget, hf.eq_iff hnode hsource,
    hf.eq_iff hnode htarget]
  cases p.orientation <;> repeat' split
  all_goals rfl

theorem map_incomingTargets : (p.incomingTargets node source target).map f =
    p.incomingTargets (f node) (f source) (f target) := by
  simp only [incomingTargets, hf.eq_iff hsource htarget, hf.eq_iff hnode hsource,
    hf.eq_iff hnode htarget]
  cases p.orientation <;> repeat' split
  all_goals rfl

end Renamed

/-! ## What relationships store for a node -/

variable (rs : List Relationship) (id : Nat)

/-- The targets that some relationships store for a node, in external ids. -/
def outgoingOf : List Nat :=
  p.stored (rs.flatMap fun r => p.outgoingTargets id r.source r.target)

/-- The targets they store for it on the incoming side. -/
def incomingOf : List Nat :=
  p.stored (rs.flatMap fun r => p.incomingTargets id r.source r.target)

/-- Some relationships store more targets for a node than a degree can count.  The error tells how
many. -/
inductive Crowded (ids : List Nat) : GraphError → Prop where
  | outgoing {id : Nat} (hid : id ∈ ids) (h : UInt32.size ≤ (p.outgoingOf rs id).length) :
    Crowded ids (.resourceExhausted (p.outgoingOf rs id).length)
  | incoming {id : Nat} (hinverse : p.storesInverse = true) (hid : id ∈ ids)
    (h : UInt32.size ≤ (p.incomingOf rs id).length) :
    Crowded ids (.resourceExhausted (p.incomingOf rs id).length)

variable {p rs}

/-- The order of the relationships does not matter, nor that of the nodes. -/
theorem Crowded.of_perm {rs' : List Relationship} {ids ids' : List Nat} {e : GraphError}
    (h : p.Crowded rs ids e) (hperm : rs.Perm rs') (hids : ids ⊆ ids') : p.Crowded rs' ids' e := by
  have hstored : ∀ targets : Relationship → List Nat,
      p.stored (rs.flatMap targets) = p.stored (rs'.flatMap targets) := by
    intro targets
    rw [p.stored_eq, p.stored_eq]
    exact storedTargets_eq_of_perm (hperm.flatMap_right _)
  cases h with
  | outgoing hid h =>
    rw [outgoingOf, hstored] at h ⊢
    exact .outgoing (hids hid) h
  | incoming hinverse hid h =>
    rw [incomingOf, hstored] at h ⊢
    exact .incoming hinverse (hids hid) h

/-- Fewer relationships than a degree can count crowd no node. -/
theorem not_crowded_of_length_lt (h : rs.length < UInt32.size) (ids : List Nat) (e : GraphError) :
    ¬ p.Crowded rs ids e := by
  have hle : ∀ {targets : Relationship → List Nat}, (∀ r, (targets r).length ≤ 1) →
      (p.stored (rs.flatMap targets)).length < UInt32.size := by
    intro targets htargets
    rw [p.stored_eq]
    exact Nat.lt_of_le_of_lt (length_storedTargets_le ..)
      (Nat.lt_of_le_of_lt (length_flatMap_le htargets rs) h)
  intro hcrowded
  cases hcrowded with
  | outgoing _ hlong =>
    exact Nat.not_lt.mpr hlong (hle fun r => p.length_outgoingTargets_le _ r.source r.target)
  | incoming _ _ hlong =>
    exact Nat.not_lt.mpr hlong (hle fun r => p.length_incomingTargets_le _ r.source r.target)

end Projection

/-! ## Relationships that resolve -/

namespace Numbering

variable {m : Numbering}

/-- Nodes are the same if their external ids are. -/
theorem eq_iff_of_externalOf? {i j x y : Nat} (hi : m.externalOf? i = some x)
    (hj : m.externalOf? j = some y) : i = j ↔ x = y := by
  constructor
  · rintro rfl
    exact Option.some.inj (hi.symm.trans hj)
  · rintro rfl
    rw [← m.internalOf?_eq_some_iff] at hi hj
    exact Option.some.inj (hi.symm.trans hj)

theorem externalOf?_eq_getD {node : Nat} (hnode : node < m.nodeCount) :
    m.externalOf? node = some (m.externalIds.getD node 0) := by
  rw [externalOf?, Array.getD_eq_getD_getElem?, Array.getElem?_eq_getElem hnode, Option.getD_some]

theorem lt_of_externalOf? {node external : Nat} (h : m.externalOf? node = some external) :
    node < m.nodeCount := (Array.getElem?_eq_some_iff.mp h).1

/-- Different nodes have different external ids. -/
theorem injOn_externalIds (m : Numbering) :
    Set.InjOn (fun node => m.externalIds.getD node 0) {node | node < m.nodeCount} := by
  intro i hi j hj hij
  exact (eq_iff_of_externalOf? (externalOf?_eq_getD hi) (externalOf?_eq_getD hj)).mpr hij

end Numbering

namespace Arrival

variable {m : Numbering} {p : Projection} {rs : List Relationship} {arrivals : List Arrival}
  (harrivals : rs.mapM (ofRelationship m p) = .ok arrivals)

include harrivals

/-- Relationships give a node what they give its external id, on a side whose targets follow the
names of the nodes. -/
theorem length_stored_eq {targets : Nat → Nat → Nat → List Nat}
    (hmap : ∀ {f : Nat → Nat} {nodes : Set Nat}, Set.InjOn f nodes → ∀ {node source target : Nat},
      node ∈ nodes → source ∈ nodes → target ∈ nodes →
      (targets node source target).map f = targets (f node) (f source) (f target))
    {node id : Nat} (hid : m.externalOf? node = some id)
    (hbounded : ∀ t ∈ arrivals.flatMap fun a => targets node a.source a.target, t < m.nodeCount) :
    (storedTargets p.aggregation.collapses
      (arrivals.flatMap fun a => targets node a.source a.target)).length =
      (p.stored (rs.flatMap fun r => targets id r.source r.target)).length := by
  have hname : ∀ {node id}, m.externalOf? node = some id →
      node < m.nodeCount ∧ m.externalIds.getD node 0 = id := fun h =>
    have hlt := Numbering.lt_of_externalOf? h
    ⟨hlt, Option.some.inj ((Numbering.externalOf?_eq_getD hlt).symm.trans h)⟩
  obtain ⟨hnode, rfl⟩ := hname hid
  have hnames : (arrivals.flatMap fun a => targets node a.source a.target).map
      (fun t => m.externalIds.getD t 0) =
        rs.flatMap fun r => targets (m.externalIds.getD node 0) r.source r.target := by
    have hresolved := mapM_eq_ok_iff.mp harrivals
    clear hbounded harrivals
    induction hresolved with
    | nil => rfl
    | cons hr _ ih =>
      obtain ⟨hsource, htarget, -⟩ := ofRelationship_eq_ok_iff.mp hr
      obtain ⟨hs, hsource⟩ := hname (m.internalOf?_eq_some_iff.mp hsource)
      obtain ⟨ht, htarget⟩ := hname (m.internalOf?_eq_some_iff.mp htarget)
      rw [List.flatMap_cons, List.flatMap_cons, List.map_append, ih,
        hmap m.injOn_externalIds hnode hs ht, hsource, htarget]
  rw [p.stored_eq, ← hnames]
  exact (length_storedTargets_map m.injOn_externalIds _ hbounded).symm

/-- A node has the targets that the relationships store for its external id. -/
theorem length_outgoing_eq {node id : Nat} (hid : m.externalOf? node = some id) :
    (storedTargets p.aggregation.collapses ((rows p.pairs arrivals node).map Row.target)).length =
      (p.outgoingOf rs id).length := by
  have hproper := proper_of_mapM_ofRelationship harrivals
  rw [map_target_rows_pairs]
  refine length_stored_eq harrivals (fun hf => p.map_outgoingTargets hf) hid fun t ht => ?_
  rw [← map_target_rows_pairs, mem_map_target_rows] at ht
  obtain ⟨a, ha, ht⟩ := ht
  rcases Projection.mem_pairs ht with ⟨-, rfl⟩ | ⟨-, rfl⟩
  · exact (hproper a ha).target_lt
  · exact (hproper a ha).source_lt

theorem length_incoming_eq (hinverse : p.storesInverse = true) {node id : Nat}
    (hid : m.externalOf? node = some id) :
    (storedTargets p.aggregation.collapses
      ((rows p.inversePairs arrivals node).map Row.target)).length =
      (p.incomingOf rs id).length := by
  have hproper := proper_of_mapM_ofRelationship harrivals
  rw [map_target_rows_inversePairs hinverse]
  refine length_stored_eq harrivals (fun hf => p.map_incomingTargets hf) hid fun t ht => ?_
  rw [← map_target_rows_inversePairs hinverse, mem_map_target_rows] at ht
  obtain ⟨a, ha, ht⟩ := ht
  rcases Projection.mem_pairs (Projection.mem_inversePairs ht) with ⟨rfl, -⟩ | ⟨rfl, -⟩
  · exact (hproper a ha).source_lt
  · exact (hproper a ha).target_lt

variable {ids : List Nat} (hm : ∀ {id}, id ∈ ids ↔ ∃ node, m.internalOf? id = some node)

include hm

/-- Degrees can count what relationships store if they crowd no node. -/
theorem sidesFit_iff : SidesFit p m.nodeCount arrivals ↔ ∀ e, ¬ p.Crowded rs ids e := by
  constructor
  · intro hfit e hcrowded
    cases hcrowded with
    | outgoing hid h =>
      obtain ⟨node, hnode⟩ := hm.mp hid
      have hnode := m.internalOf?_eq_some_iff.mp hnode
      rw [← length_outgoing_eq harrivals hnode] at h
      exact Nat.not_lt.mpr h (hfit.outgoing node (Numbering.lt_of_externalOf? hnode))
    | incoming hinverse hid h =>
      obtain ⟨node, hnode⟩ := hm.mp hid
      have hnode := m.internalOf?_eq_some_iff.mp hnode
      rw [← length_incoming_eq harrivals hinverse hnode] at h
      exact Nat.not_lt.mpr h (hfit.incoming hinverse node (Numbering.lt_of_externalOf? hnode))
  · intro hcrowded
    have hmem : ∀ {node}, node < m.nodeCount → m.externalIds.getD node 0 ∈ ids := fun hnode =>
      hm.mpr ⟨_, m.internalOf?_eq_some_iff.mpr (Numbering.externalOf?_eq_getD hnode)⟩
    refine ⟨fun node hnode => ?_, fun hinverse node hnode => ?_⟩
    · rw [length_outgoing_eq harrivals (Numbering.externalOf?_eq_getD hnode)]
      exact Nat.not_le.mp fun h => hcrowded _ (.outgoing (hmem hnode) h)
    · rw [length_incoming_eq harrivals hinverse (Numbering.externalOf?_eq_getD hnode)]
      exact Nat.not_le.mp fun h => hcrowded _ (.incoming hinverse (hmem hnode) h)

end Arrival

namespace RelationshipLoader

variable {m : Numbering} {p : Projection} {rs : List Relationship} {arrivals : List Arrival}
  {ids : List Nat}

/-- Relationships that resolve are built if they crowd no node. -/
theorem exists_build_iff (workers : Nat) (hvalid : p.validate = .ok ())
    (harrivals : rs.mapM (Arrival.ofRelationship m p) = .ok arrivals)
    (hm : ∀ {id}, id ∈ ids ↔ ∃ node, m.internalOf? id = some node) :
    (∃ tables, ((blank m p workers).pushAll arrivals).build = .ok tables) ↔
      ∀ e, ¬ p.Crowded rs ids e := by
  have hproper := Arrival.proper_of_mapM_ofRelationship harrivals
  rw [← Arrival.sidesFit_iff harrivals hm]
  constructor
  · rintro ⟨tables, htables⟩
    exact sidesFit_of_build_eq_ok hvalid hproper htables
  · intro hfit
    obtain ⟨tables, htables, -⟩ := exists_build workers hvalid hproper hfit
    exact ⟨tables, htables⟩

/-- Otherwise the error tells how many targets a crowded node has. -/
theorem crowded_of_build_eq_error {workers : Nat} (hvalid : p.validate = .ok ())
    (harrivals : rs.mapM (Arrival.ofRelationship m p) = .ok arrivals)
    (hm : ∀ {id}, id ∈ ids ↔ ∃ node, m.internalOf? id = some node) {e : GraphError}
    (he : ((blank m p workers).pushAll arrivals).build = .error e) : p.Crowded rs ids e := by
  have hproper := Arrival.proper_of_mapM_ofRelationship harrivals
  obtain ⟨outRows, houtRows, houtTargets⟩ := exists_arranged hvalid (Arrival.rows p.pairs arrivals)
  obtain ⟨inRows, hinRows, hinTargets⟩ :=
    exists_arranged hvalid (Arrival.rows p.inversePairs arrivals)
  obtain ⟨node, hnode, hcases⟩ := of_build_eq_error hproper houtRows hinRows he
  have hexternal := Numbering.externalOf?_eq_getD hnode
  have hid := hm.mpr ⟨node, m.internalOf?_eq_some_iff.mpr hexternal⟩
  rcases hcases with ⟨hlong, rfl⟩ | ⟨hinverse, hlong, rfl⟩
  · have hlength := Arrival.length_outgoing_eq harrivals hexternal
    rw [← houtTargets, List.length_map] at hlength
    rw [hlength] at hlong ⊢
    exact .outgoing hid hlong
  · have hlength := Arrival.length_incoming_eq harrivals hinverse hexternal
    rw [← hinTargets, List.length_map] at hlength
    rw [hlength] at hlong ⊢
    exact .incoming hinverse hid hlong

end RelationshipLoader

end PagedGraph
