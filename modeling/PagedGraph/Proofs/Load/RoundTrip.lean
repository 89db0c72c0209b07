import PagedGraph.Proofs.Load.Loaded

/-!
# Loading and reading back

The rules of a projection say which targets a relationship gives a node on either side
(`Projection.outgoingTargets`, `Projection.incomingTargets`).  Calls that add
relationships give a node the targets of all of them, and what is stored is this list in
ascending order, each target once if parallel relationships become one.

`Adjacency.Decodes` says that an adjacency reads back as such lists, in every way there
is to read it: step by step, at once, by degree, by the degree in front of the run, by
offset and by the number of relationships.  The tables built from calls do so
(`exists_built_decodes`), for any number of workers and in whatever order the calls
come.
-/

namespace PagedGraph

/-! ## The rules -/

namespace Projection

variable (p : Projection)

/-- The targets that a relationship gives a node on the outgoing side. -/
def outgoingTargets (node source target : Nat) : List Nat :=
  if source = target ∧ p.selfLoops = .drop then []
  else
    match p.orientation with
    | .natural => if node = source then [target] else []
    | .reverse => if node = target then [source] else []
    | .undirected =>
      if node = source then [target] else if node = target then [source] else []

/-- The targets that a relationship gives a node on the incoming side. -/
def incomingTargets (node source target : Nat) : List Nat :=
  if source = target ∧ p.selfLoops = .drop then []
  else
    match p.orientation with
    | .natural => if node = target then [source] else []
    | .reverse => if node = source then [target] else []
    | .undirected => []

variable {p}

/-- The stored pairs are those the rules ask for. -/
theorem map_target_ofPairs_pairs (values : List Double) (node source target : Nat) :
    (Row.ofPairs (p.pairs source target) values node).map Row.target =
      p.outgoingTargets node source target := by
  rw [pairs, outgoingTargets]
  split
  · rfl
  · cases p.orientation with
    | natural =>
      by_cases h : node = source
      · simp [Row.ofPairs, h]
      · simp [Row.ofPairs, h, Ne.symm h]
    | reverse =>
      by_cases h : node = target
      · simp [Row.ofPairs, h]
      · simp [Row.ofPairs, h, Ne.symm h]
    | undirected =>
      by_cases hloop : source = target
      · by_cases h : node = target
        · simp [Row.ofPairs, hloop, h]
        · simp [Row.ofPairs, hloop, h, Ne.symm h]
      · by_cases hs : node = source
        · simp [Row.ofPairs, hs, hloop, Ne.symm hloop]
        · by_cases ht : node = target
          · simp [Row.ofPairs, ht, hloop, Ne.symm hloop]
          · simp [Row.ofPairs, hloop, hs, ht, Ne.symm hs, Ne.symm ht]

/-- The pairs of the inverse side are those the rules ask for. -/
theorem map_target_ofPairs_inversePairs (hinverse : p.storesInverse = true) (values : List Double)
    (node source target : Nat) :
    (Row.ofPairs (p.inversePairs source target) values node).map Row.target =
      p.incomingTargets node source target := by
  rw [inversePairs, if_pos hinverse, pairs, incomingTargets]
  split
  · rfl
  · cases horientation : p.orientation with
    | natural =>
      by_cases h : node = target
      · simp [Row.ofPairs, h]
      · simp [Row.ofPairs, h, Ne.symm h]
    | reverse =>
      by_cases h : node = source
      · simp [Row.ofPairs, h]
      · simp [Row.ofPairs, h, Ne.symm h]
    | undirected => simp [storesInverse, horientation] at hinverse

end Projection

/-- A relationship gives a node at most one target on each side. -/
theorem Projection.length_outgoingTargets_le (p : Projection) (node source target : Nat) :
    (p.outgoingTargets node source target).length ≤ 1 := by
  rw [outgoingTargets]
  repeat' split
  all_goals simp

theorem Projection.length_incomingTargets_le (p : Projection) (node source target : Nat) :
    (p.incomingTargets node source target).length ≤ 1 := by
  rw [incomingTargets]
  repeat' split
  all_goals simp

/-- Things that give one item at most give no more items than they are. -/
theorem length_flatMap_le {α β : Type} {f : α → List β} (hf : ∀ x, (f x).length ≤ 1)
    (xs : List α) : (xs.flatMap f).length ≤ xs.length := by
  induction xs with
  | nil => exact Nat.le_refl _
  | cons x xs ih =>
    rw [List.flatMap_cons, List.length_append, List.length_cons, Nat.add_comm]
    exact Nat.add_le_add ih (hf x)

/-! ## What relationships give a node -/

namespace Arrival

variable {p : Projection} {arrivals : List Arrival} {node : Nat}

/-- Relationships give a node the targets that the rules ask for. -/
theorem map_target_rows {pairs : Nat → Nat → List (Nat × Nat)} {targets : Nat → Nat → List Nat}
    (h : ∀ values source target,
      (Row.ofPairs (pairs source target) values node).map Row.target = targets source target)
    (arrivals : List Arrival) : (rows pairs arrivals node).map Row.target =
      arrivals.flatMap fun a => targets a.source a.target := by
  rw [rows, List.map_flatMap]
  exact List.flatMap_congr fun a _ => h a.values a.source a.target

theorem map_target_rows_pairs : (rows p.pairs arrivals node).map Row.target =
    arrivals.flatMap fun a => p.outgoingTargets node a.source a.target :=
  map_target_rows (fun values source target =>
    p.map_target_ofPairs_pairs values node source target) arrivals

theorem map_target_rows_inversePairs (hinverse : p.storesInverse = true) :
    (rows p.inversePairs arrivals node).map Row.target =
      arrivals.flatMap fun a => p.incomingTargets node a.source a.target :=
  map_target_rows (fun values source target =>
    p.map_target_ofPairs_inversePairs hinverse values node source target) arrivals

/-- Relationships in another order give a node the same targets to store. -/
theorem storedTargets_rows_eq_of_perm {arrivals' : List Arrival} (h : arrivals.Perm arrivals')
    (collapses : Bool) (pairs : Nat → Nat → List (Nat × Nat)) (node : Nat) :
    storedTargets collapses ((rows pairs arrivals node).map Row.target) =
      storedTargets collapses ((rows pairs arrivals' node).map Row.target) :=
  storedTargets_eq_of_perm ((h.flatMap_right _).map _)

/-- Fewer relationships than a degree can count fit. -/
theorem sidesFit_of_length_lt (h : arrivals.length < UInt32.size) (n : Nat) :
    SidesFit p n arrivals := by
  have hle : ∀ {collapses : Bool} {targets : Arrival → List Nat},
      (∀ a, (targets a).length ≤ 1) →
      (storedTargets collapses (arrivals.flatMap targets)).length < UInt32.size :=
    fun htargets => Nat.lt_of_le_of_lt (length_storedTargets_le ..)
      (Nat.lt_of_le_of_lt (length_flatMap_le htargets arrivals) h)
  refine ⟨fun node _ => ?_, fun hinverse node _ => ?_⟩
  · rw [map_target_rows_pairs]
    exact hle fun a => p.length_outgoingTargets_le node a.source a.target
  · rw [map_target_rows_inversePairs hinverse]
    exact hle fun a => p.length_incomingTargets_le node a.source a.target

end Arrival

/-- What relationships fit, they fit in any order. -/
theorem SidesFit.of_perm {p : Projection} {n : Nat} {arrivals arrivals' : List Arrival}
    (h : SidesFit p n arrivals) (hperm : arrivals.Perm arrivals') : SidesFit p n arrivals' := by
  refine ⟨fun node hnode => ?_, fun hinverse node hnode => ?_⟩
  · rw [← Arrival.storedTargets_rows_eq_of_perm hperm]
    exact h.outgoing node hnode
  · rw [← Arrival.storedTargets_rows_eq_of_perm hperm]
    exact h.incoming hinverse node hnode

/-! ## Calls -/

/-- A call that adds a relationship in internal ids. -/
inductive AddCall where
  /-- With the default values. -/
  | plain (source target : Nat)
  /-- With a value for every property. -/
  | valued (source target : Nat) (values : List Double)
deriving DecidableEq, Repr

namespace AddCall

/-- The node that a call adds a relationship from. -/
def source : AddCall → Nat
  | plain source _ => source
  | valued source _ _ => source

/-- The node that a call adds a relationship to. -/
def target : AddCall → Nat
  | plain _ target => target
  | valued _ target _ => target

/-- Make a call.  None when an end is no node, or when there is not one value for every property. -/
def run? (l : RelationshipLoader) : AddCall → Option RelationshipLoader
  | plain source target => l.add? source target
  | valued source target values => l.addWith? source target values

/-- The relationship that a call stores. -/
def arrival (p : Projection) : AddCall → Arrival
  | plain source target => ⟨source, target, p.defaults⟩
  | valued source target values => ⟨source, target, values⟩

end AddCall

/-- A loader that was made, given calls and built gives some tables. -/
def Built (m : Numbering) (p : Projection) (workers : Nat) (calls : List AddCall)
    (tables : TypeTables) : Prop :=
  ∃ blank filled, RelationshipLoader.create m p workers = .ok blank ∧
    calls.foldlM AddCall.run? blank = some filled ∧ filled.build = .ok tables

namespace Projection

variable (p : Projection) (calls : List AddCall) (node : Nat)

/-- Targets as they are stored.  They ascend, and each is there once unless the aggregation of the
relationships, keeping them where none is chosen, is to keep parallel ones. -/
def stored (targets : List Nat) : List Nat :=
  if p.aggregation.orKeep = .keep then targets.mergeSort (· ≤ ·)
  else targets.dedup.mergeSort (· ≤ ·)

/-- The targets that are stored for a node after some calls. -/
def storedOutgoing : List Nat :=
  p.stored (calls.flatMap fun call => p.outgoingTargets node call.source call.target)

/-- The targets that are stored for a node on the incoming side. -/
def storedIncoming : List Nat :=
  p.stored (calls.flatMap fun call => p.incomingTargets node call.source call.target)

theorem stored_eq (targets : List Nat) :
    p.stored targets = storedTargets p.aggregation.collapses targets := by
  rw [stored, storedTargets, Aggregation.collapses]
  by_cases h : p.aggregation.orKeep = .keep
  · simp [h]
  · simp [h]

variable {p calls}

/-- What is stored does not depend on the order of calls. -/
theorem storedOutgoing_eq_of_perm {calls' : List AddCall} (h : calls'.Perm calls) :
    p.storedOutgoing calls' = p.storedOutgoing calls := by
  funext node
  rw [storedOutgoing, storedOutgoing, stored_eq, stored_eq]
  exact storedTargets_eq_of_perm (h.flatMap_right _)

theorem storedIncoming_eq_of_perm {calls' : List AddCall} (h : calls'.Perm calls) :
    p.storedIncoming calls' = p.storedIncoming calls := by
  funext node
  rw [storedIncoming, storedIncoming, stored_eq, stored_eq]
  exact storedTargets_eq_of_perm (h.flatMap_right _)

end Projection

namespace RelationshipLoader

variable {m : Numbering} {p : Projection}

/-- A call between nodes is stored as its relationship. -/
theorem run?_eq_some {l : RelationshipLoader} {call : AddCall}
    (h : (call.arrival l.projection).Proper l.numbering.nodeCount l.projection) :
    call.run? l = some (l.push (call.arrival l.projection).source
      (call.arrival l.projection).target (call.arrival l.projection).values) := by
  cases call with
  | plain source target => exact addWith?_eq_some h
  | valued source target values => exact addWith?_eq_some h

/-- Calls between nodes all go through. -/
theorem foldlM_run?_eq_some {calls : List AddCall} {l : RelationshipLoader}
    (h : ∀ call ∈ calls, (call.arrival l.projection).Proper l.numbering.nodeCount l.projection) :
    calls.foldlM AddCall.run? l = some (l.pushAll (calls.map (AddCall.arrival l.projection))) := by
  induction calls generalizing l with
  | nil => rfl
  | cons call calls ih =>
    obtain ⟨hcall, hcalls⟩ := List.forall_mem_cons.mp h
    rw [List.foldlM_cons, run?_eq_some hcall]
    exact ih hcalls

theorem arrival_source (call : AddCall) : (call.arrival p).source = call.source := by
  cases call <;> rfl

theorem arrival_target (call : AddCall) : (call.arrival p).target = call.target := by
  cases call <;> rfl

/-- Calls between nodes with a value for every property are stored as such relationships. -/
theorem proper_arrival {calls : List AddCall}
    (hends : ∀ call ∈ calls, call.source < m.nodeCount ∧ call.target < m.nodeCount)
    (hvalues : ∀ call ∈ calls, (call.arrival p).values.length = p.properties.length) :
    ∀ call ∈ calls, (call.arrival p).Proper m.nodeCount p := by
  intro call hcall
  obtain ⟨hsource, htarget⟩ := hends call hcall
  exact ⟨(arrival_source call).symm ▸ hsource, (arrival_target call).symm ▸ htarget,
    hvalues call hcall⟩

end RelationshipLoader

/-! ## Reading back -/

/-- An adjacency reads back as the given targets of each of its nodes, in every way there is to
read it. -/
structure Adjacency.Decodes (t : Adjacency) (n : Nat) (targets : Nat → List Nat) : Prop where
  nodeCount : t.nodeCount = n
  /-- Step by step. -/
  yields : ∀ node < n, runCursor.Yields (t.openRun node) (targets node)
  /-- At once. -/
  targets_eq : ∀ node < n, t.targets node = targets node
  degree : ∀ node < n, t.degree node = (targets node).length
  /-- The degree a cursor reads when it is opened. -/
  degree_openRun : ∀ node < n, (t.openRun node).degree = (targets node).length
  /-- The bytes in front of a run. -/
  header : ∀ node < n, t.offset node ≠ 0 →
    ofLittleEndian (PageTable.slice (t.pages.page (t.offset node)) (placeOf (t.offset node))
      degreeHeader) = (targets node).length
  offset : ∀ node < n, (t.offset node = 0 ↔ targets node = [])
  relationshipCount : t.relationshipCount = addUp ((List.range n).map t.degree)

/-- What an adjacency stores is what it reads back as. -/
theorem Adjacency.Stores.decodes {t : Adjacency} {n : Nat} {targets : Nat → List Nat}
    (h : t.Stores n targets) : t.Decodes n targets where
  nodeCount := h.nodeCount
  yields _ hnode := walks_runCursor.yields (h.reads hnode)
  targets_eq _ hnode := h.targets_eq hnode
  degree _ hnode := h.degree hnode
  degree_openRun node hnode := by
    rw [← h.degree hnode, Adjacency.degree, Adjacency.openRun, PageTable.openRun]
    split
    · next hzero =>
      rw [PageTable.degree, if_pos hzero]
      rfl
    · rfl
  header node hnode hoffset := by
    rw [← h.degree hnode, Adjacency.degree, PageTable.degree, if_neg hoffset]
  offset _ hnode := h.offset hnode
  relationshipCount := h.addUp_degrees

/-- The tables of calls read back as what the rules of the projection ask for. -/
structure TypeTables.Decodes (t : TypeTables) (n : Nat) (p : Projection) (calls : List AddCall) :
    Prop where
  outgoing : t.outgoing.Decodes n (p.storedOutgoing calls)
  /-- The incoming side is built if the projection stores it. -/
  isSome_incoming : t.incoming.isSome = p.storesInverse
  incoming : ∀ side, t.incoming = some side → side.Decodes n (p.storedIncoming calls)

/-- The number of targets of every node can be written in front of its run. -/
structure DegreesFit (n : Nat) (p : Projection) (calls : List AddCall) : Prop where
  outgoing : ∀ node < n, (p.storedOutgoing calls node).length < UInt32.size
  incoming : p.storesInverse = true → ∀ node < n, (p.storedIncoming calls node).length < UInt32.size

/-- Calls ask for the targets that their relationships do. -/
theorem AddCall.flatMap_arrival (p : Projection) (targets : Nat → Nat → List Nat)
    (calls : List AddCall) :
    (calls.map (arrival p)).flatMap (fun a => targets a.source a.target) =
      calls.flatMap fun call => targets call.source call.target := by
  rw [List.flatMap_map]
  refine List.flatMap_congr fun call _ => ?_
  rw [RelationshipLoader.arrival_source, RelationshipLoader.arrival_target]

/-- The rows that calls give a node on the outgoing side have the targets of the rules. -/
theorem Projection.map_target_outgoing (p : Projection) (calls : List AddCall) (node : Nat) :
    (Arrival.rows p.pairs (calls.map (AddCall.arrival p)) node).map Row.target =
      calls.flatMap fun call => p.outgoingTargets node call.source call.target :=
  Arrival.map_target_rows_pairs.trans (AddCall.flatMap_arrival p (p.outgoingTargets node) calls)

theorem Projection.map_target_incoming {p : Projection} (hinverse : p.storesInverse = true)
    (calls : List AddCall) (node : Nat) :
    (Arrival.rows p.inversePairs (calls.map (AddCall.arrival p)) node).map Row.target =
      calls.flatMap fun call => p.incomingTargets node call.source call.target :=
  (Arrival.map_target_rows_inversePairs hinverse).trans
    (AddCall.flatMap_arrival p (p.incomingTargets node) calls)

/-- Degrees can count what calls store if they can count what their relationships do. -/
theorem degreesFit_iff {n : Nat} {p : Projection} {calls : List AddCall} :
    DegreesFit n p calls ↔ SidesFit p n (calls.map (AddCall.arrival p)) := by
  constructor
  · intro h
    refine ⟨fun node hnode => ?_, fun hinverse node hnode => ?_⟩
    · rw [p.map_target_outgoing, ← p.stored_eq]
      exact h.outgoing node hnode
    · rw [Projection.map_target_incoming hinverse, ← p.stored_eq]
      exact h.incoming hinverse node hnode
  · intro h
    refine ⟨fun node hnode => ?_, fun hinverse node hnode => ?_⟩
    · have hfit := h.outgoing node hnode
      rwa [p.map_target_outgoing, ← p.stored_eq] at hfit
    · have hfit := h.incoming hinverse node hnode
      rwa [Projection.map_target_incoming hinverse, ← p.stored_eq] at hfit

/-- Calls between nodes are loaded into tables that hold their rows. -/
theorem exists_built_holds {m : Numbering} {p : Projection} {workers : Nat} {calls : List AddCall}
    (hworkers : 0 < workers) (hvalid : p.validate = .ok ())
    (hends : ∀ call ∈ calls, call.source < m.nodeCount ∧ call.target < m.nodeCount)
    (hvalues : ∀ call ∈ calls, (call.arrival p).values.length = p.properties.length)
    (hfit : DegreesFit m.nodeCount p calls) :
    ∃ tables, Built m p workers calls tables ∧
      tables.Holds p m.nodeCount (calls.map (AddCall.arrival p)) := by
  have hproper := RelationshipLoader.proper_arrival hends hvalues
  obtain ⟨tables, hbuild, hholds⟩ := RelationshipLoader.exists_build workers hvalid
    (List.forall_mem_map.mpr hproper) (degreesFit_iff.mp hfit)
  exact ⟨tables, ⟨_, _, RelationshipLoader.create_eq_ok hworkers hvalid,
    RelationshipLoader.foldlM_run?_eq_some hproper, hbuild⟩, hholds⟩

/-- Whatever is built of calls between nodes holds their rows, and degrees can count them. -/
theorem Built.holds {m : Numbering} {p : Projection} {workers : Nat} {calls : List AddCall}
    {tables : TypeTables} (h : Built m p workers calls tables)
    (hends : ∀ call ∈ calls, call.source < m.nodeCount ∧ call.target < m.nodeCount)
    (hvalues : ∀ call ∈ calls, (call.arrival p).values.length = p.properties.length) :
    DegreesFit m.nodeCount p calls ∧
      tables.Holds p m.nodeCount (calls.map (AddCall.arrival p)) := by
  obtain ⟨blank, filled, hblank, hfilled, hbuild⟩ := h
  obtain ⟨-, hvalid, rfl⟩ := RelationshipLoader.of_create_eq_ok hblank
  have hproper := RelationshipLoader.proper_arrival hends hvalues
  rw [RelationshipLoader.foldlM_run?_eq_some hproper] at hfilled
  cases hfilled
  have hproper := List.forall_mem_map.mpr hproper
  exact ⟨degreesFit_iff.mpr (RelationshipLoader.sidesFit_of_build_eq_ok hvalid hproper hbuild),
    RelationshipLoader.holds_of_build_eq_ok hvalid hproper hbuild⟩

/-- An incoming side is there only if the projection stores one. -/
theorem TypeTables.Holds.storesInverse {t : TypeTables} {p : Projection} {n : Nat}
    {arrivals : List Arrival} (h : t.Holds p n arrivals) {side : Adjacency}
    (hside : t.incoming = some side) : p.storesInverse = true := by
  rw [← h.isSome_incoming, hside]
  rfl

/-- Tables that hold the rows of calls read back as the rules ask for. -/
theorem TypeTables.Holds.decodes {t : TypeTables} {n : Nat} {p : Projection}
    {calls : List AddCall} (h : t.Holds p n (calls.map (AddCall.arrival p))) :
    t.Decodes n p calls := by
  refine ⟨?_, h.isSome_incoming, fun side hside => ?_⟩
  · obtain ⟨stored, hstored⟩ := h.outgoing
    have hdecodes := hstored.adjacency.decodes
    simp only [hstored.map_target, p.map_target_outgoing, ← p.stored_eq] at hdecodes
    exact hdecodes
  · obtain ⟨-, stored, hstored⟩ := h.incoming hside
    have hdecodes := hstored.adjacency.decodes
    simp only [hstored.map_target, Projection.map_target_incoming (h.storesInverse hside),
      ← p.stored_eq] at hdecodes
    exact hdecodes

/-- Calls between nodes are loaded into tables that read back as the rules ask for. -/
theorem exists_built {m : Numbering} {p : Projection} {workers : Nat} {calls : List AddCall}
    (hworkers : 0 < workers) (hvalid : p.validate = .ok ())
    (hends : ∀ call ∈ calls, call.source < m.nodeCount ∧ call.target < m.nodeCount)
    (hvalues : ∀ call ∈ calls, (call.arrival p).values.length = p.properties.length)
    (hfit : DegreesFit m.nodeCount p calls) :
    ∃ tables, Built m p workers calls tables ∧ tables.Decodes m.nodeCount p calls := by
  obtain ⟨tables, hbuilt, hholds⟩ := exists_built_holds hworkers hvalid hends hvalues hfit
  exact ⟨tables, hbuilt, hholds.decodes⟩

/-- Calls between nodes are loaded exactly if degrees can count what they store. -/
theorem exists_built_iff {m : Numbering} {p : Projection} {workers : Nat} {calls : List AddCall}
    (hworkers : 0 < workers) (hvalid : p.validate = .ok ())
    (hends : ∀ call ∈ calls, call.source < m.nodeCount ∧ call.target < m.nodeCount)
    (hvalues : ∀ call ∈ calls, (call.arrival p).values.length = p.properties.length) :
    (∃ tables, Built m p workers calls tables) ↔ DegreesFit m.nodeCount p calls := by
  constructor
  · rintro ⟨tables, hbuilt⟩
    exact (hbuilt.holds hends hvalues).1
  · intro hfit
    obtain ⟨tables, hbuilt, -⟩ := exists_built hworkers hvalid hends hvalues hfit
    exact ⟨tables, hbuilt⟩

/-- Fewer calls than a degree can count fit. -/
theorem DegreesFit.of_length {n : Nat} {p : Projection} {calls : List AddCall}
    (h : calls.length < UInt32.size) : DegreesFit n p calls :=
  degreesFit_iff.mpr (Arrival.sidesFit_of_length_lt (by rwa [List.length_map]) n)

/-- What calls fit, they fit in any order. -/
theorem DegreesFit.of_perm {n : Nat} {p : Projection} {calls calls' : List AddCall}
    (h : DegreesFit n p calls) (hperm : calls'.Perm calls) : DegreesFit n p calls' :=
  degreesFit_iff.mpr ((degreesFit_iff.mp h).of_perm (hperm.symm.map _))

/-- What reads back as what some calls ask for also does as what they ask for in another order. -/
theorem TypeTables.Decodes.of_perm {t : TypeTables} {n : Nat} {p : Projection}
    {calls calls' : List AddCall} (h : t.Decodes n p calls) (hperm : calls.Perm calls') :
    t.Decodes n p calls' where
  outgoing := by
    rw [← Projection.storedOutgoing_eq_of_perm hperm]
    exact h.outgoing
  isSome_incoming := h.isSome_incoming
  incoming := by
    rw [← Projection.storedIncoming_eq_of_perm hperm]
    exact h.incoming

/-- Loading undoes itself on reading.  The calls of a valid projection are loaded into tables that
read back as the targets its rules ask for, and any number of workers loads the same calls in
any order into tables that read back as the same targets. -/
theorem exists_built_decodes {m : Numbering} {p : Projection} {workers : Nat}
    {calls : List AddCall} (hworkers : 0 < workers) (hvalid : p.validate = .ok ())
    (hends : ∀ call ∈ calls, call.source < m.nodeCount ∧ call.target < m.nodeCount)
    (hvalues : ∀ call ∈ calls, (call.arrival p).values.length = p.properties.length)
    (hfit : DegreesFit m.nodeCount p calls) :
    (∃ tables, Built m p workers calls tables ∧ tables.Decodes m.nodeCount p calls) ∧
      ∀ {others : Nat} {reordered : List AddCall}, 0 < others → reordered.Perm calls →
        ∃ tables, Built m p others reordered tables ∧ tables.Decodes m.nodeCount p calls := by
  refine ⟨exists_built hworkers hvalid hends hvalues hfit, ?_⟩
  intro others reordered hothers hperm
  obtain ⟨tables, hbuilt, hdecodes⟩ := exists_built hothers hvalid
    (fun call hcall => hends call (hperm.mem_iff.mp hcall))
    (fun call hcall => hvalues call (hperm.mem_iff.mp hcall)) (hfit.of_perm hperm)
  exact ⟨tables, hbuilt, hdecodes.of_perm hperm⟩

/-- Two nodes, a relationship between them in both directions, and a self-loop given twice. -/
theorem exists_built_decodes_twoNodes :
    ∃ tables, Built (.ofAscending 0 [(1, []), (2, [])] (by decide))
        { orientation := .undirected, aggregation := .single } 1
        [.plain 0 1, .valued 1 1 [], .plain 1 1] tables ∧
      tables.Decodes 2 { orientation := .undirected, aggregation := .single }
        [.plain 0 1, .valued 1 1 [], .plain 1 1] :=
  (exists_built_decodes Nat.one_pos rfl (by decide) (by decide) (.of_length (by decide))).1

end PagedGraph
