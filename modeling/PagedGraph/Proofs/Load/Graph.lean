import Mathlib.Data.List.Perm.Basic
import PagedGraph.Load.Graph
import PagedGraph.Proofs.Load.External
import PagedGraph.Proofs.Load.RoundTrip

/-!
# Built graphs

A graph that a loader builds numbers the nodes the loader was given, and for every type it
has the tables that were loaded from the type's relationships
(`GraphLoader.of_build_eq_ok`, `GraphLoader.loadedFrom_of_buildType_eq_ok`).

The tables hold the relationships they were loaded from
(`GraphLoader.exists_loadedFrom_of_build`, `GraphLoader.exists_arrivals_of_build`).  Degrees can
count these, which they always can if a type has fewer than `2 ^ 32` relationships
(`Arrival.sidesFit_of_length_lt`).
-/

namespace PagedGraph

/-- Making the things of a table out of those of another keeps their names. -/
theorem exists_lookup_of_mapM {α β ε : Type} {f : String → α → Except ε β}
    {xs : List (String × α)} {name : String} {a : α} : ∀ {ys : List (String × β)},
      (xs.mapM fun (name, a) => do
        let b ← f name a
        pure (name, b)) = .ok ys →
      xs.lookup name = some a → ∃ b, f name a = .ok b ∧ ys.lookup name = some b := by
  induction xs with
  | nil => nofun
  | cons x xs ih =>
    intro ys h ha
    rw [List.mapM_cons] at h
    obtain ⟨y, hy, h⟩ := bind_eq_ok h
    obtain ⟨b, hb, hy⟩ := bind_eq_ok hy
    obtain ⟨rest, hrest, h⟩ := bind_eq_ok h
    cases hy
    cases h
    rw [List.lookup_cons] at ha ⊢
    split at ha
    · next hname =>
      cases ha
      rw [beq_iff_eq.mp hname]
      exact ⟨b, hb, rfl⟩
    · exact ih hrest ha

theorem names_eq_of_mapM {α β ε : Type} {f : String → α → Except ε β} {xs : List (String × α)} :
    ∀ {ys : List (String × β)},
      (xs.mapM fun (name, a) => do
        let b ← f name a
        pure (name, b)) = .ok ys →
      names ys = names xs := by
  induction xs with
  | nil =>
    intro ys h
    cases h
    rfl
  | cons x xs ih =>
    intro ys h
    rw [List.mapM_cons] at h
    obtain ⟨y, hy, h⟩ := bind_eq_ok h
    obtain ⟨b, -, hy⟩ := bind_eq_ok hy
    obtain ⟨rest, hrest, h⟩ := bind_eq_ok h
    cases hy
    cases h
    exact congrArg (x.1 :: ·) (ih hrest)

namespace GraphLoader

variable {b : GraphLoader}

/-- A built graph is live.  It numbers the nodes and has the tables of every type. -/
theorem of_build_eq_ok {identity : Nat} {g : PropertyGraph} (h : b.build identity = .ok g) :
    g.released = false ∧
      Numbering.build identity (b.nodes.toList.map fun n => (n.id, n.labels)) = .ok g.numbering ∧
      ∀ {type rs}, b.relationships.lookup type = some rs → ∃ tables,
        b.buildType g.numbering type rs = .ok tables ∧ g.types.lookup type = some tables := by
  rw [build] at h
  obtain ⟨m, hm, h⟩ := bind_eq_ok h
  obtain ⟨columns, -, h⟩ := bind_eq_ok h
  obtain ⟨types, htypes, h⟩ := bind_eq_ok h
  cases h
  exact ⟨rfl, hm, fun hrs => exists_lookup_of_mapM htypes hrs⟩

/-- The tables of a type are loaded from its relationships, as its projection says. -/
theorem loadedFrom_of_buildType_eq_ok {m : Numbering} {type : String} {rs : Array Relationship}
    {tables : TypeTables} (h : b.buildType m type rs = .ok tables) :
    tables.LoadedFrom m (b.projectionOf type) b.workers rs.toList := by
  rw [buildType] at h
  obtain ⟨blank, hblank, h⟩ := bind_eq_ok h
  obtain ⟨filled, hfilled, h⟩ := bind_eq_ok h
  exact ⟨blank, filled, hblank, hfilled, h⟩

/-- A built graph has the types of the loader. -/
theorem names_types_of_build {identity : Nat} {g : PropertyGraph} (h : b.build identity = .ok g) :
    names g.types = names b.relationships := by
  rw [build] at h
  obtain ⟨m, -, h⟩ := bind_eq_ok h
  obtain ⟨columns, -, h⟩ := bind_eq_ok h
  obtain ⟨types, htypes, h⟩ := bind_eq_ok h
  cases h
  exact names_eq_of_mapM htypes

/-- The tables of a type in a built graph hold its relationships. -/
theorem exists_loadedFrom_of_build {identity : Nat} {g : PropertyGraph}
    (h : b.build identity = .ok g) {type : String} {rs : Array Relationship}
    (hrs : b.relationships.lookup type = some rs) :
    ∃ tables, g.types.lookup type = some tables ∧
      tables.LoadedFrom g.numbering (b.projectionOf type) b.workers rs.toList := by
  obtain ⟨-, -, htypes⟩ := of_build_eq_ok h
  obtain ⟨tables, hbuild, htables⟩ := htypes hrs
  exact ⟨tables, htables, loadedFrom_of_buildType_eq_ok hbuild⟩

/-- They hold what the relationships resolve to. -/
theorem exists_arrivals_of_build {identity : Nat} {g : PropertyGraph}
    (h : b.build identity = .ok g) {type : String} {rs : Array Relationship}
    (hrs : b.relationships.lookup type = some rs) :
    (b.projectionOf type).validate = .ok () ∧ ∃ (tables : TypeTables) (arrivals : List Arrival),
      g.types.lookup type = some tables ∧
      rs.toList.mapM (Arrival.ofRelationship g.numbering (b.projectionOf type)) = .ok arrivals ∧
      tables.Loaded g.numbering ∧
      tables.Holds (b.projectionOf type) g.numbering.nodeCount arrivals := by
  obtain ⟨tables, htables, hfrom⟩ := exists_loadedFrom_of_build h hrs
  obtain ⟨hvalid, arrivals, harrivals, -, hloaded, hholds⟩ := hfrom.exists_arrivals
  exact ⟨hvalid, tables, arrivals, htables, harrivals, hloaded, hholds⟩

end GraphLoader

end PagedGraph
