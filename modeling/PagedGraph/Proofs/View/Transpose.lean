import PagedGraph.Proofs.Load.Faults
import PagedGraph.Proofs.Load.Transpose
import PagedGraph.Proofs.View.Reload

/-!
# Incoming is outgoing turned round

`View.Transposes v w` says that `w` shows the relationships of `v` turned round: as many from
a node to another as back, with the same values in the same order, and as many in all.

A type that is stored both ways has views of both sides, for the same property keys
(`PropertyGraph.exists_single_iff`), and they are transposes of each other.  Of an undirected
type both are views of one adjacency, which is its own transpose
(`GraphLoader.single_transposes`).
-/

namespace PagedGraph

/-- The values of the relationships to a target, in the order given. -/
def valuesOf (relationships : List (Nat × Double)) (target : Nat) : List Double :=
  (relationships.filter fun entry => entry.1 = target).map Prod.snd

/-- A view of the same nodes that shows the relationships of another turned round. -/
structure View.Transposes (v w : View) : Prop where
  numbering : v.numbering = w.numbering
  targets : ∀ {x y}, x < v.nodeCount → y < v.nodeCount → ∃ ts us,
    v.targets? x = some ts ∧ w.targets? y = some us ∧ ts.count y = us.count x
  values : ∀ fallback {x y}, x < v.nodeCount → y < v.nodeCount → ∃ rs ss,
    v.weighted? fallback x = some rs ∧ w.weighted? fallback y = some ss ∧
      valuesOf rs y = valuesOf ss x
  relationshipCount : v.relationshipCount = w.relationshipCount

/-! ## Sides -/

/-- The values shown of the rows to a target are read off the values of these rows. -/
theorem Row.valuesOf_map_shown (column : Option Nat) (fallback : Double) (rows : List Row)
    (t : Nat) : valuesOf (rows.map (shown column fallback)) t =
      ((rowsTo rows t).map values).map fun values =>
        (column.map fun c => values.getD c .nan).getD fallback := by
  rw [valuesOf, List.filter_map, List.map_map, List.map_map, rowsTo]
  rfl

theorem addUp_map_eq_count {α : Type} [DecidableEq α] (a : α) (xs : List α) :
    addUp (xs.map fun x => if a = x then 1 else 0) = xs.count a := by
  induction xs with
  | nil => rfl
  | cons x xs ih =>
    rw [List.map_cons, addUp_cons, ih, List.count_cons]
    simp only [beq_iff_eq, eq_comm (a := a)]
    omega

/-- Numbers below a bound are counted one by one. -/
theorem addUp_map_count {n : Nat} {ts : List Nat} (h : ∀ t ∈ ts, t < n) :
    addUp ((List.range n).map fun t => ts.count t) = ts.length := by
  induction ts with
  | nil => exact addUp_map_zero _
  | cons t ts ih =>
    obtain ⟨ht, hts⟩ := List.forall_mem_cons.mp h
    have hone : (List.range n).count t = 1 :=
      List.count_eq_one_of_mem List.nodup_range (List.mem_range.mpr ht)
    simp only [List.count_cons, beq_iff_eq]
    rw [addUp_map_add, ih hts, addUp_map_eq_count, hone, List.length_cons]

/-- Views that show as many relationships from a node to another as back show as many in all. -/
theorem View.Sound.targetCount_eq {v w : View} (hv : v.Sound) (hw : w.Sound)
    (hn : v.nodeCount = w.nodeCount)
    (hcount : ∀ {x y}, x < v.nodeCount → y < v.nodeCount →
      (v.targets x).count y = (w.targets y).count x) :
    v.targetCount = w.targetCount := by
  have hcounted : ∀ {u : View}, u.Sound → u.targetCount =
      addUp ((List.range u.nodeCount).map fun x =>
        addUp ((List.range u.nodeCount).map fun y => (u.targets x).count y)) := by
    intro u hu
    refine congrArg addUp (List.map_congr_left fun x hx => (addUp_map_count fun t ht => ?_).symm)
    exact hu.bounded (List.mem_range.mp hx) ht
  rw [hcounted hv, hcounted hw, addUp_comm, ← hn]
  refine congrArg addUp (List.map_congr_left fun y hy => ?_)
  refine congrArg addUp (List.map_congr_left fun x hx => ?_)
  exact hcount (List.mem_range.mp hx) (List.mem_range.mp hy)

namespace SideHolds

variable {p : Projection} {pairs pairs' : Nat → Nat → List (Nat × Nat)} {arrivals : List Arrival}
  {stored stored' : Nat → List Row} {adjacency adjacency' : Adjacency}
  {tables tables' : List (String × ValueTable)} {m : Numbering}

/-- Views of two sides are transposes if their pairs are. -/
theorem transposes (hvalid : p.validate = .ok ()) (hpairs : TransposedPairs pairs pairs')
    (h : SideHolds p m.nodeCount (Arrival.rows pairs arrivals) stored adjacency tables)
    (h' : SideHolds p m.nodeCount (Arrival.rows pairs' arrivals) stored' adjacency' tables')
    {sg sg' : SingleGraph} {key : Option String} (hsg : sg.Reads m adjacency tables key)
    (hsg' : sg'.Reads m adjacency' tables' key) (hsound : sg.Sound) (hsound' : sg'.Sound) :
    (View.ofSingle sg).Transposes (View.ofSingle sg') := by
  have hview : (View.ofSingle sg).Sound := View.sound_ofSingle hsound
  have hview' : (View.ofSingle sg').Sound := View.sound_ofSingle hsound'
  have hn : (View.ofSingle sg).nodeCount = m.nodeCount := congrArg _ hsg.numbering
  have hn' : (View.ofSingle sg').nodeCount = m.nodeCount := congrArg _ hsg'.numbering
  have hback : ∀ {y}, y < (View.ofSingle sg).nodeCount → y < (View.ofSingle sg').nodeCount :=
    fun hy => Nat.lt_of_lt_of_eq hy (hn.trans hn'.symm)
  have hcount : ∀ {x y}, x < (View.ofSingle sg).nodeCount → y < (View.ofSingle sg).nodeCount →
      ((View.ofSingle sg).targets x).count y = ((View.ofSingle sg').targets y).count x := by
    intro x y hx hy
    rw [View.targets_ofSingle hsound hx, View.targets_ofSingle hsound' (hback hy), hsg.adjacency,
      hsg'.adjacency]
    exact count_targets_eq hvalid hpairs h h' (hn ▸ hx) (hn ▸ hy)
  constructor
  case numbering => exact hsg.numbering.trans hsg'.numbering.symm
  case targets =>
    intro x y hx hy
    exact ⟨_, _, hview.targets?_eq hx, hview'.targets?_eq (hback hy), hcount hx hy⟩
  case values =>
    intro fallback x y hx hy
    refine ⟨sg.weighted fallback x, sg'.weighted fallback y, ?_, ?_, ?_⟩
    · exact (View.weighted?_ofSingle ..).trans (if_pos hx)
    · exact (View.weighted?_ofSingle ..).trans (if_pos (hback hy))
    · rw [h.weighted_eq hsg fallback (hn ▸ hx), h'.weighted_eq hsg' fallback (hn ▸ hy),
        Row.valuesOf_map_shown, Row.valuesOf_map_shown, map_values_rowsTo hvalid hpairs h h']
  case relationshipCount =>
    rw [View.relationshipCount_ofSingle hsound, View.relationshipCount_ofSingle hsound']
    exact hview.targetCount_eq hview' (hn.trans hn'.symm) hcount

end SideHolds

/-! ## Both sides of a type -/

namespace TypeTables

variable {t : TypeTables} {p : Projection} {n : Nat} {arrivals : List Arrival}

/-- A type that is stored both ways has an incoming side, which holds the relationships turned
round. -/
theorem Holds.exists_incoming (h : t.Holds p n arrivals)
    (hboth : p.orientation = .undirected ∨ p.withInverse = true) (type : String) :
    ∃ adjacency values inverse pairs stored,
      PropertyGraph.side type t .incoming = .ok (adjacency, values, inverse) ∧
      TransposedPairs p.pairs pairs ∧
      SideHolds p n (Arrival.rows pairs arrivals) stored adjacency values := by
  by_cases horientation : p.orientation = .undirected
  · obtain ⟨stored, hside⟩ := h.outgoing
    have hundirected : t.outgoing.isUndirected = true :=
      h.isUndirected.trans (decide_eq_true horientation)
    refine ⟨_, _, false, p.pairs, stored, ?_,
      Projection.transposedPairs_undirected horientation, hside⟩
    rw [PropertyGraph.side, if_pos hundirected]
  · have hinverse : p.storesInverse = true := by
      rw [Projection.storesInverse, Bool.and_eq_true, bne_iff_ne]
      exact ⟨hboth.resolve_left horientation, horientation⟩
    have hdirected : ¬ t.outgoing.isUndirected = true := by
      rw [h.isUndirected, decide_eq_true_eq]
      exact horientation
    obtain ⟨adjacency, hincoming⟩ :=
      Option.isSome_iff_exists.mp (h.isSome_incoming.trans hinverse)
    obtain ⟨-, stored, hside⟩ := h.incoming hincoming
    refine ⟨_, _, true, p.inversePairs, stored, ?_,
      Projection.transposedPairs_inverse hinverse, hside⟩
    rw [PropertyGraph.side, if_neg hdirected, hincoming]

end TypeTables

namespace PropertyGraph

variable {g : PropertyGraph} {type : String} {tables : TypeTables} {direction : Direction}

/-- A side is given with no key and with each of its keys. -/
theorem exists_single_iff (hlive : g.released = false) (htables : g.types.lookup type = some tables)
    {adjacency : Adjacency} {values : List (String × ValueTable)} {inverse : Bool}
    (hside : side type tables direction = .ok (adjacency, values, inverse))
    {key : Option String} :
    (∃ sg, g.single type direction key = .ok sg) ↔ ∀ k ∈ key, k ∈ names values := by
  constructor
  · rintro ⟨sg, hsg⟩ k rfl
    obtain ⟨adjacency', values', inverse', hside', hreads⟩ :=
      reads_of_single_eq_ok hlive htables hsg
    cases Except.ok.inj (hside'.symm.trans hside)
    obtain ⟨table, htable⟩ := Option.isSome_iff_exists.mp hreads.known
    exact mem_names_iff.mpr ⟨table, hreads.values.symm.trans htable⟩
  · intro hkey
    obtain ⟨sg, hsg, -⟩ := exists_single hlive htables hside (fun {k} h => hkey k h)
    exact ⟨sg, hsg⟩

end PropertyGraph

namespace GraphLoader

variable {b : GraphLoader} {identity : Nat} {g : PropertyGraph}

/-- A built graph has for every type the tables of some relationships between its nodes. -/
theorem exists_holds_of_build (h : b.build identity = .ok g) {type : String}
    (htype : type ∈ g.typeNames) :
    (b.projectionOf type).validate = .ok () ∧ ∃ (tables : TypeTables) (arrivals : List Arrival),
      g.Holds g.numbering type tables ∧ tables.Loaded g.numbering ∧
      tables.Holds (b.projectionOf type) g.numbering.nodeCount arrivals := by
  rw [PropertyGraph.typeNames, mem_sortedNames, names_types_of_build h] at htype
  obtain ⟨rs, hrs⟩ := mem_names_iff.mp htype
  obtain ⟨hlive, -, -⟩ := of_build_eq_ok h
  obtain ⟨hvalid, tables, arrivals, htables, -, hloaded, hholds⟩ :=
    exists_arrivals_of_build h hrs
  exact ⟨hvalid, tables, arrivals, ⟨hlive, rfl, htables⟩, hloaded, hholds⟩

/-- Of a type that is stored both ways there are views of both sides, with no property or with any
of the type's, and the incoming one shows the outgoing relationships turned round.  An undirected
type shows the same relationships both ways on either side. -/
theorem single_transposes (h : b.build identity = .ok g) {type : String}
    (htype : type ∈ g.typeNames)
    (hboth : (b.projectionOf type).orientation = .undirected ∨
      (b.projectionOf type).withInverse = true) :
    (∀ direction ≠ .both, ∀ key : Option String,
      (∃ sg, g.single type direction key = .ok sg) ↔ ∀ k ∈ key, k ∈ (b.projectionOf type).keys) ∧
    ∀ {key : Option String} {out inc : SingleGraph},
      g.single type .outgoing key = .ok out → g.single type .incoming key = .ok inc →
      (View.ofSingle out).Transposes (View.ofSingle inc) ∧
      ((b.projectionOf type).orientation = .undirected →
        (View.ofSingle out).Transposes (View.ofSingle out) ∧
        (View.ofSingle inc).Transposes (View.ofSingle inc)) := by
  obtain ⟨hvalid, tables, arrivals, hg, hloaded, hholds⟩ := exists_holds_of_build h htype
  obtain ⟨stored, hside⟩ := hholds.outgoing
  obtain ⟨adjacency, values, inverse, pairs, stored', hrequest, hpairs, hside'⟩ :=
    hholds.exists_incoming hboth type
  constructor
  · intro direction hdirection key
    cases direction with
    | outgoing => rw [PropertyGraph.exists_single_iff hg.live hg.tables rfl, hside.keys]
    | incoming => rw [PropertyGraph.exists_single_iff hg.live hg.tables hrequest, hside'.keys]
    | both => exact absurd rfl hdirection
  · intro key out inc hout hinc
    obtain ⟨_, _, _, hrequest', hreads⟩ :=
      PropertyGraph.reads_of_single_eq_ok hg.live hg.tables hout
    cases hrequest'
    obtain ⟨_, _, _, hrequest', hreads'⟩ :=
      PropertyGraph.reads_of_single_eq_ok hg.live hg.tables hinc
    cases Except.ok.inj (hrequest'.symm.trans hrequest)
    have hsound := hg.sound_single hloaded hout
    have hsound' := hg.sound_single hloaded hinc
    refine ⟨hside.transposes hvalid hpairs hside' hreads hreads' hsound hsound',
      fun hundirected => ?_⟩
    have hself := Projection.transposedPairs_undirected hundirected
    exact ⟨hside.transposes hvalid hself hside hreads hreads hsound hsound,
      hside'.transposes hvalid (hpairs.self hself) hside' hreads' hreads' hsound' hsound'⟩

/-- Two nodes, and between them a relationship that is given twice and stored once. -/
def parallelCalls : List LoadCall :=
  [.node ⟨5, [], .empty⟩, .relationship ⟨8, 5, "T", .empty⟩, .relationship ⟨8, 5, "T", .empty⟩,
    .node ⟨8, [], .empty⟩,
    .project "T" { aggregation := .sum, properties := [{ key := "w" }], withInverse := true }]

theorem single_transposes_parallel : ∃ g out inc,
    (run { workers := 1 } parallelCalls).build 0 = .ok g ∧
    g.single "T" .outgoing (some "w") = .ok out ∧ g.single "T" .incoming (some "w") = .ok inc ∧
    (View.ofSingle out).Transposes (View.ofSingle inc) := by
  have hreached : (run { workers := 1 } parallelCalls).Reached := ⟨⟨1⟩, _, _, rfl, rfl⟩
  obtain ⟨g, hg⟩ :=
    hreached.consistent.exists_build_of_bare (by decide) (by decide) (by decide) (by decide) 0
  have htype : "T" ∈ g.typeNames := by
    rw [PropertyGraph.typeNames, mem_sortedNames, names_types_of_build hg]
    decide
  obtain ⟨hsingle, htransposes⟩ := single_transposes hg htype (Or.inr (by decide))
  obtain ⟨out, hout⟩ := (hsingle .outgoing nofun (some "w")).mpr (by decide)
  obtain ⟨inc, hinc⟩ := (hsingle .incoming nofun (some "w")).mpr (by decide)
  exact ⟨g, out, inc, hg, hout, hinc, (htransposes hout hinc).1⟩

end GraphLoader

end PagedGraph
