import Mathlib.Data.List.Dedup
import Mathlib.Logic.Relation
import PagedGraph.Proofs.Graph.Tables
import PagedGraph.Proofs.Page.Partition

/-!
# Release

A table goes when the last of its owners goes.  Its owners are the graph, until it is released, and
every reference of every live view.  A `Custody` is a graph with its live views and the number of
owners of every table.  Views are opened, copied, made out of others and dropped, and the graph is
pinned, let go and released (`Custody.Step`).

* Every step keeps the number of owners right (`Custody.Keeps.step`), so it is right however the
  graph was used.
* The tables that only the graph owns are freed by a release.  These are the tables that no live
  view refers to (`Custody.Keeps.accountAll_eq`).
* Every live view finds its tables in memory (`Custody.Keeps.readFrom?_eq`).

So a release accounts for every byte once (`GraphLoader.release_accounts`).
-/

namespace PagedGraph

/-! ## A release -/

namespace PropertyGraph

variable {g : PropertyGraph} {live : List View}

/-- A release succeeds on a live graph that is not pinned, and takes its tables and columns away. -/
theorem release_eq_ok_iff {summary : ReleaseSummary} {after : PropertyGraph} :
    g.release live = .ok (summary, after) ↔ g.released = false ∧ g.pinned = false ∧
      summary = g.releaseSummary live ∧
      after = { g with columns := .empty, types := [], released := true } := by
  rw [release, checkLive]
  cases hreleased : g.released with
  | true => simp [bind, Except.bind]
  | false =>
    cases hpinned : g.pinned with
    | true => simp [bind, Except.bind]
    | false => simp [bind, Except.bind, pure, Except.pure, eq_comm]

/-- The tables that live views refer to. -/
def heldTables (g : PropertyGraph) (live : List View) : List (TableName × SharedTable) :=
  g.sharedTables.filter fun t => (live.flatMap View.tables).contains t.1

/-- The tables that no live view refers to. -/
def freedTables (g : PropertyGraph) (live : List View) : List (TableName × SharedTable) :=
  g.sharedTables.filter fun t => !(live.flatMap View.tables).contains t.1

/-- Bytes of some tables. -/
def bytesOf (tables : List (TableName × SharedTable)) : Nat :=
  addUp (tables.map fun t => t.2.byteSize)

theorem releaseSummary_eq : g.releaseSummary live =
    { freedBytes := bytesOf (g.freedTables live) + g.columns.byteSize
      heldBytes := bytesOf (g.heldTables live)
      heldTables := (g.heldTables live).length } := by
  simp [releaseSummary, tableSizes_eq, freedTables, heldTables, bytesOf, List.filter_map,
    Function.comp_def]

/-- Every table is freed or held. -/
theorem bytesOf_freed_add_held (g : PropertyGraph) (live : List View) :
    bytesOf (g.freedTables live) + bytesOf (g.heldTables live) =
      addUp (g.tableSizes.map Prod.snd) := by
  have hperm := List.filter_append_perm
    (fun t : TableName × SharedTable => !(live.flatMap View.tables).contains t.1) g.sharedTables
  simp only [Bool.not_not] at hperm
  rw [bytesOf, bytesOf, ← addUp_append, ← List.map_append, tableSizes_eq, List.map_map]
  exact addUp_perm (hperm.map _)

/-- Every byte is freed, held or the numbering's. -/
theorem freed_add_held_add_numbering (setBytes : List Nat → Nat) :
    (g.releaseSummary live).freedBytes + (g.releaseSummary live).heldBytes +
      g.numbering.byteSize setBytes = g.byteSize setBytes := by
  rw [releaseSummary_eq, byteSize, ← bytesOf_freed_add_held g live]
  show bytesOf _ + g.columns.byteSize + bytesOf _ + _ = _
  omega

/-- The tables held are those that live views refer to, each counted once. -/
theorem WellNamed.heldTables_perm (h : g.WellNamed) (hlive : ∀ v ∈ live, g.Offers v) :
    (g.heldTables live).Perm (live.flatMap View.shares).dedup := by
  have hnodup : (g.heldTables live).Nodup := (List.Nodup.of_map _ h.nodup).filter _
  refine (List.perm_ext_iff_of_nodup hnodup (List.nodup_dedup _)).mpr fun t => ?_
  rw [List.mem_dedup, heldTables, List.mem_filter, List.contains_iff_mem]
  constructor
  · rintro ⟨ht, hname⟩
    obtain ⟨v, hv, hname⟩ := List.mem_flatMap.mp hname
    obtain ⟨hnames, hshares⟩ := (hlive v hv).mem_sharedTables
    rw [← hnames] at hname
    obtain ⟨u, hu, heq⟩ := List.mem_map.mp hname
    have hsame : u = t := by
      have hlookup := lookup_of_mem h.nodup (hshares u hu)
      rw [heq, lookup_of_mem h.nodup ht] at hlookup
      exact Prod.ext heq (Option.some.inj hlookup).symm
    exact List.mem_flatMap.mpr ⟨v, hv, hsame ▸ hu⟩
  · intro ht
    obtain ⟨v, hv, ht⟩ := List.mem_flatMap.mp ht
    obtain ⟨hnames, hshares⟩ := (hlive v hv).mem_sharedTables
    exact ⟨hshares t ht, List.mem_flatMap.mpr ⟨v, hv, hnames ▸ List.mem_map_of_mem ht⟩⟩

end PropertyGraph

/-! ## Owners -/

/-- A graph with its live views and the number of owners of every table. -/
structure Custody where
  graph : PropertyGraph
  live : List View
  owners : TableName → Nat

namespace Custody

/-- A graph of which there are no views owns each of its tables alone. -/
def start (g : PropertyGraph) : Custody :=
  ⟨g, [], fun name => (g.sharedTables.map Prod.fst).count name⟩

/-- One more live view owns the tables that it refers to. -/
def take (c : Custody) (v : View) : Custody :=
  { c with live := v :: c.live, owners := fun name => c.owners name + v.tables.count name }

/-- The graph owns its tables no longer. -/
def giveUp (c : Custody) (after : PropertyGraph) : Custody :=
  { c with
    graph := after
    owners := fun name => c.owners name - (c.graph.sharedTables.map Prod.fst).count name }

/-- The tables that have an owner. -/
def memory (c : Custody) (tables : List (TableName × SharedTable)) :
    List (TableName × SharedTable) :=
  tables.filter fun t => 0 < c.owners t.1

/-- What can be done with a graph and its views. -/
inductive Step (g : PropertyGraph) : Custody → Custody → Prop where
  | pinned {c : Custody} (pinned : Bool) : Step g c { c with graph := c.graph.setPinned pinned }
  | opened {c : Custody} {v : View} (hlive : c.graph.released = false) (hv : g.Offers v) :
    Step g c (c.take v)
  | copied {c : Custody} {v : View} (hv : v ∈ c.live) : Step g c (c.take v)
  /-- A view is made out of others, whose references go over to it. -/
  | turned {c : Custody} {v : View} {used rest : List View} (hlive : c.live.Perm (used ++ rest))
    (hv : g.Offers v) (htables : v.tables = used.flatMap View.tables) :
    Step g c { c with live := v :: rest }
  | dropped {c : Custody} {v : View} {rest : List View} (hlive : c.live.Perm (v :: rest)) :
    Step g c { c with live := rest, owners := fun name => c.owners name - v.tables.count name }
  | released {c : Custody} {summary : ReleaseSummary} {after : PropertyGraph}
    (h : c.graph.release c.live = .ok (summary, after)) : Step g c (c.giveUp after)

/-- What holds of a graph and its views however they are used. -/
structure Keeps (g : PropertyGraph) (c : Custody) : Prop where
  offered : ∀ v ∈ c.live, g.Offers v
  numbering : c.graph.numbering = g.numbering
  types : c.graph.released = false → c.graph.types = g.types
  owners : ∀ name, c.owners name =
    (c.graph.sharedTables.map Prod.fst).count name + (c.live.flatMap View.tables).count name

variable {g : PropertyGraph} {c c' : Custody}

theorem keeps_start (g : PropertyGraph) : Keeps g (start g) where
  offered := nofun
  numbering := rfl
  types _ := rfl
  owners _ := rfl

/-- A view that is taken has its references counted. -/
theorem Keeps.take (h : Keeps g c) {v : View} (hv : g.Offers v) : Keeps g (c.take v) where
  offered := List.forall_mem_cons.mpr ⟨hv, h.offered⟩
  numbering := h.numbering
  types := h.types
  owners name := by
    show c.owners name + v.tables.count name = (c.graph.sharedTables.map Prod.fst).count name +
      ((v :: c.live).flatMap View.tables).count name
    rw [h.owners, List.flatMap_cons, List.count_append]
    omega

/-- Every step keeps it. -/
theorem Keeps.step (h : Keeps g c) (hstep : Step g c c') : Keeps g c' := by
  cases hstep with
  | pinned => exact ⟨h.offered, h.numbering, h.types, h.owners⟩
  | opened _ hv => exact h.take hv
  | copied hv => exact h.take (h.offered _ hv)
  | @turned v used rest hlive hv htables =>
    refine ⟨List.forall_mem_cons.mpr ⟨hv, fun u hu => ?_⟩, h.numbering, h.types, fun name => ?_⟩
    · exact h.offered u (hlive.mem_iff.mpr (List.mem_append_right used hu))
    · show c.owners name = _
      rw [h.owners, (hlive.flatMap_right View.tables).count_eq, List.flatMap_append,
        List.flatMap_cons, htables]
  | @dropped v rest hlive =>
    refine ⟨fun u hu => ?_, h.numbering, h.types, fun name => ?_⟩
    · exact h.offered u (hlive.mem_iff.mpr (List.mem_cons_of_mem v hu))
    · show c.owners name - v.tables.count name =
        (c.graph.sharedTables.map Prod.fst).count name + (rest.flatMap View.tables).count name
      rw [h.owners, (hlive.flatMap_right View.tables).count_eq, List.flatMap_cons,
        List.count_append]
      omega
  | released hrelease =>
    obtain ⟨-, -, -, rfl⟩ := PropertyGraph.release_eq_ok_iff.mp hrelease
    refine ⟨h.offered, h.numbering, nofun, fun name => ?_⟩
    show c.owners name - _ = _
    rw [h.owners]
    exact (Nat.add_sub_cancel_left ..).trans (Nat.zero_add _).symm

theorem keeps_of_steps (h : Relation.ReflTransGen (Step g) (start g) c) : Keeps g c := by
  induction h with
  | refl => exact keeps_start g
  | tail _ hstep ih => exact ih.step hstep

/-- A graph has its tables until it is released. -/
theorem Keeps.sharedTables_eq (h : Keeps g c) (hlive : c.graph.released = false) :
    c.graph.sharedTables = g.sharedTables := by
  rw [PropertyGraph.sharedTables, PropertyGraph.sharedTables, h.types hlive]
  refine List.flatMap_congr fun t _ => ?_
  simp only [PropertyGraph.typeTables, PropertyGraph.tableName, h.numbering]

/-! ## Memory -/

/-- Every live view finds its tables in memory. -/
theorem Keeps.readFrom?_eq (h : Keeps g c) (hg : g.WellNamed) {v : View} (hv : v ∈ c.live) :
    v.readFrom? (c.memory g.sharedTables) = some v := by
  obtain ⟨hnames, hshares⟩ := (h.offered v hv).mem_sharedTables
  have hnodup : ((c.memory g.sharedTables).map Prod.fst).Nodup :=
    hg.nodup.sublist (List.filter_sublist.map _)
  refine (h.offered v hv).readFrom?_eq fun t ht => lookup_of_mem hnodup ?_
  have hname : t.1 ∈ c.live.flatMap View.tables :=
    List.mem_flatMap.mpr ⟨v, hv, hnames ▸ List.mem_map_of_mem ht⟩
  refine List.mem_filter.mpr ⟨hshares t ht, decide_eq_true ?_⟩
  rw [h.owners]
  exact Nat.lt_of_lt_of_le (List.count_pos_iff.mpr hname) (Nat.le_add_left ..)

/-! ## Accounting -/

/-- Give up a table: it is freed if it had no other owner. -/
def account (owners : TableName → Nat) (s : ReleaseSummary) (t : TableName × SharedTable) :
    ReleaseSummary :=
  if owners t.1 = 1 then { s with freedBytes := s.freedBytes + t.2.byteSize }
  else { s with heldBytes := s.heldBytes + t.2.byteSize, heldTables := s.heldTables + 1 }

/-- Give up tables one after another, and then the columns. -/
def accountAll (owners : TableName → Nat) (tables : List (TableName × SharedTable))
    (columns : Columns) : ReleaseSummary :=
  let s := tables.foldl (account owners) ⟨0, 0, 0⟩
  { s with freedBytes := s.freedBytes + columns.byteSize }

/-- What was given up is what had one owner, and what is held what had more. -/
theorem foldl_account (owners : TableName → Nat) (tables : List (TableName × SharedTable))
    (s : ReleaseSummary) : tables.foldl (account owners) s =
      { freedBytes := s.freedBytes + PropertyGraph.bytesOf (tables.filter (owners ·.1 = 1))
        heldBytes := s.heldBytes + PropertyGraph.bytesOf (tables.filter (owners ·.1 ≠ 1))
        heldTables := s.heldTables + (tables.filter (owners ·.1 ≠ 1)).length } := by
  induction tables generalizing s with
  | nil => rfl
  | cons t tables ih =>
    rw [List.foldl_cons, ih, account]
    by_cases howners : owners t.1 = 1 <;>
      simp [howners, PropertyGraph.bytesOf, Nat.add_assoc, Nat.add_comm 1]

/-- The order in which tables are given up makes no difference. -/
theorem accountAll_perm {owners : TableName → Nat} {tables tables' : List (TableName × SharedTable)}
    (h : tables.Perm tables') (columns : Columns) :
    accountAll owners tables columns = accountAll owners tables' columns := by
  have hsize : ∀ p : TableName × SharedTable → Bool,
      PropertyGraph.bytesOf (tables.filter p) = PropertyGraph.bytesOf (tables'.filter p) :=
    fun p => addUp_perm ((h.filter p).map _)
  rw [accountAll, accountAll, foldl_account, foldl_account, hsize, hsize,
    (h.filter fun t => owners t.1 ≠ 1).length_eq]

/-- Giving up the tables one by one does what a release says. -/
theorem Keeps.accountAll_eq (h : Keeps g c) (hg : g.WellNamed) (hlive : c.graph.released = false)
    {tables : List (TableName × SharedTable)} (htables : tables.Perm c.graph.sharedTables) :
    accountAll c.owners tables c.graph.columns = c.graph.releaseSummary c.live := by
  have hnodup : (c.graph.sharedTables.map Prod.fst).Nodup := h.sharedTables_eq hlive ▸ hg.nodup
  have hone : ∀ t ∈ c.graph.sharedTables,
      (c.owners t.1 = 1 ↔ t.1 ∉ c.live.flatMap View.tables) := by
    intro t ht
    rw [h.owners, List.count_eq_one_of_mem hnodup (List.mem_map_of_mem ht),
      ← List.count_eq_zero]
    omega
  have hfreed : c.graph.sharedTables.filter (c.owners ·.1 = 1) = c.graph.freedTables c.live :=
    List.filter_congr fun t ht => by rw [Bool.eq_iff_iff]; simp [hone t ht]
  have hheld : c.graph.sharedTables.filter (c.owners ·.1 ≠ 1) = c.graph.heldTables c.live :=
    List.filter_congr fun t ht => by simp [hone t ht]
  rw [accountAll_perm htables, accountAll, foldl_account, hfreed, hheld,
    PropertyGraph.releaseSummary_eq]
  simp

/-- After a release the tables left are those that live views refer to. -/
theorem Keeps.mem_memory_iff (h : Keeps g c) (hreleased : c.graph.types = []) {t} :
    t ∈ c.memory g.sharedTables ↔ t ∈ g.heldTables c.live := by
  have hnone : c.graph.sharedTables = [] := by rw [PropertyGraph.sharedTables, hreleased]; rfl
  rw [memory, PropertyGraph.heldTables, List.mem_filter, List.mem_filter, h.owners, hnone,
    List.map_nil, List.count_nil, Nat.zero_add, decide_eq_true_iff, List.count_pos_iff,
    List.contains_iff_mem]

/-- A release accounts for every table of a graph, and leaves the live views what they were. -/
structure Accounts (g : PropertyGraph) (c : Custody) (summary : ReleaseSummary)
    (after : PropertyGraph) : Prop where
  /-- Every byte is freed, held by live views or the numbering's, whatever a set of nodes takes. -/
  bytes : ∀ setBytes, summary.freedBytes + summary.heldBytes + g.numbering.byteSize setBytes =
    c.graph.byteSize setBytes
  /-- The tables that live views refer to are held, each counted once. -/
  heldTables : summary.heldTables = (c.live.flatMap View.shares).dedup.length
  heldBytes : summary.heldBytes = PropertyGraph.bytesOf (c.live.flatMap View.shares).dedup
  unseen : c.live = [] → summary.heldTables = 0 ∧ summary.heldBytes = 0
  /-- Giving up the tables one by one, in any order, finds the same. -/
  account : ∀ {tables}, tables.Perm c.graph.sharedTables →
    accountAll c.owners tables c.graph.columns = summary
  /-- Only the numbering is left of the graph. -/
  numbering : after.numbering = g.numbering
  byteSize : ∀ setBytes, after.byteSize setBytes = g.numbering.byteSize setBytes
  relationshipCount : after.relationshipCount = 0
  /-- Of the tables those are left that are held. -/
  memory : ∀ t, t ∈ (c.giveUp after).memory g.sharedTables ↔ ∃ v ∈ c.live, t ∈ v.shares
  /-- Whatever is done from then on, every live view is what it was. -/
  views : ∀ {c'}, Relation.ReflTransGen (Step g) (c.giveUp after) c' → ∀ v ∈ c'.live,
    v.readFrom? (c'.memory g.sharedTables) = some v

theorem accounts_of_release (hg : g.WellNamed) (hc : Relation.ReflTransGen (Step g) (start g) c)
    {summary : ReleaseSummary} {after : PropertyGraph}
    (h : c.graph.release c.live = .ok (summary, after)) : Accounts g c summary after := by
  have hkeeps := keeps_of_steps hc
  have hreleased := hc.tail (.released h)
  obtain ⟨hlive, -, hsummary, hafter⟩ := PropertyGraph.release_eq_ok_iff.mp h
  have hheld : (c.graph.heldTables c.live).Perm (c.live.flatMap View.shares).dedup := by
    rw [PropertyGraph.heldTables, hkeeps.sharedTables_eq hlive]
    exact hg.heldTables_perm hkeeps.offered
  have htables : summary.heldTables = (c.live.flatMap View.shares).dedup.length := by
    rw [hsummary, PropertyGraph.releaseSummary_eq, ← hheld.length_eq]
  have hbytes : summary.heldBytes = PropertyGraph.bytesOf (c.live.flatMap View.shares).dedup := by
    rw [hsummary, PropertyGraph.releaseSummary_eq]
    exact addUp_perm (hheld.map _)
  constructor
  case bytes =>
    intro setBytes
    rw [hsummary, ← hkeeps.numbering]
    exact PropertyGraph.freed_add_held_add_numbering setBytes
  case heldTables => exact htables
  case heldBytes => exact hbytes
  case unseen =>
    intro hnone
    rw [htables, hbytes, hnone]
    exact ⟨rfl, rfl⟩
  case account =>
    intro tables hperm
    rw [hsummary]
    exact hkeeps.accountAll_eq hg hlive hperm
  case numbering =>
    rw [hafter]
    exact hkeeps.numbering
  case byteSize =>
    intro setBytes
    rw [hafter, ← hkeeps.numbering]
    rfl
  case relationshipCount =>
    rw [hafter]
    rfl
  case memory =>
    intro t
    rw [(keeps_of_steps hreleased).mem_memory_iff (by rw [hafter]; rfl)]
    exact (hg.heldTables_perm hkeeps.offered).mem_iff.trans
      (List.mem_dedup.trans List.mem_flatMap)
  case views =>
    exact fun hsteps v hv => (keeps_of_steps (hreleased.trans hsteps)).readFrom?_eq hg hv

end Custody

namespace GraphLoader

variable {b b' : GraphLoader} {identity : Nat} {g : PropertyGraph} {c : Custody}

/-- However a built graph and its views were used, the graph can be released unless it is pinned or
was released before, and a release accounts for everything. -/
theorem release_accounts (h : b.Reached) (hb : b.Reordered b') (hg : b'.build identity = .ok g)
    (hc : Relation.ReflTransGen (Custody.Step g) (.start g) c) :
    (c.graph.released = false → c.graph.pinned = false →
      ∃ summary after, c.graph.release c.live = .ok (summary, after)) ∧
    ∀ {summary : ReleaseSummary} {after : PropertyGraph},
      c.graph.release c.live = .ok (summary, after) → Custody.Accounts g c summary after :=
  ⟨fun hlive hpinned =>
    ⟨_, _, PropertyGraph.release_eq_ok_iff.mpr ⟨hlive, hpinned, rfl, rfl⟩⟩,
    Custody.accounts_of_release (wellNamed_of_build h hb hg) hc⟩

/-- A view with a property and its copy, and another view that is dropped before the release. -/
theorem release_accounts_copied : ∃ g out c summary after,
    (run { workers := 1 } parallelCalls).build 0 = .ok g ∧
    g.single "T" .outgoing (some "w") = .ok out ∧
    c.live = [View.ofSingle out, View.ofSingle out] ∧
    c.graph.release c.live = .ok (summary, after) ∧ Custody.Accounts g c summary after := by
  have hreached : (run { workers := 1 } parallelCalls).Reached := ⟨⟨1⟩, _, _, rfl, rfl⟩
  obtain ⟨g, hg, hsides⟩ := exists_build_parallelCalls
  obtain ⟨hlive, -, -⟩ := of_build_eq_ok hg
  obtain ⟨out, hout⟩ := hsides .outgoing nofun (some "w") (by simp)
  obtain ⟨inc, hinc⟩ := hsides .incoming nofun none nofun
  have hopened := Relation.ReflTransGen.single
    (Custody.Step.opened (c := .start g) hlive (.single hout))
  have hother := hopened.tail (.opened hlive (.single hinc))
  have hcopied := hother.tail (.copied (List.mem_cons_of_mem _ List.mem_cons_self))
  have hdropped := hcopied.tail (.dropped (.swap (View.ofSingle inc) _ _))
  have hsteps := hdropped.tail (.pinned false)
  obtain ⟨hsucceeds, haccounts⟩ := release_accounts hreached (.refl _) hg hsteps
  obtain ⟨summary, after, hrelease⟩ := hsucceeds hlive rfl
  exact ⟨g, out, _, summary, after, hg, hout, rfl, hrelease, haccounts hrelease⟩

end GraphLoader

end PagedGraph
