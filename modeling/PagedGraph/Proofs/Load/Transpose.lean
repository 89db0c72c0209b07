import PagedGraph.Proofs.Load.Loaded

/-!
# Rows in both directions

The two sides of a type are stored by different pairs, in different shards, and arranged each on
its own.  Yet they agree: the rows of a node that lead to another have the same values, in the
same order, as the rows that lead back on the other side.

* Pairs that are stored turned round are stored as often (`TransposedPairs`).  The pairs of an
  inverse side are such pairs, and so are those of an undirected type among themselves.
* The rows that relationships give in both directions have the same values
  (`Arrival.map_values_rowsTo`).
* What is stored of the rows to a target depends on their values only
  (`Row.map_values_rowsTo_congr`), whether parallel rows become one or not.
-/

namespace PagedGraph

/-! ## Pairs -/

/-- Pairs that the first function stores are stored by the second as often, turned round. -/
def TransposedPairs (pairs pairs' : Nat → Nat → List (Nat × Nat)) : Prop :=
  ∀ source target x y, (pairs source target).count (x, y) = (pairs' source target).count (y, x)

/-- What turns round pairs that are their own transpose is one too. -/
theorem TransposedPairs.self {pairs pairs' : Nat → Nat → List (Nat × Nat)}
    (h : TransposedPairs pairs pairs') (hself : TransposedPairs pairs pairs) :
    TransposedPairs pairs' pairs' := by
  intro source target x y
  rw [← h, hself, h]

theorem count_map_swap (pairs : List (Nat × Nat)) (x y : Nat) :
    (pairs.map Prod.swap).count (y, x) = pairs.count (x, y) := by
  rw [List.count_eq_countP, List.count_eq_countP, List.countP_map]
  refine List.countP_congr fun pair _ => ?_
  obtain ⟨s, t⟩ := pair
  simp [and_comm]

namespace Projection

variable {p : Projection}

/-- The inverse side has the pairs of the outgoing side turned round. -/
theorem transposedPairs_inverse (hinverse : p.storesInverse = true) :
    TransposedPairs p.pairs p.inversePairs := by
  intro source target x y
  rw [inversePairs, if_pos hinverse, count_map_swap]

/-- An undirected type has every pair in both directions. -/
theorem transposedPairs_undirected (horientation : p.orientation = .undirected) :
    TransposedPairs p.pairs p.pairs := by
  intro source target x y
  have hswap : ((p.pairs source target).map Prod.swap).Perm (p.pairs source target) := by
    rw [pairs]
    split
    · exact .nil
    · simp only [horientation]
      split
      · next hloop => rw [hloop]; exact .refl _
      · exact .swap ..
  rw [← count_map_swap, hswap.count_eq]

end Projection

/-! ## Rows -/

namespace Row

/-- A relationship gives a node a row to a target for each time it is stored as this pair. -/
theorem rowsTo_ofPairs (pairs : List (Nat × Nat)) (values : List Double) (node t : Nat) :
    rowsTo (ofPairs pairs values node) t = List.replicate (pairs.count (node, t)) ⟨t, values⟩ := by
  induction pairs with
  | nil => rfl
  | cons pair pairs ih =>
    obtain ⟨x, y⟩ := pair
    by_cases hx : x = node
    · by_cases hy : y = t
      · subst hx hy
        rw [List.count_cons_self, List.replicate_succ, ← ih]
        simp [rowsTo, ofPairs]
      · have hne : (x, y) ≠ (node, t) := fun h => hy (Prod.mk.inj h).2
        rw [List.count_cons_of_ne hne, ← ih]
        simp [rowsTo, ofPairs, hx, hy]
    · have hne : (x, y) ≠ (node, t) := fun h => hx (Prod.mk.inj h).1
      rw [List.count_cons_of_ne hne, ← ih]
      simp [ofPairs, hx]

theorem length_rowsTo (rows : List Row) (t : Nat) :
    (rowsTo rows t).length = (rows.map target).count t := by
  rw [rowsTo, List.count_eq_countP, List.countP_map, List.countP_eq_length_filter]
  rfl

/-- A group of rows with different targets is alone with its target. -/
theorem rowsTo_eq_singleton {groups : List Row} (hnodup : (groups.map target).Nodup) {group : Row}
    (hgroup : group ∈ groups) : rowsTo groups group.target = [group] := by
  have hmem : group ∈ rowsTo groups group.target :=
    List.mem_filter.mpr ⟨hgroup, decide_eq_true rfl⟩
  have hlength := length_rowsTo groups group.target
  rw [List.count_eq_one_of_mem hnodup (List.mem_map_of_mem hgroup)] at hlength
  obtain ⟨only, honly⟩ := List.length_eq_one_iff.mp hlength
  rw [honly] at hmem ⊢
  rw [List.mem_singleton.mp hmem]

variable {aggregations : List Aggregation} {rows rows' : List Row} {group group' : Row}

/-- A group is folded from the values of its rows. -/
theorem FoldsTo.values_congr (h : FoldsTo aggregations rows group)
    (h' : FoldsTo aggregations rows' group')
    (hvalues : (rowsTo rows group.target).map values = (rowsTo rows' group'.target).map values) :
    group.values = group'.values := by
  obtain ⟨first, rest, hrows, hfold⟩ := h
  obtain ⟨first', rest', hrows', hfold'⟩ := h'
  have hmap : ∀ (rows : List Row) (start : List Double),
      rows.foldlM (fun values row => Aggregation.combineAll aggregations values row.values) start =
        (rows.map values).foldlM (Aggregation.combineAll aggregations) start :=
    fun rows start => (List.foldlM_map ..).symm
  rw [hrows, hrows', List.map_cons, List.map_cons] at hvalues
  obtain ⟨hfirst, hrest⟩ := List.cons_eq_cons.mp hvalues
  rw [hmap, opening, hfirst, hrest, ← hmap] at hfold
  exact Except.ok.inj (hfold.symm.trans hfold')

/-- What is stored of the rows to a target depends on their values only. -/
theorem map_values_rowsTo_congr {collapses : Bool}
    (h : collapses = true → ∀ a ∈ aggregations, a.collapses = true) {stored stored' : List Row}
    (hstored : arrange collapses aggregations rows = .ok stored)
    (hstored' : arrange collapses aggregations rows' = .ok stored') {t t' : Nat}
    (hvalues : (rowsTo rows t).map values = (rowsTo rows' t').map values) :
    (rowsTo stored t).map values = (rowsTo stored' t').map values := by
  cases collapses with
  | false => rw [rowsTo_of_arrange hstored, rowsTo_of_arrange hstored', hvalues]
  | true =>
    obtain ⟨out, hout, htargets⟩ := exists_arrange h rows
    obtain ⟨out', hout', htargets'⟩ := exists_arrange h rows'
    obtain rfl := Except.ok.inj (hout.symm.trans hstored)
    obtain rfl := Except.ok.inj (hout'.symm.trans hstored')
    have hnodup : ∀ targets, (storedTargets true targets).Nodup := fun targets =>
      (List.mergeSort_perm ..).nodup_iff.mpr (List.nodup_dedup _)
    have hmem : ∀ {rs out : List Row} {u : Nat},
        out.map target = storedTargets true (rs.map target) →
        (u ∈ out.map target ↔ rowsTo rs u ≠ []) := by
      intro rs out u hmap
      rw [hmap, mem_storedTargets, Ne, rowsTo_eq_nil, not_not]
    have hnil : rowsTo rows t = [] ↔ rowsTo rows' t' = [] := by
      rw [← List.map_eq_nil_iff (f := values), hvalues, List.map_eq_nil_iff]
    by_cases hempty : rowsTo rows t = []
    · have hnone : rowsTo out t = [] :=
        rowsTo_eq_nil.mpr fun ht => (hmem htargets).mp ht hempty
      have hnone' : rowsTo out' t' = [] :=
        rowsTo_eq_nil.mpr fun ht => (hmem htargets').mp ht (hnil.mp hempty)
      rw [hnone, hnone']
    · obtain ⟨group, hgroup, rfl⟩ := List.mem_map.mp ((hmem htargets).mpr hempty)
      obtain ⟨group', hgroup', rfl⟩ :=
        List.mem_map.mp ((hmem htargets').mpr (mt hnil.mpr hempty))
      rw [rowsTo_eq_singleton (htargets ▸ hnodup _) hgroup,
        rowsTo_eq_singleton (htargets' ▸ hnodup _) hgroup', List.map_singleton, List.map_singleton,
        (foldsTo_of_arrange (h rfl) hstored group hgroup).values_congr
          (foldsTo_of_arrange (h rfl) hstored' group' hgroup') hvalues]

end Row

/-- Relationships give the rows in both directions the same values, in the same order. -/
theorem Arrival.map_values_rowsTo {pairs pairs' : Nat → Nat → List (Nat × Nat)}
    (h : TransposedPairs pairs pairs') (arrivals : List Arrival) (x y : Nat) :
    (Row.rowsTo (rows pairs arrivals x) y).map Row.values =
      (Row.rowsTo (rows pairs' arrivals y) x).map Row.values := by
  induction arrivals with
  | nil => rfl
  | cons a arrivals ih =>
    have hone : (Row.rowsTo (Row.ofPairs (pairs a.source a.target) a.values x) y).map Row.values =
        (Row.rowsTo (Row.ofPairs (pairs' a.source a.target) a.values y) x).map Row.values := by
      rw [Row.rowsTo_ofPairs, Row.rowsTo_ofPairs, List.map_replicate, List.map_replicate, h]
    rw [rows, rows, List.flatMap_cons, List.flatMap_cons, ← rows, ← rows, Row.rowsTo_append,
      Row.rowsTo_append, List.map_append, List.map_append, ih, hone]

/-! ## Sides -/

namespace SideHolds

variable {p : Projection} {n : Nat} {pairs pairs' : Nat → Nat → List (Nat × Nat)}
  {arrivals : List Arrival} {stored stored' : Nat → List Row} {adjacency adjacency' : Adjacency}
  {tables tables' : List (String × ValueTable)}

/-- The stored rows of two sides agree in both directions. -/
theorem map_values_rowsTo (hvalid : p.validate = .ok ()) (hpairs : TransposedPairs pairs pairs')
    (h : SideHolds p n (Arrival.rows pairs arrivals) stored adjacency tables)
    (h' : SideHolds p n (Arrival.rows pairs' arrivals) stored' adjacency' tables') (x y : Nat) :
    (Row.rowsTo (stored x) y).map Row.values = (Row.rowsTo (stored' y) x).map Row.values :=
  Row.map_values_rowsTo_congr (fun hc => Projection.collapses_of_validate hvalid hc)
    (h.arranged x) (h'.arranged y) (Arrival.map_values_rowsTo hpairs arrivals x y)

/-- A target occurs as often as rows lead to it. -/
theorem count_targets {rows : Nat → List Row} (h : SideHolds p n rows stored adjacency tables)
    {x : Nat} (hx : x < n) (y : Nat) :
    (adjacency.targets x).count y = (Row.rowsTo (stored x) y).length := by
  rw [h.adjacency.targets_eq hx, Row.length_rowsTo]

/-- Two sides have as many relationships from a node to another as back. -/
theorem count_targets_eq (hvalid : p.validate = .ok ()) (hpairs : TransposedPairs pairs pairs')
    (h : SideHolds p n (Arrival.rows pairs arrivals) stored adjacency tables)
    (h' : SideHolds p n (Arrival.rows pairs' arrivals) stored' adjacency' tables') {x y : Nat}
    (hx : x < n) (hy : y < n) :
    (adjacency.targets x).count y = (adjacency'.targets y).count x := by
  have hvalues := congrArg List.length (map_values_rowsTo hvalid hpairs h h' x y)
  rwa [List.length_map, List.length_map, ← h.count_targets hx, ← h'.count_targets hy] at hvalues

end SideHolds

end PagedGraph
