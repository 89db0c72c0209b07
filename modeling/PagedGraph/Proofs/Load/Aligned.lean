import PagedGraph.Proofs.Load.Fold
import PagedGraph.Proofs.Load.RoundTrip

/-!
# Values beside their targets

The calls that add relationships give a target of a node some values in each column, in
the order of the calls (`Projection.valuesTo`).  `Aligned` says how values stand beside
targets.

* Parallel relationships that are kept have their values in that order.
* Those that become one have a single value.  `Aggregation.Folds` says which one for each
  aggregation: the first, or what adding, comparing or counting one after another gives.

`Projection.AlignedSide` says so of all columns of all nodes, and `Projection.ReadsValues`
that the tables of a side give these values when they are read step by step.  The result,
`exists_built_aligned`, has values that depend on the projection and the calls, and any
number of workers builds tables that give them.
-/

namespace PagedGraph

/-! ## What is asked for -/

/-- The values in a column of the relationships that give a target, in the order of the calls.
`targets` says which targets a call gives. -/
def Projection.valuesTo (p : Projection) (targets : Nat → Nat → List Nat) (calls : List AddCall)
    (column t : Nat) : List Double :=
  (calls.filter fun call => t ∈ targets call.source call.target).map fun call =>
    (call.arrival p).values.getD column .nan

/-- The value that some values, one after another, become under an aggregation. -/
inductive Aggregation.Folds : Aggregation → List Double → Double → Prop where
  /-- The first value. -/
  | single (x : Double) (xs : List Double) : Folds .single (x :: xs) x
  /-- The sum, added up in order. -/
  | sum (x : Double) (xs : List Double) : Folds .sum (x :: xs) (xs.foldl Double.add x)
  /-- The smallest. -/
  | min (x : Double) (xs : List Double) : Folds .min (x :: xs) (xs.foldl Double.min x)
  /-- The largest. -/
  | max (x : Double) (xs : List Double) : Folds .max (x :: xs) (xs.foldl Double.max x)
  /-- One for the first, and one more for every further value. -/
  | count (x : Double) (xs : List Double) :
    Folds .count (x :: xs) (xs.foldl (fun n _ => n.add .one) .one)

/-- Values of a column beside the stored targets of a node.  The aggregation of the relationships
says whether parallel ones are kept, and that of the column what their values become. -/
structure Aligned (relationships a : Aggregation) (valuesTo : Nat → List Double)
    (targets : List Nat) (values : List Double) : Prop where
  length_eq : values.length = targets.length
  kept : relationships.orKeep = .keep → ∀ t,
    ((targets.zip values).filter fun entry => entry.1 = t).map Prod.snd = valuesTo t
  folded : relationships.orKeep ≠ .keep → ∀ entry ∈ targets.zip values,
    a.Folds (valuesTo entry.1) entry.2

namespace Projection

variable (p : Projection)

/-- Values by column and node, beside the targets that are stored after some calls. -/
def AlignedSide (targets : Nat → Nat → Nat → List Nat) (calls : List AddCall)
    (values : Nat → Nat → List Double) : Prop :=
  ∀ column property, p.properties[column]? = some property → ∀ node,
    Aligned p.aggregation (p.effective property)
      (p.valuesTo (targets node) calls column)
      (p.stored (calls.flatMap fun call => targets node call.source call.target))
      (values column node)

/-- In every column the tables of a side give a node as many values as it has targets. -/
def ReadsValues (n : Nat) (adjacency : Adjacency) (tables : List (String × ValueTable))
    (values : Nat → Nat → List Double) : Prop :=
  ∀ column property, p.properties[column]? = some property →
    ∃ table, tables.lookup property.key = some table ∧ ∀ node < n,
      (values column node).length = adjacency.degree node ∧
      (table.openValues node (adjacency.degree node)).Yields (values column node)

end Projection

/-! ## The rows of calls -/

section Calls

variable {p : Projection} {pairs : Nat → Nat → List (Nat × Nat)} {targets : Nat → Nat → List Nat}
  {node : Nat}

/-- A relationship has the same values in each of its rows. -/
theorem Row.ofPairs_eq (values : List Double) (pairs : List (Nat × Nat)) (node : Nat) :
    ofPairs pairs values node = ((ofPairs pairs values node).map target).map (⟨·, values⟩) := by
  simp [ofPairs]

/-- The rows of a target have the values of the calls that give it. -/
theorem map_valueOf_rowsTo
    (h : ∀ values source target,
      (Row.ofPairs (pairs source target) values node).map Row.target = targets source target)
    (hle : ∀ source target, (targets source target).length ≤ 1) (calls : List AddCall)
    (column t : Nat) :
    (Row.rowsTo (Arrival.rows pairs (calls.map (AddCall.arrival p)) node) t).map
      (Row.valueOf column) = p.valuesTo targets calls column t := by
  induction calls with
  | nil => rfl
  | cons call calls ih =>
    have hrows := Row.ofPairs_eq (call.arrival p).values
      (pairs (call.arrival p).source (call.arrival p).target) node
    rw [h, RelationshipLoader.arrival_source, RelationshipLoader.arrival_target] at hrows
    rw [List.map_cons, Arrival.rows, List.flatMap_cons, ← Arrival.rows, Row.rowsTo_append,
      List.map_append, ih, RelationshipLoader.arrival_source, RelationshipLoader.arrival_target,
      hrows, Projection.valuesTo, Projection.valuesTo]
    -- the call gives the node no target, the target asked for, or another one
    cases htargets : targets call.source call.target with
    | nil =>
      rw [List.filter_cons_of_neg (by simp [htargets])]
      rfl
    | cons target rest =>
      have hone := hle call.source call.target
      rw [htargets, List.length_cons] at hone
      obtain rfl : rest = [] := List.length_eq_zero_iff.mp (by omega)
      by_cases htarget : target = t
      · rw [List.filter_cons_of_pos (by simp [htargets, htarget])]
        simp [Row.rowsTo, htarget, Row.valueOf]
      · rw [List.filter_cons_of_neg (by simp [htargets, Ne.symm htarget])]
        simp [Row.rowsTo, htarget]

end Calls

/-! ## Arranged rows -/

/-- Combining values one after another gives what the aggregation folds them to. -/
theorem Aggregation.folds_of_foldlM {a : Aggregation} (h : a.collapses = true) {x y : Double}
    {xs : List Double} (hfold : xs.foldlM a.combine (a.first x) = .ok y) : a.Folds (x :: xs) y := by
  have hpure : ∀ (f : Double → Double → Double) (start : Double),
      xs.foldlM (fun running x => (.ok (f running x) : Except GraphError Double)) start =
        .ok (xs.foldl f start) := fun f start => List.foldlM_pure ..
  cases a with
  | unset => cases h
  | keep => cases h
  | single =>
    obtain rfl := Except.ok.inj ((hpure (fun running _ => running) x).symm.trans hfold)
    exact (List.foldl_fixed xs).symm ▸ .single x xs
  | sum =>
    obtain rfl := Except.ok.inj ((hpure Double.add x).symm.trans hfold)
    exact .sum x xs
  | min =>
    obtain rfl := Except.ok.inj ((hpure Double.min x).symm.trans hfold)
    exact .min x xs
  | max =>
    obtain rfl := Except.ok.inj ((hpure Double.max x).symm.trans hfold)
    exact .max x xs
  | count =>
    obtain rfl := Except.ok.inj ((hpure (fun n _ => n.add .one) .one).symm.trans hfold)
    exact .count x xs

/-- Arranged rows have their values beside their targets. -/
theorem aligned_of_arrange {p : Projection} (hvalid : p.validate = .ok ()) {rows stored : List Row}
    (hrows : ∀ row ∈ rows, row.values.length = p.aggregations.length)
    (hstored : Row.arrange p.aggregation.collapses p.aggregations rows = .ok stored)
    {column : Nat} {property : PropertyProjection}
    (hproperty : p.properties[column]? = some property) :
    Aligned p.aggregation (p.effective property)
      (fun t => (Row.rowsTo rows t).map (Row.valueOf column))
      (stored.map Row.target) (stored.map (Row.valueOf column)) where
  length_eq := by rw [List.length_map, List.length_map]
  kept hkeep t := by
    have hcollapses : p.aggregation.collapses = false := by
      simp [Aggregation.collapses, hkeep]
    rw [hcollapses] at hstored
    rw [← Row.rowsTo_of_arrange hstored, List.zip_map', List.filter_map, List.map_map]
    rfl
  folded hkeep entry hentry := by
    have hcollapses : p.aggregation.collapses = true := by
      simp [Aggregation.collapses, hkeep]
    have hcolumns := Projection.collapses_of_validate hvalid hcollapses
    have hcolumn : p.aggregations[column]? = some (p.effective property) := by
      rw [Projection.aggregations, List.getElem?_map, hproperty]
      rfl
    rw [hcollapses] at hstored
    rw [List.zip_map'] at hentry
    obtain ⟨row, hrow, rfl⟩ := List.mem_map.mp hentry
    obtain ⟨x, xs, hvalues, hfold⟩ :=
      (Row.foldsTo_of_arrange hcolumns hstored row hrow).column hrows hcolumn
    rw [hvalues]
    exact Aggregation.folds_of_foldlM (hcolumns _ (List.mem_of_getElem? hcolumn)) hfold

/-- The tables of a side that holds rows give their values. -/
theorem SideHolds.readsValues {p : Projection} {n : Nat} {rows stored : Nat → List Row}
    {adjacency : Adjacency} {tables : List (String × ValueTable)}
    (h : SideHolds p n rows stored adjacency tables) (hvalid : p.validate = .ok ()) :
    p.ReadsValues n adjacency tables fun column node =>
      (stored node).map (Row.valueOf column) := by
  intro column property hproperty
  have hkey : p.keys[column]? = some property.key := by
    rw [Projection.keys, List.getElem?_map, hproperty]
    rfl
  obtain ⟨hlt, hget⟩ := List.getElem?_eq_some_iff.mp hkey
  have hmem : property.key ∈ names tables := by
    rw [h.keys, ← hget]
    exact List.getElem_mem hlt
  obtain ⟨table, htable⟩ := mem_names_iff.mp hmem
  obtain ⟨found, hfound, hstores⟩ := h.values htable
  -- the keys are different, so the table of the key is the one of the column
  obtain ⟨hlt', hget', -⟩ := List.idxOf?_eq_some_iff.mp hfound
  have hsame : found = column :=
    (Projection.nodup_keys hvalid).getElem_inj_iff.mp (hget'.trans hget.symm)
  subst hsame
  refine ⟨table, htable, fun node hnode => ?_⟩
  have hdegree : ((stored node).map (Row.valueOf found)).length = adjacency.degree node := by
    rw [h.adjacency.degree hnode, List.length_map, List.length_map]
  refine ⟨hdegree, ?_⟩
  have hyields := ValueCursor.yields_toList (table.openValues node (adjacency.degree node))
  have hread := hstores hnode
  rw [hdegree] at hread
  rwa [hread] at hyields

/-- The values of arranged rows stand beside the targets that are stored. -/
theorem alignedSide_of_arrange {p : Projection} {calls : List AddCall}
    (hvalid : p.validate = .ok ())
    {pairs : Nat → Nat → List (Nat × Nat)} {targets : Nat → Nat → Nat → List Nat}
    (hvalues : ∀ node, ∀ row ∈ Arrival.rows pairs (calls.map (AddCall.arrival p)) node,
      row.values.length = p.aggregations.length)
    (htargets : ∀ node values source target,
      (Row.ofPairs (pairs source target) values node).map Row.target = targets node source target)
    (hle : ∀ node source target, (targets node source target).length ≤ 1)
    {stored : Nat → List Row}
    (hstored : ∀ node, Row.arrange p.aggregation.collapses p.aggregations
      (Arrival.rows pairs (calls.map (AddCall.arrival p)) node) = .ok (stored node))
    (hmap : ∀ node, (stored node).map Row.target = storedTargets p.aggregation.collapses
      ((Arrival.rows pairs (calls.map (AddCall.arrival p)) node).map Row.target)) :
    p.AlignedSide targets calls fun column node => (stored node).map (Row.valueOf column) := by
  intro column property hproperty node
  have haligned := aligned_of_arrange hvalid (hvalues node) (hstored node) hproperty
  simp only [hmap, Arrival.map_target_rows (htargets node),
    AddCall.flatMap_arrival p (targets node), map_valueOf_rowsTo (htargets node) (hle node),
    ← p.stored_eq] at haligned
  exact haligned

/-- Whatever tables hold the rows of calls give the same values, which stand beside the targets that
are stored. -/
theorem exists_readsValues {p : Projection} {n : Nat} {calls : List AddCall}
    (hvalid : p.validate = .ok ())
    (hproper : ∀ a ∈ calls.map (AddCall.arrival p), a.Proper n p) :
    ∃ outgoing incoming : Nat → Nat → List Double,
      p.AlignedSide p.outgoingTargets calls outgoing ∧
      (p.storesInverse = true → p.AlignedSide p.incomingTargets calls incoming) ∧
      ∀ {tables : TypeTables}, tables.Holds p n (calls.map (AddCall.arrival p)) →
        p.ReadsValues n tables.outgoing tables.outgoingValues outgoing ∧
        ∀ side, tables.incoming = some side →
          p.ReadsValues n side tables.incomingValues incoming := by
  obtain ⟨outRows, houtRows, houtTargets⟩ :=
    exists_arranged hvalid (Arrival.rows p.pairs (calls.map (AddCall.arrival p)))
  obtain ⟨inRows, hinRows, hinTargets⟩ :=
    exists_arranged hvalid (Arrival.rows p.inversePairs (calls.map (AddCall.arrival p)))
  refine ⟨fun column node => (outRows node).map (Row.valueOf column),
    fun column node => (inRows node).map (Row.valueOf column), ?_, fun hinverse => ?_,
    fun hholds => ?_⟩
  · exact alignedSide_of_arrange hvalid (fun _ => Arrival.length_values_rows hproper)
      (fun node values source target => p.map_target_ofPairs_pairs values node source target)
      p.length_outgoingTargets_le houtRows houtTargets
  · exact alignedSide_of_arrange hvalid (fun _ => Arrival.length_values_rows hproper)
      (fun node values source target =>
        p.map_target_ofPairs_inversePairs hinverse values node source target)
      p.length_incomingTargets_le hinRows hinTargets
  · -- arranging has one result, so the tables hold the rows chosen above
    have hrows : ∀ {rows stored chosen : Nat → List Row} {adjacency values},
        SideHolds p n rows stored adjacency values →
        (∀ node, Row.arrange p.aggregation.collapses p.aggregations (rows node) =
          .ok (chosen node)) → stored = chosen := fun hside hchosen =>
      funext fun node => Except.ok.inj ((hside.arranged node).symm.trans (hchosen node))
    refine ⟨?_, fun side hside => ?_⟩
    · obtain ⟨stored, hout⟩ := hholds.outgoing
      rw [← hrows hout houtRows]
      exact hout.readsValues hvalid
    · obtain ⟨-, stored, hin⟩ := hholds.incoming hside
      rw [← hrows hin hinRows]
      exact hin.readsValues hvalid

/-- Values stay with their targets.  For the calls of a valid projection there are values of every
column and node, beside the stored targets and folded or ordered as the calls came, and any number
of workers loads the calls into tables that give these targets and these values. -/
theorem exists_built_aligned {m : Numbering} {p : Projection} {calls : List AddCall}
    (hvalid : p.validate = .ok ())
    (hends : ∀ call ∈ calls, call.source < m.nodeCount ∧ call.target < m.nodeCount)
    (hvalues : ∀ call ∈ calls, (call.arrival p).values.length = p.properties.length)
    (hfit : DegreesFit m.nodeCount p calls) :
    ∃ outgoing incoming : Nat → Nat → List Double,
      p.AlignedSide p.outgoingTargets calls outgoing ∧
      (p.storesInverse = true → p.AlignedSide p.incomingTargets calls incoming) ∧
      ∀ {workers : Nat}, 0 < workers → ∃ tables, Built m p workers calls tables ∧
        tables.Decodes m.nodeCount p calls ∧
        p.ReadsValues m.nodeCount tables.outgoing tables.outgoingValues outgoing ∧
        ∀ side, tables.incoming = some side →
          p.ReadsValues m.nodeCount side tables.incomingValues incoming := by
  have hproper := List.forall_mem_map.mpr (RelationshipLoader.proper_arrival hends hvalues)
  obtain ⟨outgoing, incoming, hout, hin, hreads⟩ := exists_readsValues hvalid hproper
  refine ⟨outgoing, incoming, hout, hin, fun hworkers => ?_⟩
  obtain ⟨tables, hbuilt, hholds⟩ := exists_built_holds hworkers hvalid hends hvalues hfit
  exact ⟨tables, hbuilt, hholds.decodes, hreads hholds⟩

/-- Parallel relationships become one, their weights are added up and they are counted. -/
def countedWeights : Projection where
  aggregation := .sum
  withInverse := true
  properties :=
    [{ key := "weight", defaultValue := .one }, { key := "count", aggregation := .count }]

/-- Two parallel relationships, the second with the default weight, and a self-loop. -/
def countedCalls : List AddCall :=
  [.valued 0 1 [.one, .zero], .plain 0 1, .valued 1 1 [.zero, .zero]]

/-- The first node has one target, of weight two and counted twice. -/
theorem exists_built_aligned_counted :
    ∃ outgoing incoming tables,
      countedWeights.AlignedSide countedWeights.outgoingTargets countedCalls outgoing ∧
      countedWeights.AlignedSide countedWeights.incomingTargets countedCalls incoming ∧
      Built (.ofAscending 0 [(1, []), (2, [])] (by decide)) countedWeights 2 countedCalls tables ∧
      tables.Decodes 2 countedWeights countedCalls ∧
      countedWeights.ReadsValues 2 tables.outgoing tables.outgoingValues outgoing ∧
      outgoing 0 0 = [⟨0x4000000000000000⟩] ∧ outgoing 1 0 = [⟨0x4000000000000000⟩] := by
  obtain ⟨outgoing, incoming, hout, hin, hloads⟩ :=
    @exists_built_aligned (.ofAscending 0 [(1, []), (2, [])] (by decide)) countedWeights
      countedCalls (by decide) (by decide) (by decide) (.of_length (by decide))
  obtain ⟨tables, hbuilt, hdecodes, hvalues, -⟩ := @hloads 2 (by decide)
  have htargets : countedWeights.stored (countedCalls.flatMap fun call =>
      countedWeights.outgoingTargets 0 call.source call.target) = [1] :=
    List.mergeSort_singleton 1
  have hweight := hout 0 _ rfl 0
  have hcount := hout 1 _ rfl 0
  rw [htargets] at hweight hcount
  obtain ⟨weight, hweights⟩ := List.length_eq_one_iff.mp hweight.length_eq
  obtain ⟨count, hcounts⟩ := List.length_eq_one_iff.mp hcount.length_eq
  rw [hweights] at hweight
  rw [hcounts] at hcount
  have hsum := hweight.folded (by decide) (1, weight) List.mem_cons_self
  have htwice := hcount.folded (by decide) (1, count) List.mem_cons_self
  refine ⟨outgoing, incoming, tables, hout, hin (by decide), hbuilt, hdecodes, hvalues, ?_, ?_⟩
  · cases hsum
    rw [hweights]
    decide +kernel
  · cases htwice
    rw [hcounts]
    decide +kernel

end PagedGraph
