import Mathlib.Data.List.Induction
import PagedGraph.Proofs.Load.Shards
import PagedGraph.Proofs.Load.Steps
import PagedGraph.Number.Ascending

/-!
# Folding rows

Sorting keeps the rows of a target in their order (`Row.rowsTo_sort`).  Collapsing takes the
sorted rows into groups one after another, the last group in front.

* One more row joins the last group or starts a new one (`Row.absorb_spec`).
* `Row.GroupsOf` is what every further row preserves: the targets of the groups descend, they
  are those of the rows, and the values of a group are folded from the rows of its target in
  their order (`Row.FoldsTo`).
* In each column such a fold is the one of the column's own aggregation
  (`Row.FoldsTo.column`).
-/

namespace PagedGraph

/-- The value of a row in a column.  Rows are asked for columns they have a value in. -/
def Row.valueOf (column : Nat) (row : Row) : Double := row.values.getD column .nan

/-- Rows with a value in a column have one each there. -/
theorem Row.column_eq_map {column : Nat} {rows : List Row}
    (h : ∀ row ∈ rows, column < row.values.length) :
    Row.column column rows = rows.map (Row.valueOf column) := by
  induction rows with
  | nil => rfl
  | cons row rows ih =>
    obtain ⟨hrow, hrows⟩ := List.forall_mem_cons.mp h
    rw [Row.column, List.filterMap_cons, List.getElem?_eq_getElem hrow, List.map_cons, ← ih hrows,
      Row.valueOf, List.getD_eq_getElem?_getD, List.getElem?_eq_getElem hrow]
    rfl

namespace Aggregation

/-- An aggregation under which parallel relationships become one combines any values. -/
theorem exists_combine {a : Aggregation} (h : a.collapses = true) (running x : Double) :
    ∃ merged, a.combine running x = .ok merged := by
  cases a with
  | unset => cases h
  | keep => cases h
  | single => exact ⟨_, rfl⟩
  | sum => exact ⟨_, rfl⟩
  | min => exact ⟨_, rfl⟩
  | max => exact ⟨_, rfl⟩
  | count => exact ⟨_, rfl⟩

theorem exists_combineAll {aggregations : List Aggregation}
    (h : ∀ a ∈ aggregations, a.collapses = true) (running xs : List Double) :
    ∃ merged, combineAll aggregations running xs = .ok merged := by
  induction aggregations generalizing running xs with
  | nil => exact ⟨[], rfl⟩
  | cons a aggregations ih =>
    cases running with
    | nil => exact ⟨[], rfl⟩
    | cons r running =>
      cases xs with
      | nil => exact ⟨[], rfl⟩
      | cons x xs =>
        obtain ⟨merged, hmerged⟩ := exists_combine (h a (List.mem_cons_self ..)) r x
        obtain ⟨rest, hrest⟩ := ih (fun b hb => h b (List.mem_cons_of_mem _ hb)) running xs
        refine ⟨merged :: rest, ?_⟩
        rw [combineAll, hmerged, hrest]
        rfl

/-- Rows of values are combined column by column. -/
theorem combine_of_combineAll {aggregations : List Aggregation} :
    ∀ {running xs merged : List Double}, running.length = aggregations.length →
      xs.length = aggregations.length → combineAll aggregations running xs = .ok merged →
      merged.length = aggregations.length ∧
        ∀ {column : Nat} {a : Aggregation}, aggregations[column]? = some a →
          a.combine (running.getD column .nan) (xs.getD column .nan) =
            .ok (merged.getD column .nan) := by
  induction aggregations with
  | nil =>
    intro running xs merged _ _ h
    cases h
    exact ⟨rfl, fun ha => by cases ha⟩
  | cons first rest ih =>
    intro running xs merged hrunning hxs h
    obtain ⟨r, running, rfl⟩ := List.exists_cons_of_length_eq_add_one hrunning
    obtain ⟨x, xs, rfl⟩ := List.exists_cons_of_length_eq_add_one hxs
    obtain ⟨y, hy, h⟩ := bind_eq_ok h
    obtain ⟨ys, hys, h⟩ := bind_eq_ok h
    cases h
    obtain ⟨hlength, hcolumns⟩ := ih (Nat.succ.inj hrunning) (Nat.succ.inj hxs) hys
    refine ⟨congrArg Nat.succ hlength, fun {column a} ha => ?_⟩
    cases column with
    | zero =>
      obtain rfl : first = a := by simpa using ha
      exact hy
    | succ column => exact hcolumns (by simpa using ha)

/-- Many rows of values are folded column by column. -/
theorem foldlM_combine_of_combineAll {aggregations : List Aggregation} (rows : List Row) :
    ∀ {values out : List Double}, values.length = aggregations.length →
      (∀ row ∈ rows, row.values.length = aggregations.length) →
      rows.foldlM (fun values row => combineAll aggregations values row.values) values = .ok out →
      out.length = aggregations.length ∧
        ∀ {column : Nat} {a : Aggregation}, aggregations[column]? = some a →
          (rows.map (Row.valueOf column)).foldlM a.combine (values.getD column .nan) =
            .ok (out.getD column .nan) := by
  induction rows with
  | nil =>
    intro values out hvalues _ h
    cases h
    exact ⟨hvalues, fun _ => rfl⟩
  | cons row rows ih =>
    intro values out hvalues hrows h
    obtain ⟨hrow, hrows⟩ := List.forall_mem_cons.mp hrows
    rw [List.foldlM_cons] at h
    obtain ⟨merged, hmerged, h⟩ := bind_eq_ok h
    obtain ⟨hlength, hcolumns⟩ := combine_of_combineAll hvalues hrow hmerged
    obtain ⟨hout, hrest⟩ := ih hlength hrows h
    refine ⟨hout, fun {column a} ha => ?_⟩
    rw [List.map_cons, List.foldlM_cons, Row.valueOf, hcolumns ha]
    exact hrest ha

end Aggregation

namespace Row

/-- Rows are ordered by their targets. -/
theorem target_le_trans (a b c : Row) (hab : decide (a.target ≤ b.target) = true)
    (hbc : decide (b.target ≤ c.target) = true) : decide (a.target ≤ c.target) = true :=
  decide_eq_true (Nat.le_trans (of_decide_eq_true hab) (of_decide_eq_true hbc))

theorem target_le_total (a b : Row) :
    (decide (a.target ≤ b.target) || decide (b.target ≤ a.target)) = true := by
  simpa using Nat.le_total a.target b.target

theorem map_target_sort (rows : List Row) :
    (sort rows).map target = (rows.map target).mergeSort (· ≤ ·) :=
  List.map_mergeSort fun _ _ _ _ => rfl

theorem pairwise_sort (rows : List Row) : ((sort rows).map target).Pairwise (· ≤ ·) := by
  rw [map_target_sort]
  exact pairwise_mergeSort _

/-- The rows with a given target. -/
def rowsTo (rows : List Row) (t : Nat) : List Row := rows.filter fun row => row.target = t

theorem rowsTo_append (rows more : List Row) (t : Nat) :
    rowsTo (rows ++ more) t = rowsTo rows t ++ rowsTo more t := List.filter_append ..

theorem rowsTo_eq_nil {rows : List Row} {t : Nat} : rowsTo rows t = [] ↔ t ∉ rows.map target := by
  rw [rowsTo, List.filter_eq_nil_iff, List.mem_map]
  exact ⟨fun h ⟨row, hrow, heq⟩ => h row hrow (decide_eq_true heq),
    fun h row hrow heq => h ⟨row, hrow, of_decide_eq_true heq⟩⟩

/-- Sorting is stable. -/
theorem rowsTo_sort (rows : List Row) (t : Nat) : rowsTo (sort rows) t = rowsTo rows t := by
  have hequal : (rowsTo rows t).Pairwise fun a b => decide (a.target ≤ b.target) = true := by
    refine List.pairwise_iff_forall_sublist.mpr fun {a b} hsub => ?_
    have ha := (List.mem_filter.mp (hsub.subset List.mem_cons_self)).2
    have hb := (List.mem_filter.mp (hsub.subset (List.mem_cons_of_mem _ List.mem_cons_self))).2
    rw [decide_eq_true_eq] at ha hb ⊢
    omega
  have hsub : (rowsTo rows t).Sublist (sort rows) :=
    List.sublist_mergeSort target_le_trans target_le_total hequal List.filter_sublist
  have hfilter := hsub.filter fun row => row.target = t
  rw [rowsTo, List.filter_filter] at hfilter
  simp only [Bool.and_self] at hfilter
  refine (hfilter.eq_of_length ?_).symm
  exact ((List.mergeSort_perm rows _).filter _).length_eq.symm

/-! ## Collapsing -/

variable {aggregations : List Aggregation} {rows groups : List Row}

/-- A row has the target and the values that the rows of its target fold to. -/
def FoldsTo (aggregations : List Aggregation) (rows : List Row) (group : Row) : Prop :=
  ∃ first rest, rowsTo rows group.target = first :: rest ∧
    rest.foldlM (fun values row => Aggregation.combineAll aggregations values row.values)
      (opening aggregations first).values = .ok group.values

/-- A row of another target does not count. -/
theorem FoldsTo.concat_of_ne {row group : Row} (h : FoldsTo aggregations rows group)
    (hne : row.target ≠ group.target) : FoldsTo aggregations (rows ++ [row]) group := by
  obtain ⟨first, rest, hrows, hvalues⟩ := h
  refine ⟨first, rest, ?_, hvalues⟩
  rw [rowsTo_append, hrows, rowsTo_eq_nil.mpr (by simpa using hne.symm), List.append_nil]

/-- A row of the same target is combined with the fold so far. -/
theorem FoldsTo.concat {row group : Row} {values : List Double}
    (h : FoldsTo aggregations rows group) (htarget : group.target = row.target)
    (hvalues : Aggregation.combineAll aggregations group.values row.values = .ok values) :
    FoldsTo aggregations (rows ++ [row]) ⟨group.target, values⟩ := by
  obtain ⟨first, rest, hrows, hfold⟩ := h
  have hself : rowsTo [row] group.target = [row] := by simp [rowsTo, htarget]
  refine ⟨first, rest ++ [row], ?_, ?_⟩
  · rw [rowsTo_append, hrows, hself, List.cons_append]
  · rw [List.foldlM_append, hfold]
    exact (bind_pure _).trans hvalues

/-- The first row of a target opens a group. -/
theorem foldsTo_opening {row : Row} (hnew : row.target ∉ rows.map target) :
    FoldsTo aggregations (rows ++ [row]) (opening aggregations row) := by
  refine ⟨row, [], ?_, rfl⟩
  have hself : rowsTo [row] row.target = [row] := by simp [rowsTo]
  rw [opening, rowsTo_append, rowsTo_eq_nil.mpr hnew, hself, List.nil_append]

/-- A row whose target is not below those of the groups joins the last group or starts a
new one. -/
theorem absorb_spec (h : ∀ a ∈ aggregations, a.collapses = true) {groups : List Row} {row : Row}
    (hgroups : (groups.map target).Pairwise (· > ·)) (hle : ∀ g ∈ groups, g.target ≤ row.target) :
    ∃ out, absorb aggregations groups row = .ok out ∧ (out.map target).Pairwise (· > ·) ∧
      ∀ t, t ∈ out.map target ↔ t ∈ groups.map target ∨ t = row.target := by
  cases groups with
  | nil => exact ⟨[opening aggregations row], rfl, List.pairwise_singleton .., by simp [opening]⟩
  | cons last groups =>
    by_cases heq : last.target = row.target
    · obtain ⟨values, hvalues⟩ := Aggregation.exists_combineAll h last.values row.values
      refine ⟨⟨last.target, values⟩ :: groups, ?_, hgroups, fun t => ?_⟩
      · rw [absorb, if_pos heq, hvalues]
        rfl
      · rw [← heq]
        simp only [List.map_cons, List.mem_cons]
        exact ⟨Or.inl, fun ht => ht.elim id Or.inl⟩
    · refine ⟨opening aggregations row :: last :: groups, ?_, ?_, fun t => ?_⟩
      · rw [absorb, if_neg heq]
      · have hlast : last.target < row.target :=
          Nat.lt_of_le_of_ne (hle last (List.mem_cons_self ..)) heq
        refine List.pairwise_cons.mpr ⟨fun t ht => ?_, hgroups⟩
        rcases List.mem_cons.mp ht with rfl | ht
        · exact hlast
        · exact Nat.lt_trans ((List.pairwise_cons.mp hgroups).1 t ht) hlast
      · rw [List.map_cons, List.mem_cons]
        exact or_comm

/-- The groups of some rows, the last in front. -/
structure GroupsOf (aggregations : List Aggregation) (rows groups : List Row) : Prop where
  descending : (groups.map target).Pairwise (· > ·)
  mem_targets : ∀ t, t ∈ groups.map target ↔ t ∈ rows.map target
  folds : ∀ group ∈ groups, FoldsTo aggregations rows group

/-- One more row, whose target is not below the others. -/
theorem GroupsOf.absorb (hgroups : GroupsOf aggregations rows groups)
    (h : ∀ a ∈ aggregations, a.collapses = true) {row : Row}
    (hle : ∀ t ∈ rows.map target, t ≤ row.target) :
    ∃ out, absorb aggregations groups row = .ok out ∧
      GroupsOf aggregations (rows ++ [row]) out := by
  obtain ⟨out, hout, hdescending, hmem⟩ := absorb_spec h hgroups.descending fun group hgroup =>
    hle _ ((hgroups.mem_targets _).mp (List.mem_map_of_mem hgroup))
  refine ⟨out, hout, hdescending, fun t => ?_, ?_⟩
  · rw [hmem, hgroups.mem_targets, List.map_append, List.mem_append, List.map_singleton,
      List.mem_singleton]
  · cases groups with
    | nil =>
      cases hout
      rw [List.forall_mem_singleton]
      exact foldsTo_opening fun hold => by simpa using (hgroups.mem_targets _).mpr hold
    | cons last groups =>
      obtain ⟨hlast, hrest⟩ := List.forall_mem_cons.mp hgroups.folds
      have hbelow := (List.pairwise_cons.mp hgroups.descending).1
      rw [Row.absorb] at hout
      split at hout
      · next heq =>
        obtain ⟨values, hvalues, hout⟩ := bind_eq_ok hout
        cases hout
        refine List.forall_mem_cons.mpr ⟨hlast.concat heq hvalues, fun group hgroup => ?_⟩
        refine (hrest group hgroup).concat_of_ne ?_
        rw [← heq]
        exact Nat.ne_of_gt (hbelow _ (List.mem_map_of_mem hgroup))
      · next hne =>
        cases hout
        have hold : ∀ t ∈ (last :: groups).map target, t < row.target :=
          (List.pairwise_cons.mp hdescending).1
        refine List.forall_mem_cons.mpr ⟨foldsTo_opening fun hmem => ?_, fun group hgroup => ?_⟩
        · exact Nat.lt_irrefl _ (hold _ ((hgroups.mem_targets _).mpr hmem))
        · exact (hgroups.folds group hgroup).concat_of_ne
            (Nat.ne_of_gt (hold _ (List.mem_map_of_mem hgroup)))

/-- The groups of all rows of a sorted list. -/
theorem exists_groupsOf (h : ∀ a ∈ aggregations, a.collapses = true) (rows : List Row)
    (hsorted : (rows.map target).Pairwise (· ≤ ·)) :
    ∃ groups, rows.foldlM (Row.absorb aggregations) [] = .ok groups ∧
      GroupsOf aggregations rows groups := by
  induction rows using List.reverseRecOn with
  | nil => exact ⟨[], rfl, .nil, fun _ => Iff.rfl, by simp⟩
  | append_singleton rows row ih =>
    rw [List.map_append, List.pairwise_append] at hsorted
    obtain ⟨hsorted, -, hle⟩ := hsorted
    obtain ⟨groups, hfold, hgroups⟩ := ih hsorted
    obtain ⟨out, hout, hof⟩ := hgroups.absorb h fun t ht => hle t ht _ List.mem_cons_self
    refine ⟨out, ?_, hof⟩
    rw [List.foldlM_append, hfold]
    exact (bind_pure _).trans hout

/-! ## Arranging -/

/-- The rows of a node in ascending order of targets, with parallel rows made one if they are not
kept. -/
def arrange (collapses : Bool) (aggregations : List Aggregation) (rows : List Row) :
    Except GraphError (List Row) :=
  aggregate collapses aggregations (sort rows)

/-- Rows that do not become one keep their order among those of their target. -/
theorem rowsTo_of_arrange {stored : List Row}
    (hstored : arrange false aggregations rows = .ok stored) (t : Nat) :
    rowsTo stored t = rowsTo rows t := by
  cases hstored
  exact rowsTo_sort rows t

/-- Rows that become one are folded in their order. -/
theorem foldsTo_of_arrange (h : ∀ a ∈ aggregations, a.collapses = true) {stored : List Row}
    (hstored : arrange true aggregations rows = .ok stored) :
    ∀ group ∈ stored, FoldsTo aggregations rows group := by
  obtain ⟨groups, hfold, hgroups⟩ := exists_groupsOf h (sort rows) (pairwise_sort rows)
  rw [arrange, aggregate, if_pos rfl, collapse, hfold] at hstored
  cases hstored
  intro group hgroup
  obtain ⟨first, rest, hrows, hvalues⟩ := hgroups.folds group (List.mem_reverse.mp hgroup)
  exact ⟨first, rest, by rw [← rowsTo_sort, hrows], hvalues⟩

theorem length_values_opening {row : Row} (h : row.values.length = aggregations.length) :
    (opening aggregations row).values.length = aggregations.length := by
  rw [opening, List.length_zipWith, h, Nat.min_self]

/-- The rows of a group have the values that the rows of its target have. -/
theorem FoldsTo.split {group : Row} (h : FoldsTo aggregations rows group)
    (hrows : ∀ row ∈ rows, row.values.length = aggregations.length) :
    ∃ first rest, rowsTo rows group.target = first :: rest ∧
      first.values.length = aggregations.length ∧
      group.values.length = aggregations.length ∧
      ∀ {column : Nat} {a : Aggregation}, aggregations[column]? = some a →
        (rest.map (valueOf column)).foldlM a.combine
            ((opening aggregations first).values.getD column .nan) =
          .ok (group.valueOf column) := by
  obtain ⟨first, rest, hsplit, hfold⟩ := h
  have hlengths : ∀ row ∈ first :: rest, row.values.length = aggregations.length := by
    intro row hrow
    rw [← hsplit] at hrow
    exact hrows row (List.mem_filter.mp hrow).1
  obtain ⟨hfirst, hrest⟩ := List.forall_mem_cons.mp hlengths
  obtain ⟨hgroup, hcolumns⟩ := Aggregation.foldlM_combine_of_combineAll rest
    (length_values_opening hfirst) hrest hfold
  exact ⟨first, rest, hsplit, hfirst, hgroup, hcolumns⟩

/-- In every column a row has the value that the column's aggregation gives. -/
theorem FoldsTo.column {group : Row} (h : FoldsTo aggregations rows group)
    (hrows : ∀ row ∈ rows, row.values.length = aggregations.length) {column : Nat} {a : Aggregation}
    (ha : aggregations[column]? = some a) :
    ∃ x xs, (rowsTo rows group.target).map (valueOf column) = x :: xs ∧
      xs.foldlM a.combine (a.first x) = .ok (group.valueOf column) := by
  obtain ⟨first, rest, hsplit, hfirst, -, hcolumns⟩ := h.split hrows
  have hvalue : (opening aggregations first).values.getD column .nan =
      a.first (first.valueOf column) := by
    have hlt : column < first.values.length := by
      rw [hfirst]
      exact (List.getElem?_eq_some_iff.mp ha).1
    rw [valueOf, opening, List.getD_eq_getElem?_getD, List.getD_eq_getElem?_getD,
      List.getElem?_zipWith, ha, List.getElem?_eq_getElem hlt]
    rfl
  refine ⟨_, _, by rw [hsplit, List.map_cons], ?_⟩
  rw [← hvalue]
  exact hcolumns ha

/-- Arranged rows have a value in every column if all rows do. -/
theorem length_values_of_arrange {collapses : Bool}
    (h : collapses = true → ∀ a ∈ aggregations, a.collapses = true)
    (hrows : ∀ row ∈ rows, row.values.length = aggregations.length) {stored : List Row}
    (hstored : arrange collapses aggregations rows = .ok stored) :
    ∀ row ∈ stored, row.values.length = aggregations.length := by
  intro row hrow
  cases collapses with
  | false =>
    cases hstored
    exact hrows row (List.mem_mergeSort.mp hrow)
  | true =>
    obtain ⟨-, -, -, -, hgroup, -⟩ := (foldsTo_of_arrange (h rfl) hstored row hrow).split hrows
    exact hgroup

end Row

end PagedGraph
