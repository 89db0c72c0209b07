import PagedGraph.Proofs.Load.Loaded
import PagedGraph.Proofs.Numbering.Filter

/-!
# Rows through a node filter

A row passes a filter if its target does, and gets the new id of it (`Row.through?`).
Arranging rows and passing them through a filter can be done in either order:

* Sorting is stable, so the rows that pass stand in the same order
  (`Row.sort_filterMap`).
* A group of parallel rows passes or is dropped as a whole, so the others are folded as
  before (`Row.foldlM_absorb_filterMap`).

So what relationships between selected nodes store for a node is what passes of what all
relationships store for it (`Arrival.rows_filterMap`, `Row.arrange_filterMap`).
-/

namespace PagedGraph

namespace Row

/-- A row under the new id of its target, none when the target does not pass. -/
def through? (filter : NodeFilter) (row : Row) : Option Row :=
  (filter.newOf? row.target).map fun t => ⟨t, row.values⟩

variable {filter : NodeFilter}

theorem through?_eq_some_iff {row row' : Row} :
    row.through? filter = some row' ↔
      filter.newOf? row.target = some row'.target ∧ row'.values = row.values := by
  rw [through?, Option.map_eq_some_iff]
  constructor
  · rintro ⟨t, ht, rfl⟩
    exact ⟨ht, rfl⟩
  · rintro ⟨ht, hvalues⟩
    exact ⟨row'.target, ht, by rw [← hvalues]⟩

theorem map_target_filterMap (rows : List Row) :
    (rows.filterMap (through? filter)).map target = (rows.map target).filterMap filter.newOf? := by
  rw [List.map_filterMap, List.filterMap_map]
  refine congrArg (List.filterMap · rows) (funext fun row => ?_)
  cases h : filter.newOf? row.target <;> simp [through?, h]

/-! ## Sorting -/

/-- One more row in front goes between those below its target and the others. -/
theorem exists_sort_cons (row : Row) (rows : List Row) :
    ∃ below rest, sort (row :: rows) = below ++ row :: rest ∧ sort rows = below ++ rest ∧
      (∀ r ∈ below, r.target < row.target) ∧ ∀ r ∈ rest, row.target ≤ r.target := by
  obtain ⟨below, rest, hcons, hrows, hbelow⟩ :=
    List.mergeSort_cons target_le_trans target_le_total row rows
  have hpair := List.pairwise_mergeSort target_le_trans target_le_total (row :: rows)
  rw [hcons] at hpair
  obtain ⟨-, hpair, -⟩ := List.pairwise_append.mp hpair
  refine ⟨below, rest, hcons, hrows, fun r hr => ?_, fun r hr => ?_⟩
  · simpa using hbelow r hr
  · exact of_decide_eq_true ((List.pairwise_cons.mp hpair).1 r hr)

/-- A list is cut in two by a bound in one way only. -/
theorem append_inj_of_bound {bound : Nat} {xs ys xs' ys' : List Row} (h : xs ++ ys = xs' ++ ys')
    (hxs : ∀ r ∈ xs, r.target < bound) (hys : ∀ r ∈ ys, bound ≤ r.target)
    (hxs' : ∀ r ∈ xs', r.target < bound) (hys' : ∀ r ∈ ys', bound ≤ r.target) :
    xs = xs' ∧ ys = ys' := by
  have hfront : ∀ {us vs : List Row}, (∀ r ∈ us, r.target < bound) → (∀ r ∈ vs, bound ≤ r.target) →
      (us ++ vs).filter (fun r => r.target < bound) = us := by
    intro us vs hus hvs
    rw [List.filter_append, List.filter_eq_self.mpr fun r hr => decide_eq_true (hus r hr),
      List.filter_eq_nil_iff.mpr fun r hr => by simpa using hvs r hr, List.append_nil]
  have hxs : xs = xs' := by
    rw [← hfront hxs hys, h, hfront hxs' hys']
  subst hxs
  exact ⟨rfl, List.append_cancel_left h⟩

/-- Sorting keeps the rows that pass in their order. -/
theorem sort_filterMap (filter : NodeFilter) (rows : List Row) :
    sort (rows.filterMap (through? filter)) = (sort rows).filterMap (through? filter) := by
  induction rows with
  | nil => rw [List.filterMap_nil, sort, List.mergeSort_nil, List.filterMap_nil]
  | cons row rows ih =>
    obtain ⟨below, rest, hcons, hrows, hbelow, hrest⟩ := exists_sort_cons row rows
    rw [hcons, List.filterMap_append]
    rw [hrows, List.filterMap_append] at ih
    cases hrow : row.through? filter with
    | none => rw [List.filterMap_cons_none hrow, List.filterMap_cons_none hrow, ih]
    | some row' =>
      rw [List.filterMap_cons_some hrow, List.filterMap_cons_some hrow]
      obtain ⟨below', rest', hcons', hrows', hbelow', hrest'⟩ :=
        exists_sort_cons row' (rows.filterMap (through? filter))
      have htarget := (through?_eq_some_iff.mp hrow).1
      have hcut := append_inj_of_bound (hrows'.symm.trans ih) hbelow' hrest' ?_ ?_
      · rw [hcons', hcut.1, hcut.2]
      · intro r' hr'
        obtain ⟨r, hr, hrr'⟩ := List.mem_filterMap.mp hr'
        exact (NodeFilter.newOf?_lt_iff (through?_eq_some_iff.mp hrr').1 htarget).mpr (hbelow r hr)
      · intro r' hr'
        obtain ⟨r, hr, hrr'⟩ := List.mem_filterMap.mp hr'
        exact (NodeFilter.newOf?_le_iff htarget (through?_eq_some_iff.mp hrr').1).mpr (hrest r hr)

/-! ## Collapsing -/

variable {aggregations : List Aggregation}

/-- Opening a group does not change the target. -/
theorem through?_opening (row : Row) :
    (opening aggregations row).through? filter =
      (row.through? filter).map (opening aggregations) := by
  rw [through?, through?, opening]
  cases filter.newOf? row.target <;> rfl

/-- A row that does not pass changes no group that does. -/
theorem absorb_filterMap_none {groups out : List Row} {row : Row}
    (hout : absorb aggregations groups row = .ok out) (hrow : row.through? filter = none) :
    out.filterMap (through? filter) = groups.filterMap (through? filter) := by
  have hopening : (opening aggregations row).through? filter = none := by
    rw [through?_opening, hrow, Option.map_none]
  have hnone : filter.newOf? row.target = none := by
    rw [through?] at hrow
    exact Option.map_eq_none_iff.mp hrow
  cases groups with
  | nil =>
    cases hout
    exact List.filterMap_cons_none hopening
  | cons last groups =>
    rw [absorb] at hout
    split at hout
    · next heq =>
      have hlast : ∀ values, (⟨last.target, values⟩ : Row).through? filter = none :=
        fun values => by
        rw [through?, heq, hnone, Option.map_none]
      cases hvalues : Aggregation.combineAll aggregations last.values row.values with
      | error e =>
        rw [hvalues] at hout
        cases hout
      | ok values =>
        rw [hvalues] at hout
        cases hout
        rw [List.filterMap_cons_none (hlast values), List.filterMap_cons_none (hlast last.values)]
    · cases hout
      exact List.filterMap_cons_none hopening

/-- A row that passes joins the same group, or starts one, among the groups that pass. -/
theorem absorb_filterMap_some {groups out : List Row} {row row' : Row}
    (hgroups : (groups.map target).Pairwise (· > ·)) (hle : ∀ g ∈ groups, g.target ≤ row.target)
    (hout : absorb aggregations groups row = .ok out) (hrow : row.through? filter = some row') :
    absorb aggregations (groups.filterMap (through? filter)) row' =
      .ok (out.filterMap (through? filter)) := by
  obtain ⟨htarget, hvalues'⟩ := through?_eq_some_iff.mp hrow
  have hopening : (opening aggregations row).through? filter =
      some (opening aggregations row') := by
    rw [through?_opening, hrow, Option.map_some]
  cases groups with
  | nil =>
    cases hout
    rw [List.filterMap_cons_some hopening]
    rfl
  | cons last groups =>
    rw [absorb] at hout
    split at hout
    · next heq =>
      have hlast : ∀ values, (⟨last.target, values⟩ : Row).through? filter =
          some ⟨row'.target, values⟩ := fun values => by
        rw [through?, heq, htarget, Option.map_some]
      cases hvalues : Aggregation.combineAll aggregations last.values row.values with
      | error e =>
        rw [hvalues] at hout
        cases hout
      | ok values =>
        rw [hvalues] at hout
        cases hout
        rw [List.filterMap_cons_some (hlast last.values), List.filterMap_cons_some (hlast values),
          absorb, if_pos rfl, hvalues', hvalues]
        rfl
    · next hne =>
      cases hout
      rw [List.filterMap_cons_some hopening]
      have hlt : ∀ g ∈ last :: groups, g.target < row.target := by
        have hlast := Nat.lt_of_le_of_ne (hle last (List.mem_cons_self ..)) hne
        intro g hg
        rcases List.mem_cons.mp hg with rfl | hg
        · exact hlast
        · exact Nat.lt_trans ((List.pairwise_cons.mp hgroups).1 _ (List.mem_map_of_mem hg)) hlast
      have hlt' : ∀ g' ∈ (last :: groups).filterMap (through? filter), g'.target ≠ row'.target := by
        intro g' hg'
        obtain ⟨g, hg, hgg'⟩ := List.mem_filterMap.mp hg'
        have hiff := NodeFilter.newOf?_lt_iff (through?_eq_some_iff.mp hgg').1 htarget
        exact Nat.ne_of_lt (hiff.mpr (hlt g hg))
      generalize (last :: groups).filterMap (through? filter) = groups' at hlt'
      cases groups' with
      | nil => rfl
      | cons last' groups' => rw [absorb, if_neg (hlt' last' (List.mem_cons_self ..))]

/-- Folding the rows that pass gives the groups that pass. -/
theorem foldlM_absorb_filterMap (h : ∀ a ∈ aggregations, a.collapses = true) (rows : List Row) :
    ∀ {groups out : List Row}, (rows.map target).Pairwise (· ≤ ·) →
      (groups.map target).Pairwise (· > ·) →
      (∀ g ∈ groups.map target, ∀ t ∈ rows.map target, g ≤ t) →
      rows.foldlM (absorb aggregations) groups = .ok out →
      (rows.filterMap (through? filter)).foldlM (absorb aggregations)
        (groups.filterMap (through? filter)) = .ok (out.filterMap (through? filter)) := by
  induction rows with
  | nil =>
    intro groups out _ _ _ hout
    cases hout
    rfl
  | cons row rows ih =>
    intro groups out hrows hgroups hle hout
    obtain ⟨hrow, hrows⟩ := List.pairwise_cons.mp hrows
    have hle' : ∀ g ∈ groups, g.target ≤ row.target := fun g hg =>
      hle _ (List.mem_map_of_mem hg) _ (List.mem_cons_self ..)
    obtain ⟨mid, hmid, hpair, hmem⟩ := absorb_spec h hgroups hle'
    have hmidle : ∀ g ∈ mid.map target, ∀ t ∈ rows.map target, g ≤ t := by
      intro g hg t ht
      rcases (hmem g).mp hg with hg | rfl
      · exact hle g hg t (List.mem_cons_of_mem _ ht)
      · exact hrow t ht
    rw [List.foldlM_cons, hmid] at hout
    have hrest := ih hrows hpair hmidle hout
    cases hthrough : row.through? filter with
    | none =>
      rw [List.filterMap_cons_none hthrough, ← absorb_filterMap_none hmid hthrough]
      exact hrest
    | some row' =>
      rw [List.filterMap_cons_some hthrough, List.foldlM_cons,
        absorb_filterMap_some hgroups hle' hmid hthrough]
      exact hrest

/-- The rows that pass are arranged as they are among all. -/
theorem arrange_filterMap {collapses : Bool}
    (h : collapses = true → ∀ a ∈ aggregations, a.collapses = true) {rows out : List Row}
    (hout : arrange collapses aggregations rows = .ok out) :
    arrange collapses aggregations (rows.filterMap (through? filter)) =
      .ok (out.filterMap (through? filter)) := by
  cases collapses with
  | false =>
    cases hout
    exact congrArg Except.ok (sort_filterMap filter rows)
  | true =>
    have hsorted : ((sort rows).map target).Pairwise (· ≤ ·) := by
      rw [map_target_sort]
      exact pairwise_mergeSort _
    rw [arrange, aggregate, if_pos rfl, collapse] at hout
    cases hgroups : (sort rows).foldlM (absorb aggregations) [] with
    | error e =>
      rw [hgroups] at hout
      cases hout
    | ok groups =>
      rw [hgroups] at hout
      cases hout
      have hfold := @foldlM_absorb_filterMap filter _ (h rfl) (sort rows) [] groups hsorted .nil
        (by simp) hgroups
      rw [arrange, aggregate, if_pos rfl, collapse, sort_filterMap]
      rw [List.filterMap_nil] at hfold
      rw [hfold, List.filterMap_reverse]
      rfl

end Row

/-! ## Relationships -/

/-- A pair of nodes under their new ids, none when one of them does not pass. -/
def NodeFilter.pairOf? (filter : NodeFilter) (pair : Nat × Nat) : Option (Nat × Nat) :=
  match filter.newOf? pair.1, filter.newOf? pair.2 with
  | some x, some y => some (x, y)
  | _, _ => none

variable {filter : NodeFilter}

theorem NodeFilter.pairOf?_eq_some_iff {pair pair' : Nat × Nat} :
    filter.pairOf? pair = some pair' ↔
      filter.newOf? pair.1 = some pair'.1 ∧ filter.newOf? pair.2 = some pair'.2 := by
  obtain ⟨x, y⟩ := pair'
  rw [pairOf?]
  cases filter.newOf? pair.1 with
  | none => simp
  | some s => cases filter.newOf? pair.2 <;> simp

/-- A relationship under the new ids of its ends, none when one of them does not pass. -/
def Arrival.through? (filter : NodeFilter) (a : Arrival) : Option Arrival :=
  (filter.pairOf? (a.source, a.target)).map fun pair => ⟨pair.1, pair.2, a.values⟩

/-- Of the pairs a relationship is stored as, those that pass are what the relationship under new
ids is stored as. -/
structure PassesPairs (filter : NodeFilter) (pairs : Nat → Nat → List (Nat × Nat)) : Prop where
  some : ∀ {source target s t}, filter.pairOf? (source, target) = some (s, t) →
    (pairs source target).filterMap filter.pairOf? = pairs s t
  none : ∀ {source target}, filter.pairOf? (source, target) = none →
    (pairs source target).filterMap filter.pairOf? = []

namespace Projection

variable (p : Projection)

theorem passesPairs_pairs : PassesPairs filter p.pairs where
  some {source target s t} h := by
    obtain ⟨hs, ht⟩ := NodeFilter.pairOf?_eq_some_iff.mp h
    have hloop : source = target ↔ s = t := by
      constructor
      · rintro rfl
        exact Option.some.inj (hs.symm.trans ht)
      · rintro rfl
        exact NodeFilter.newOf?_inj hs ht
    have hswap : filter.pairOf? (target, source) = some (t, s) :=
      NodeFilter.pairOf?_eq_some_iff.mpr ⟨ht, hs⟩
    rw [pairs, pairs, if_congr (and_congr_left' hloop) rfl rfl]
    split
    · rfl
    · cases p.orientation with
      | natural => simp [h]
      | reverse => simp [hswap]
      | undirected =>
        show List.filterMap _ (if source = target then _ else _) = if s = t then _ else _
        rw [if_congr hloop rfl rfl]
        split
        · rw [List.filterMap_cons_some h, List.filterMap_nil]
        · rw [List.filterMap_cons_some h, List.filterMap_cons_some hswap, List.filterMap_nil]
  none {source target} h := by
    refine List.filterMap_eq_nil_iff.mpr fun pair hpair => ?_
    rcases mem_pairs hpair with ⟨hx, hy⟩ | ⟨hx, hy⟩
    · rw [← h, ← hx, ← hy]
    · refine Option.eq_none_iff_forall_ne_some.mpr fun pair' hpair' => ?_
      obtain ⟨hs, ht⟩ := NodeFilter.pairOf?_eq_some_iff.mp hpair'
      have hswap : filter.pairOf? (source, target) = Option.some (pair'.2, pair'.1) :=
        NodeFilter.pairOf?_eq_some_iff.mpr ⟨hy ▸ ht, hx ▸ hs⟩
      rw [h] at hswap
      cases hswap

theorem pairOf?_swap (pair : Nat × Nat) :
    filter.pairOf? pair.swap = (filter.pairOf? pair).map Prod.swap := by
  obtain ⟨x, y⟩ := pair
  show filter.pairOf? (y, x) = _
  rw [NodeFilter.pairOf?, NodeFilter.pairOf?]
  cases filter.newOf? x with
  | none => cases filter.newOf? y <;> rfl
  | some s => cases filter.newOf? y <;> rfl

theorem filterMap_pairOf?_swap (pairs : List (Nat × Nat)) :
    (pairs.map Prod.swap).filterMap filter.pairOf? =
      (pairs.filterMap filter.pairOf?).map Prod.swap := by
  rw [List.filterMap_map, List.map_filterMap]
  exact congrArg (List.filterMap · pairs) (funext pairOf?_swap)

theorem passesPairs_inversePairs : PassesPairs filter p.inversePairs where
  some h := by
    rw [inversePairs, inversePairs]
    split
    · rw [filterMap_pairOf?_swap, p.passesPairs_pairs.some h]
    · rfl
  none h := by
    rw [inversePairs]
    split
    · rw [filterMap_pairOf?_swap, p.passesPairs_pairs.none h, List.map_nil]
    · rfl

end Projection

theorem Row.ofPairs_cons_eq (pair : Nat × Nat) (pairs : List (Nat × Nat)) (values : List Double)
    (node : Nat) : ofPairs (pair :: pairs) values node =
      if pair.1 = node then ⟨pair.2, values⟩ :: ofPairs pairs values node
      else ofPairs pairs values node := by
  rw [ofPairs, List.filter_cons]
  by_cases h : pair.1 = node
  · rw [if_pos (decide_eq_true h), if_pos h]
    rfl
  · rw [if_neg (by simpa using h), if_neg h]
    rfl

/-- Of the rows that a relationship gives a node, those that pass are what its passing pairs
give. -/
theorem Row.ofPairs_filterMap {new old : Nat} (hold : filter.oldOf? new = some old)
    (values : List Double) (pairs : List (Nat × Nat)) :
    ofPairs (pairs.filterMap filter.pairOf?) values new =
      (ofPairs pairs values old).filterMap (through? filter) := by
  have hnew := (filter.newOf?_eq_some_iff).mpr hold
  induction pairs with
  | nil => rfl
  | cons pair pairs ih =>
    rw [ofPairs_cons_eq]
    cases hpass : filter.pairOf? pair with
    | none =>
      rw [List.filterMap_cons_none hpass, ih]
      split
      · next hfirst =>
        have hnone : (⟨pair.2, values⟩ : Row).through? filter = none := by
          rw [NodeFilter.pairOf?, hfirst, hnew] at hpass
          rw [through?]
          cases htarget : filter.newOf? pair.2 with
          | none => rfl
          | some t =>
            rw [htarget] at hpass
            cases hpass
        rw [List.filterMap_cons_none hnone]
      · rfl
    | some pair' =>
      obtain ⟨hx, hy⟩ := NodeFilter.pairOf?_eq_some_iff.mp hpass
      have hfirst : pair'.1 = new ↔ pair.1 = old := by
        constructor
        · rintro rfl
          exact NodeFilter.newOf?_inj hx hnew
        · intro h
          rw [h, hnew] at hx
          exact (Option.some.inj hx).symm
      have hsome : (⟨pair.2, values⟩ : Row).through? filter = some ⟨pair'.2, values⟩ :=
        through?_eq_some_iff.mpr ⟨hy, rfl⟩
      rw [List.filterMap_cons_some hpass, ofPairs_cons_eq, ih, if_congr hfirst rfl rfl]
      split
      · rw [List.filterMap_cons_some hsome]
      · rfl

theorem Arrival.rows_cons (pairs : Nat → Nat → List (Nat × Nat)) (a : Arrival)
    (arrivals : List Arrival) (node : Nat) : rows pairs (a :: arrivals) node =
      Row.ofPairs (pairs a.source a.target) a.values node ++ rows pairs arrivals node :=
  List.flatMap_cons

/-- The rows of relationships that pass are the rows that pass. -/
theorem Arrival.rows_filterMap {pairs : Nat → Nat → List (Nat × Nat)}
    (hpairs : PassesPairs filter pairs) {new old : Nat} (hold : filter.oldOf? new = some old)
    (arrivals : List Arrival) :
    rows pairs (arrivals.filterMap (through? filter)) new =
      (rows pairs arrivals old).filterMap (Row.through? filter) := by
  induction arrivals with
  | nil => rfl
  | cons a arrivals ih =>
    rw [rows_cons, List.filterMap_append, ← Row.ofPairs_filterMap hold, ← ih]
    cases hpass : filter.pairOf? (a.source, a.target) with
    | none =>
      have hthrough : a.through? filter = none := by rw [through?, hpass, Option.map_none]
      rw [List.filterMap_cons_none hthrough, hpairs.none hpass]
      rfl
    | some pair =>
      have hthrough : a.through? filter = some ⟨pair.1, pair.2, a.values⟩ := by
        rw [through?, hpass, Option.map_some]
      rw [List.filterMap_cons_some hthrough, hpairs.some hpass, rows_cons]

/-! ## Sides -/

section

variable {p : Projection} {n n' : Nat} {pairs : Nat → Nat → List (Nat × Nat)}
  {arrivals : List Arrival} {stored stored' : Nat → List Row} {adjacency adjacency' : Adjacency}
  {values values' : List (String × ValueTable)}

/-- What is stored of the relationships that pass is what passes of what is stored of all. -/
theorem arranged_filterMap (hvalid : p.validate = .ok ()) (hpairs : PassesPairs filter pairs)
    (h : ∀ node, Row.arrange p.aggregation.collapses p.aggregations
      (Arrival.rows pairs arrivals node) =
      .ok (stored node))
    (h' : ∀ node, Row.arrange p.aggregation.collapses p.aggregations
      (Arrival.rows pairs (arrivals.filterMap (Arrival.through? filter)) node) = .ok (stored' node))
    {new old : Nat} (hold : filter.oldOf? new = some old) :
    stored' new = (stored old).filterMap (Row.through? filter) := by
  have hnew := h' new
  rw [Arrival.rows_filterMap hpairs hold,
    Row.arrange_filterMap (fun hc => Projection.collapses_of_validate hvalid hc) (h old)] at hnew
  exact (Except.ok.inj hnew).symm

/-- If all relationships of a node can be counted, so can those that pass. -/
theorem RowsFit.through (hvalid : p.validate = .ok ()) (hpairs : PassesPairs filter pairs)
    (h : RowsFit p n (Arrival.rows pairs arrivals))
    (hselects : ∀ {new old}, filter.oldOf? new = some old → old < n) :
    RowsFit p filter.nodeCount
      (Arrival.rows pairs (arrivals.filterMap (Arrival.through? filter))) := by
  obtain ⟨stored, hstored, htargets⟩ := exists_arranged hvalid (Arrival.rows pairs arrivals)
  obtain ⟨stored', hstored', htargets'⟩ := exists_arranged hvalid
    (Arrival.rows pairs (arrivals.filterMap (Arrival.through? filter)))
  intro new hnew
  obtain ⟨old, hold⟩ := NodeFilter.exists_oldOf? hnew
  have hlen := h old (hselects hold)
  rw [← htargets, List.length_map] at hlen
  rw [← htargets', List.length_map, arranged_filterMap hvalid hpairs hstored hstored' hold]
  exact Nat.lt_of_le_of_lt (List.length_filterMap_le ..) hlen

theorem SidesFit.through (h : SidesFit p n arrivals) (hvalid : p.validate = .ok ())
    (hselects : ∀ {new old}, filter.oldOf? new = some old → old < n) :
    SidesFit p filter.nodeCount (arrivals.filterMap (Arrival.through? filter)) where
  outgoing := h.outgoing.through hvalid p.passesPairs_pairs hselects
  incoming hinverse := (h.incoming hinverse).through hvalid p.passesPairs_inversePairs hselects

end

end PagedGraph
