import PagedGraph.Proofs.Similarity.Ranking

/-!
# What a shortlist keeps

`Shortlist.Represents s limit order items` says that `s` keeps the best of `items`,
whichever of the others it has dropped.

* A new shortlist represents no items.
* Inserting an item and merging shortlists put items together (`Represents.insert`,
  `Represents.merge`), whenever the shortlist drops what it does not need.
* What a shortlist gives out are the best of its items (`Represents.toList_eq`).

`NodeShortlists.Represents` says the same of the neighbors of every node.
-/

namespace PagedGraph

variable {α : Type} [Rankable α] {order : RankOrder} {limit : Nat}

theorem sortRanked_eq_bestRanked {items : List α} (h : items.length ≤ limit) :
    sortRanked order items = bestRanked order limit items := by
  rw [bestRanked, List.take_of_length_le]
  rw [(sortRanked_perm items).length_eq]
  exact h

/-- A shortlist keeps the best of some items. -/
structure Shortlist.Represents (s : Shortlist α) (limit : Nat) (order : RankOrder)
    (items : List α) : Prop where
  limit_eq : s.limit = limit
  order_eq : s.order = order
  best : bestRanked order limit s.items.toList = bestRanked order limit items

theorem Shortlist.represents_blank (limit : Nat) (order : RankOrder) :
    ({ limit, order } : Shortlist α).Represents limit order [] :=
  ⟨rfl, rfl, rfl⟩

variable [LawfulRankable α]

/-- Items with the same best are as good as each other among more items. -/
theorem bestRanked_append_congr {xs xs' ys ys' : List α}
    (hxs : bestRanked order limit xs = bestRanked order limit xs')
    (hys : bestRanked order limit ys = bestRanked order limit ys') :
    bestRanked order limit (xs ++ ys) = bestRanked order limit (xs' ++ ys') := by
  calc bestRanked order limit (xs ++ ys)
      = bestRanked order limit (xs' ++ ys) := by
        rw [← bestRanked_append, hxs, bestRanked_append]
    _ = bestRanked order limit (ys ++ xs') := bestRanked_eq_of_perm List.perm_append_comm
    _ = bestRanked order limit (ys' ++ xs') := by
        rw [← bestRanked_append, hys, bestRanked_append]
    _ = bestRanked order limit (xs' ++ ys') := bestRanked_eq_of_perm List.perm_append_comm

namespace Shortlist

variable {s t : Shortlist α} {items others : List α}

/-- Dropping all but the best keeps the best. -/
theorem Represents.trim (h : s.Represents limit order items) :
    s.trim.Represents limit order items := by
  rw [Shortlist.trim]
  split
  · exact h
  · refine ⟨h.limit_eq, h.order_eq, ?_⟩
    rw [h.limit_eq, h.order_eq]
    exact (bestRanked_bestRanked _).trans h.best

theorem Represents.trimIfFull (h : s.Represents limit order items) :
    s.trimIfFull.Represents limit order items := by
  rw [Shortlist.trimIfFull]
  split
  · exact h.trim
  · exact h

theorem Represents.insert (h : s.Represents limit order items) (item : α) :
    (s.insert item).Represents limit order (items ++ [item]) := by
  obtain ⟨bound, order', buffer⟩ := s
  obtain ⟨rfl, rfl, hbest⟩ := h
  cases bound with
  | zero => exact ⟨rfl, rfl, rfl⟩
  | succ bound =>
    refine Represents.trimIfFull ⟨rfl, rfl, ?_⟩
    rw [Array.toList_push]
    exact bestRanked_append_congr hbest rfl

theorem Represents.merge (h : s.Represents limit order items)
    (h' : t.Represents limit order others) :
    (s.merge t).Represents limit order (items ++ others) := by
  refine Represents.trimIfFull ⟨h.limit_eq, h.order_eq, ?_⟩
  rw [Array.toList_append]
  exact bestRanked_append_congr h.best h'.best

/-- A shortlist gives out the best of its items, best first. -/
theorem Represents.toList_eq (h : s.Represents limit order items) :
    s.toList = bestRanked order limit items := by
  obtain ⟨rfl, rfl, hbest⟩ := h
  rw [toList, ← hbest, Shortlist.trim]
  split
  · next hle => exact sortRanked_eq_bestRanked hle
  · exact sortRanked_eq_self ((pairwise_sortRanked _).sublist (List.take_sublist ..))

end Shortlist

/-! ## Neighbors of every node -/

/-- The right end of a row, as a neighbor of its left end. -/
def SimilarPair.toNeighbor (r : SimilarPair) : Neighbor := ⟨r.right, r.score⟩

/-- The neighbors that some rows give a node. -/
def neighborsIn (rows : List SimilarPair) (node : Nat) : List Neighbor :=
  (rows.filter fun r => r.left = node).map SimilarPair.toNeighbor

theorem neighborsIn_append (rows others : List SimilarPair) (node : Nat) :
    neighborsIn (rows ++ others) node = neighborsIn rows node ++ neighborsIn others node := by
  rw [neighborsIn, List.filter_append, List.map_append]
  rfl

namespace NodeShortlists

/-- The shortlists of all nodes keep the best neighbors that some rows give them. -/
structure Represents (m : NodeShortlists) (n limit : Nat) (order : RankOrder)
    (rows : List SimilarPair) : Prop where
  size_eq : m.lists.size = n
  represents : ∀ {node : Nat} {s : Shortlist Neighbor}, m.lists[node]? = some s →
    s.Represents limit order (neighborsIn rows node)

variable {m m' : NodeShortlists} {n : Nat} {rows others : List SimilarPair}

theorem represents_blank (n limit : Nat) (order : RankOrder) :
    (blank n limit order).Represents n limit order [] where
  size_eq := Array.size_replicate
  represents {node s} h := by
    rw [blank, Array.getElem?_replicate] at h
    split at h
    · cases h
      exact Shortlist.represents_blank limit order
    · cases h

theorem Represents.insert (h : m.Represents n limit order rows) (r : SimilarPair) :
    (m.insert r.left r.right r.score).Represents n limit order (rows ++ [r]) where
  size_eq := Array.size_modify.trans h.size_eq
  represents {node s} hs := by
    rw [neighborsIn_append]
    rw [NodeShortlists.insert, Array.getElem?_modify] at hs
    split at hs
    · next hnode =>
      subst hnode
      obtain ⟨s', hs', rfl⟩ := Option.map_eq_some_iff.mp hs
      have hone : neighborsIn [r] r.left = [r.toNeighbor] := by
        simp [neighborsIn]
      rw [hone]
      exact (h.represents hs').insert _
    · next hnode =>
      have hnone : neighborsIn [r] node = [] := by
        simp [neighborsIn, hnode]
      rw [hnone, List.append_nil]
      exact h.represents hs

theorem Represents.merge (h : m.Represents n limit order rows)
    (h' : m'.Represents n limit order others) :
    (m.merge m').Represents n limit order (rows ++ others) where
  size_eq := by
    rw [NodeShortlists.merge, Array.size_zipWith, h.size_eq, h'.size_eq, Nat.min_self]
  represents {node s} hs := by
    rw [neighborsIn_append]
    rw [NodeShortlists.merge, Array.getElem?_zipWith] at hs
    cases hmine : m.lists[node]? with
    | none =>
      rw [hmine] at hs
      cases hs
    | some mine =>
      cases htheirs : m'.lists[node]? with
      | none =>
        rw [hmine, htheirs] at hs
        cases hs
      | some theirs =>
        rw [hmine, htheirs] at hs
        obtain rfl := Option.some.inj hs
        have hkept := h.represents hmine
        have hkept' := h'.represents htheirs
        split
        · next hempty =>
          refine ⟨hkept.limit_eq, hkept.order_eq, ?_⟩
          have hnone : theirs.items.toList = [] := by
            rw [Array.isEmpty_iff.mp hempty]
          rw [← bestRanked_append_congr hkept.best hkept'.best, hnone, List.append_nil]
        · exact hkept.merge hkept'

/-- The shortlists give out the best neighbors of every node. -/
theorem Represents.toLists_eq (h : m.Represents n limit order rows) :
    m.toLists = (List.range n).map fun node => bestRanked order limit (neighborsIn rows node) := by
  refine List.ext_getElem ?_ fun node hnode hnode' => ?_
  · rw [toLists, List.length_map, Array.length_toList, h.size_eq, List.length_map,
    List.length_range]
  · rw [toLists, List.length_map, Array.length_toList] at hnode
    simp only [toLists, List.getElem_map, Array.getElem_toList, List.getElem_range]
    exact (h.represents (Array.getElem?_eq_getElem hnode)).toList_eq

end NodeShortlists

end PagedGraph
