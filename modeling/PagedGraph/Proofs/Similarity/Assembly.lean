import PagedGraph.Proofs.Similarity.Shortlist

/-!
# Shortlists put together

Shortlists with one limit and one order come about by inserting items and by merging, in any
order and in the shape of any tree.  `Shortlist.Assembled limit order s items` says that `s`
came about in this way from `items`, counted as often as they were inserted.

Dropping all but the best may leave the best in any order.  Therefore a shortlist may be
shuffled at any moment (`Shortlist.Shuffled`).  This covers whatever a selection leaves that
only separates the best from the others (`Shortlist.Selected.shuffled_trim`).

Whatever was dropped on the way, an assembled shortlist keeps the best of its items
(`Shortlist.Assembled.keeps`), and the shortlists of the nodes do so node by node
(`NodeShortlists.Assembled.represents`).
-/

namespace PagedGraph

variable {α : Type} {limit : Nat} {order : RankOrder}

namespace Shortlist

/-- The same shortlist with its items in another order. -/
structure Shuffled (s s' : Shortlist α) : Prop where
  limit_eq : s'.limit = s.limit
  order_eq : s'.order = s.order
  perm : s'.items.toList.Perm s.items.toList

theorem Shuffled.refl (s : Shortlist α) : s.Shuffled s := ⟨rfl, rfl, .refl _⟩

variable [Rankable α]

/-- The ways a shortlist comes about, with all items that were inserted. -/
inductive Assembled (limit : Nat) (order : RankOrder) : Shortlist α → List α → Prop
  | blank : Assembled limit order { limit, order } []
  | insert {s : Shortlist α} {items : List α} (hs : Assembled limit order s items) (item : α) :
      Assembled limit order (s.insert item) (items ++ [item])
  | merge {s t : Shortlist α} {items others : List α} (hs : Assembled limit order s items)
      (ht : Assembled limit order t others) : Assembled limit order (s.merge t) (items ++ others)
  | shuffle {s s' : Shortlist α} {items : List α} (hs : Assembled limit order s items)
      (hshuffled : s.Shuffled s') : Assembled limit order s' items

/-- A selection leaves as many items as a shortlist keeps, in any order, and none of those it
drops is ranked before one it leaves. -/
structure Selected (s s' : Shortlist α) : Prop where
  exceeds : s.limit < s.items.size
  limit_eq : s'.limit = s.limit
  order_eq : s'.order = s.order
  size_eq : s'.items.size = s.limit
  separates : ∃ dropped, (s'.items.toList ++ dropped).Perm s.items.toList ∧
    ∀ a ∈ s'.items.toList, ∀ b ∈ dropped, RankedLe s.order a b

/-- A shortlist gives out the best of some items, best first, and counts them. -/
structure Keeps (s : Shortlist α) (limit : Nat) (order : RankOrder) (items : List α) : Prop where
  toList_eq : s.toList = bestRanked order limit items
  size_eq : s.size = min limit items.length

variable {s s' : Shortlist α} {items : List α}

/-- The number of items kept is that of the best. -/
theorem Represents.size_eq (h : s.Represents limit order items) :
    s.size = min limit items.length := by
  have hlength := congrArg List.length h.best
  rw [bestRanked, bestRanked, List.length_take, List.length_take, (sortRanked_perm _).length_eq,
    (sortRanked_perm _).length_eq, Array.length_toList] at hlength
  rw [Shortlist.size, h.limit_eq, Nat.min_comm, hlength]

variable [LawfulRankable α]

/-- Items that were separated into the best and the others have just these best. -/
theorem perm_bestRanked {kept dropped : List α} (hperm : (kept ++ dropped).Perm items)
    (hle : ∀ a ∈ kept, ∀ b ∈ dropped, RankedLe order a b) :
    kept.Perm (bestRanked order kept.length items) := by
  have hsorted : (sortRanked order kept ++ sortRanked order dropped).Pairwise (RankedLe order) := by
    refine List.pairwise_append.mpr
      ⟨pairwise_sortRanked kept, pairwise_sortRanked dropped, fun a ha b hb => ?_⟩
    exact hle a ((sortRanked_perm kept).mem_iff.mp ha) b ((sortRanked_perm dropped).mem_iff.mp hb)
  have hitems : sortRanked order items = sortRanked order kept ++ sortRanked order dropped := by
    refine (sortRanked_eq_of_perm (hperm.symm.trans ?_)).trans (sortRanked_eq_self hsorted)
    exact ((sortRanked_perm kept).append (sortRanked_perm dropped)).symm
  rw [bestRanked, hitems, List.take_left' (sortRanked_perm kept).length_eq]
  exact (sortRanked_perm kept).symm

/-- Whatever selection drops all but the best, it leaves what `trim` leaves, in some order. -/
theorem Selected.shuffled_trim (h : s.Selected s') : s.trim.Shuffled s' := by
  obtain ⟨dropped, hperm, hle⟩ := h.separates
  have hbest := perm_bestRanked hperm hle
  rw [Array.length_toList, h.size_eq] at hbest
  rw [Shortlist.trim, if_neg (Nat.not_le.mpr h.exceeds)]
  exact ⟨h.limit_eq, h.order_eq, hbest⟩

theorem Represents.shuffle (h : s.Represents limit order items) (hshuffled : s.Shuffled s') :
    s'.Represents limit order items where
  limit_eq := hshuffled.limit_eq.trans h.limit_eq
  order_eq := hshuffled.order_eq.trans h.order_eq
  best := (bestRanked_eq_of_perm hshuffled.perm).trans h.best

/-- However a shortlist came about, it represents the items inserted. -/
theorem Assembled.represents (h : s.Assembled limit order items) :
    s.Represents limit order items := by
  induction h with
  | blank => exact represents_blank limit order
  | insert _ item ih => exact ih.insert item
  | merge _ _ ihs iht => exact ihs.merge iht
  | shuffle _ hshuffled ih => exact ih.shuffle hshuffled

theorem Assembled.keeps (h : s.Assembled limit order items) : s.Keeps limit order items :=
  ⟨h.represents.toList_eq, h.represents.size_eq⟩

end Shortlist

/-! ## Neighbors of every node -/

namespace NodeShortlists

/-- The ways the shortlists of `n` nodes come about, with all rows that were inserted. -/
inductive Assembled (n limit : Nat) (order : RankOrder) :
    NodeShortlists → List SimilarPair → Prop
  | blank : Assembled n limit order (.blank n limit order) []
  | insert {m m' : NodeShortlists} {rows : List SimilarPair} {source target : Nat} {score : Double}
      (hm : Assembled n limit order m rows) (hinsert : m.insert? source target score = some m') :
      Assembled n limit order m' (rows ++ [⟨source, target, score⟩])
  | merge {m m' : NodeShortlists} {rows others : List SimilarPair}
      (hm : Assembled n limit order m rows) (hm' : Assembled n limit order m' others) :
      Assembled n limit order (m.merge m') (rows ++ others)
  | shuffle {m m' : NodeShortlists} {rows : List SimilarPair} (hm : Assembled n limit order m rows)
      (hshuffled : List.Forall₂ Shortlist.Shuffled m.lists.toList m'.lists.toList) :
      Assembled n limit order m' rows

variable {m m' : NodeShortlists} {n : Nat} {rows : List SimilarPair}

theorem Represents.shuffle (h : m.Represents n limit order rows)
    (hshuffled : List.Forall₂ Shortlist.Shuffled m.lists.toList m'.lists.toList) :
    m'.Represents n limit order rows where
  size_eq := hshuffled.length_eq.symm.trans h.size_eq
  represents {node s'} hs' := by
    rw [← Array.getElem?_toList] at hs'
    obtain ⟨hnode', rfl⟩ := List.getElem?_eq_some_iff.mp hs'
    have hnode : node < m.lists.toList.length := hshuffled.length_eq ▸ hnode'
    have hs : m.lists[node]? = some m.lists.toList[node] := by
      rw [← Array.getElem?_toList, List.getElem?_eq_getElem hnode]
    exact (h.represents hs).shuffle (hshuffled.get hnode hnode')

/-- However the shortlists came about, they represent the rows inserted. -/
theorem Assembled.represents (h : m.Assembled n limit order rows) :
    m.Represents n limit order rows := by
  induction h with
  | blank => exact represents_blank n limit order
  | insert _ hinsert ih =>
    rw [insert?] at hinsert
    split at hinsert
    · cases hinsert
      exact ih.insert ⟨_, _, _⟩
    · cases hinsert
  | merge _ _ ih ih' => exact ih.merge ih'
  | shuffle _ hshuffled ih => exact ih.shuffle hshuffled

/-- A neighbor can be inserted at the nodes there are. -/
theorem Assembled.isSome_insert? (h : m.Assembled n limit order rows) (source target : Nat)
    (score : Double) : (m.insert? source target score).isSome = decide (source < n) := by
  rw [insert?, h.represents.size_eq]
  split
  · next hsource => exact (decide_eq_true hsource).symm
  · next hsource => exact (decide_eq_false hsource).symm

end NodeShortlists

/-- What is kept does not depend on how it was put together.  A shortlist of neighbors or of pairs
keeps the best of all items inserted, in whichever order and however shortlists were merged, and
whichever selection drops the others.  The shortlists of the nodes do so for every node. -/
theorem assembled_keeps_best (limit : Nat) (order : RankOrder) :
    ((∀ {s : Shortlist Neighbor} {items : List Neighbor}, s.Assembled limit order items →
        s.Keeps limit order items) ∧
      ∀ {s s' : Shortlist Neighbor}, s.Selected s' → s.trim.Shuffled s') ∧
    ((∀ {s : Shortlist SimilarPair} {items : List SimilarPair}, s.Assembled limit order items →
        s.Keeps limit order items) ∧
      ∀ {s s' : Shortlist SimilarPair}, s.Selected s' → s.trim.Shuffled s') ∧
    ∀ {n : Nat} {m : NodeShortlists} {rows : List SimilarPair}, m.Assembled n limit order rows →
      m.lists.size = n ∧
      m.toLists = ((List.range n).map fun node =>
        bestRanked order limit (neighborsIn rows node)) ∧
      (∀ {node : Nat} {s : Shortlist Neighbor}, m.lists[node]? = some s →
        s.Keeps limit order (neighborsIn rows node)) ∧
      ∀ (source target : Nat) (score : Double),
        (m.insert? source target score).isSome = decide (source < n) := by
  refine ⟨⟨fun hs => hs.keeps, fun hs => hs.shuffled_trim⟩,
    ⟨fun hs => hs.keeps, fun hs => hs.shuffled_trim⟩, fun hm => ?_⟩
  have hrepresents := hm.represents
  refine ⟨hrepresents.size_eq, hrepresents.toLists_eq, fun hs => ?_, hm.isSome_insert?⟩
  have hlist := hrepresents.represents hs
  exact ⟨hlist.toList_eq, hlist.size_eq⟩

/-- Two neighbors, one of them without a number for a score. -/
def oneAndNan : List Neighbor := [⟨4, .one⟩, ⟨3, .nan⟩]

/-- A shortlist merged with itself, a selection, and pairs and nodes whose rows are repeated. -/
theorem assembled_keeps_best_repeated :
    (∃ s : Shortlist Neighbor, s.Assembled 1 .highest (oneAndNan ++ oneAndNan) ∧
      s.toList = [⟨3, .nan⟩] ∧ s.size = 1) ∧
    (Shortlist.trim ⟨1, .highest, oneAndNan.toArray⟩).Shuffled ⟨1, .highest, #[⟨3, .nan⟩]⟩ ∧
    (∃ s : Shortlist SimilarPair, s.Assembled 1 .highest [⟨0, 1, .one⟩, ⟨0, 1, .one⟩] ∧
      s.toList = [⟨0, 1, .one⟩]) ∧
    ∃ m : NodeShortlists, m.Assembled 2 1 .highest [⟨1, 0, .one⟩, ⟨1, 0, .one⟩] ∧
      m.toLists = [[], [⟨0, .one⟩]] := by
  obtain ⟨⟨hkeeps, hselected⟩, ⟨hpairs, -⟩, hlists⟩ := assembled_keeps_best 1 .highest
  have hs : Shortlist.Assembled 1 .highest _ oneAndNan :=
    (Shortlist.Assembled.blank.insert _).insert _
  have ht : Shortlist.Assembled 1 .highest _ [(⟨0, 1, .one⟩ : SimilarPair)] :=
    Shortlist.Assembled.blank.insert _
  have hm : NodeShortlists.Assembled 2 1 .highest _ [⟨1, 0, .one⟩] :=
    NodeShortlists.Assembled.blank.insert rfl
  have hbest := hkeeps (hs.merge hs)
  refine ⟨⟨_, hs.merge hs, hbest.toList_eq.trans ?_, hbest.size_eq⟩, hselected ?_,
    ⟨_, ht.merge ht, (hpairs (ht.merge ht)).toList_eq.trans ?_⟩,
    ⟨_, hm.merge hm, (hlists (hm.merge hm)).2.1.trans ?_⟩⟩
  · rw [bestRanked, sortRanked_eq]
    decide +kernel
  · exact ⟨by decide, rfl, rfl, rfl, [⟨4, .one⟩], .swap .., by decide +kernel⟩
  · rw [bestRanked, sortRanked_eq]
    decide +kernel
  · simp only [bestRanked, sortRanked_eq]
    decide +kernel

end PagedGraph
