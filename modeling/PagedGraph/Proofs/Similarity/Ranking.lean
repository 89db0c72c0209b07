import Mathlib.Data.List.Sort
import Mathlib.Data.Prod.Lex
import PagedGraph.Similarity.Shortlist

/-!
# The best items of a list

A ranking is a total order in which different items have different places
(`LawfulRankable`), because items with the same score are told apart by their nodes.
Therefore the items that are best, and their order, depend only on which items there are.

`bestRanked order limit items` are the best `limit` of some items.  Items can be dropped
early that are not among the best of those seen so far (`bestRanked_append`).
-/

namespace PagedGraph

/-! ## Rankings -/

/-- A number that is less for the score that is ranked first. -/
def scoreKey : RankOrder → Double → Int
  | .highest, x => -x.orderKey
  | .lowest, x => x.orderKey

theorem scoreKey_inj {order : RankOrder} {x y : Double} (h : scoreKey order x = scoreKey order y) :
    x = y := by
  cases order with
  | highest => exact Double.eq_of_orderKey_eq (Int.neg_inj.mp h)
  | lowest => exact Double.eq_of_orderKey_eq h

theorem rankScores_eq (order : RankOrder) (x y : Double) :
    rankScores order x y = compare (scoreKey order x) (scoreKey order y) := by
  cases order with
  | highest =>
    show compare y.orderKey x.orderKey = compare (-x.orderKey) (-y.orderKey)
    rcases Int.lt_trichotomy x.orderKey y.orderKey with h | h | h
    · rw [compare_gt_iff_gt.mpr h, compare_gt_iff_gt.mpr (Int.neg_lt_neg h)]
    · rw [h, compare_eq_iff_eq.mpr rfl, compare_eq_iff_eq.mpr rfl]
    · rw [compare_lt_iff_lt.mpr h, compare_lt_iff_lt.mpr (Int.neg_lt_neg h)]
  | lowest => rfl

variable {α : Type} [Rankable α]

/-- One item is ranked before another, or they have the same place. -/
def RankedLe (order : RankOrder) (a b : α) : Prop := (Rankable.compareRank order a b).isLE = true

instance (order : RankOrder) : DecidableRel (RankedLe order (α := α)) := fun _ _ =>
  inferInstanceAs (Decidable (_ = true))

/-- Rankings that tell all items apart. -/
class LawfulRankable (α : Type) [Rankable α] : Prop where
  total : ∀ (order : RankOrder) (a b : α), RankedLe order a b ∨ RankedLe order b a
  trans : ∀ (order : RankOrder) (a b c : α), RankedLe order a b → RankedLe order b c →
    RankedLe order a c
  antisymm : ∀ (order : RankOrder) (a b : α), RankedLe order a b → RankedLe order b a → a = b

/-- A ranking by different keys. -/
theorem LawfulRankable.ofKey {κ : Type} [LinearOrder κ] (key : RankOrder → α → κ)
    (hinj : ∀ order {a b}, key order a = key order b → a = b)
    (hle : ∀ order a b, RankedLe order a b ↔ key order a ≤ key order b) : LawfulRankable α where
  total order a b := by
    rw [hle, hle]
    exact le_total _ _
  trans order a b c hab hbc := by
    rw [hle] at hab hbc ⊢
    exact hab.trans hbc
  antisymm order a b hab hba := by
    rw [hle] at hab hba
    exact hinj order (le_antisymm hab hba)

/-- The place of a neighbor: its score first, then its target. -/
def Neighbor.key (order : RankOrder) (a : Neighbor) : Int ×ₗ Nat :=
  toLex (scoreKey order a.score, a.target)

/-- The place of a pair: its score first, then its two nodes. -/
def SimilarPair.key (order : RankOrder) (a : SimilarPair) : Int ×ₗ (Nat ×ₗ Nat) :=
  toLex (scoreKey order a.score, toLex (a.left, a.right))

/-- What decides first and what decides last, as one key. -/
theorem isLE_then_iff {κ ι : Type} [LinearOrder κ] [LinearOrder ι] (x y : κ) {o : Ordering}
    (u v : ι)
    (ho : o.isLE = true ↔ u ≤ v) :
    ((compare x y).then o).isLE = true ↔ toLex (x, u) ≤ toLex (y, v) := by
  rw [Ordering.isLE_then_iff_or, Prod.Lex.toLex_le_toLex, compare_lt_iff_lt, compare_eq_iff_eq, ho]

instance : LawfulRankable Neighbor := by
  refine .ofKey Neighbor.key (fun order a b h => ?_) fun order a b => ?_
  · obtain ⟨a, x⟩ := a
    obtain ⟨b, y⟩ := b
    obtain ⟨hscore, htarget⟩ := Prod.mk.inj (toLex.injective h)
    obtain rfl := scoreKey_inj hscore
    obtain rfl : a = b := htarget
    rfl
  · show ((rankScores order a.score b.score).then (compare a.target b.target)).isLE = true ↔ _
    rw [rankScores_eq]
    exact isLE_then_iff _ _ _ _ Std.isLE_compare

instance : LawfulRankable SimilarPair := by
  refine .ofKey SimilarPair.key (fun order a b h => ?_) fun order a b => ?_
  · obtain ⟨a, a', x⟩ := a
    obtain ⟨b, b', y⟩ := b
    obtain ⟨hscore, hnodes⟩ := Prod.mk.inj (toLex.injective h)
    obtain rfl := scoreKey_inj hscore
    obtain ⟨hleft, hright⟩ := Prod.mk.inj (toLex.injective hnodes)
    obtain rfl : a = b := hleft
    obtain rfl : a' = b' := hright
    rfl
  · show ((rankScores order a.score b.score).then
      ((compare a.left b.left).then (compare a.right b.right))).isLE = true ↔ _
    rw [rankScores_eq]
    exact isLE_then_iff _ _ _ _ (isLE_then_iff _ _ _ _ Std.isLE_compare)

/-! ## Sorting -/

/-- The best items of a list, best first. -/
def bestRanked (order : RankOrder) (limit : Nat) (items : List α) : List α :=
  (sortRanked order items).take limit

variable {order : RankOrder} {limit : Nat}

theorem sortRanked_perm (items : List α) : (sortRanked order items).Perm items :=
  List.mergeSort_perm ..

/-- What is behind the best items stays behind when one more item is inserted. -/
theorem take_orderedInsert (item : α) (sorted : List α) : ∀ limit,
    ((sorted.take limit).orderedInsert (RankedLe order) item).take limit =
      (sorted.orderedInsert (RankedLe order) item).take limit := by
  induction sorted with
  | nil =>
    intro limit
    rw [List.take_nil]
  | cons first sorted ih =>
    intro limit
    cases limit with
    | zero => rfl
    | succ limit =>
      rw [List.take_succ_cons, List.orderedInsert_cons, List.orderedInsert_cons]
      split
      · cases limit with
        | zero => rfl
        | succ limit =>
          rw [List.take_succ_cons, List.take_succ_cons, List.take_succ_cons, List.take_succ_cons,
            List.take_take, Nat.min_eq_left (Nat.le_succ limit)]
      · rw [List.take_succ_cons, List.take_succ_cons, ih]

variable [LawfulRankable α]

instance : Std.Total (RankedLe order (α := α)) := ⟨LawfulRankable.total order⟩

instance : IsTrans α (RankedLe order) := ⟨LawfulRankable.trans order⟩

instance : Std.Antisymm (RankedLe order (α := α)) := ⟨LawfulRankable.antisymm order⟩

/-- Sorting inserts one item after another. -/
theorem sortRanked_eq (items : List α) :
    sortRanked order items = items.insertionSort (RankedLe order) := by
  rw [← List.mergeSort_eq_insertionSort, sortRanked]
  congr
  funext a b
  exact Bool.decide_eq_true.symm

theorem pairwise_sortRanked (items : List α) :
    (sortRanked order items).Pairwise (RankedLe order) := by
  rw [sortRanked_eq]
  exact List.pairwise_insertionSort ..

/-- The order in which items come does not matter. -/
theorem sortRanked_eq_of_perm {items items' : List α} (h : items.Perm items') :
    sortRanked order items = sortRanked order items' :=
  ((sortRanked_perm items).trans (h.trans (sortRanked_perm items').symm)).eq_of_pairwise'
    (pairwise_sortRanked items) (pairwise_sortRanked items')

theorem sortRanked_eq_self {items : List α} (h : items.Pairwise (RankedLe order)) :
    sortRanked order items = items :=
  (sortRanked_perm items).eq_of_pairwise' (pairwise_sortRanked items) h

/-! ## The best items -/

theorem bestRanked_eq_of_perm {items items' : List α} (h : items.Perm items') :
    bestRanked order limit items = bestRanked order limit items' := by
  rw [bestRanked, bestRanked, sortRanked_eq_of_perm h]

/-- The best of the best are the best. -/
theorem bestRanked_bestRanked (items : List α) :
    bestRanked order limit (bestRanked order limit items) = bestRanked order limit items := by
  have hsorted : (bestRanked order limit items).Pairwise (RankedLe order) :=
    (pairwise_sortRanked items).sublist (List.take_sublist ..)
  rw [bestRanked, sortRanked_eq_self hsorted, bestRanked, List.take_take, Nat.min_self]

/-- One more item competes with the best only. -/
theorem bestRanked_cons (item : α) (items : List α) :
    bestRanked order limit (item :: bestRanked order limit items) =
      bestRanked order limit (item :: items) := by
  have hsorted : (bestRanked order limit items).Pairwise (RankedLe order) :=
    (pairwise_sortRanked items).sublist (List.take_sublist ..)
  rw [bestRanked, sortRanked_eq, List.insertionSort_cons, hsorted.insertionSort_eq, bestRanked,
    take_orderedInsert, sortRanked_eq, ← List.insertionSort_cons, ← sortRanked_eq]
  rfl

/-- More items compete with the best only. -/
theorem bestRanked_append (items more : List α) :
    bestRanked order limit (bestRanked order limit items ++ more) =
      bestRanked order limit (items ++ more) := by
  have hflip : ∀ xs : List α, bestRanked order limit (xs ++ more) =
      bestRanked order limit (more ++ xs) := fun xs =>
    bestRanked_eq_of_perm List.perm_append_comm
  rw [hflip, hflip]
  clear hflip
  induction more with
  | nil => exact bestRanked_bestRanked items
  | cons item more ih =>
    rw [List.cons_append, ← bestRanked_cons, ih, bestRanked_cons, List.cons_append]

end PagedGraph
