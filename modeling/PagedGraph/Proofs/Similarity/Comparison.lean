import PagedGraph.Proofs.Number.AtLeastOne
import PagedGraph.Proofs.Similarity.Score
import PagedGraph.Similarity.Comparison

/-!
# Profiles compared as sets

Two strictly ascending lists are compared by how many elements they share.  This number is
that of the common members, whichever list comes first, and whether suffixes are taken or
two places move up in arrays (`SharedScan.count_run`).  So no size is below it, and taking it
out of the sum of the sizes leaves the size of the union (`CountedAsSets`).

If the sum of the sizes is a word, no word overflows on the way.  A score is then undefined
only where the divisor of its metric is zero as a natural number, before it is rounded
(`ScoredAsSets`).

Every comparison of a run is one of two such lists (`View.Sound.mem_comparisons`), and its
rows come from these comparisons only (`Prepared.scoreBatch_eq`).
-/

namespace PagedGraph

/-! ## Counting in place -/

namespace SharedScan

variable (xs ys : Array Nat)

/-- What was counted, and what is still to be counted. -/
def total (s : SharedScan) : Nat :=
  addShared s.count (xs.toList.drop s.left) (ys.toList.drop s.right)

/-- A step keeps the total: what it passes is counted or not shared. -/
theorem total_step (s : SharedScan) (h : s.left < xs.size ∧ s.right < ys.size) :
    (s.step xs ys h).total xs ys = s.total xs ys := by
  have hleft : xs.toList.drop s.left = xs[s.left] :: xs.toList.drop (s.left + 1) :=
    List.drop_eq_getElem_cons h.1
  have hright : ys.toList.drop s.right = ys[s.right] :: ys.toList.drop (s.right + 1) :=
    List.drop_eq_getElem_cons h.2
  obtain ⟨hlt, hstep⟩ | ⟨hgt, hstep⟩ | ⟨heq, hstep⟩ := step_cases xs ys s h
  · rw [hstep, total, total, hleft, hright, addShared, if_pos hlt]
  · rw [hstep, total, total, hleft, hright, addShared, if_neg (Nat.lt_asymm hgt), if_pos hgt]
  · rw [hstep, total, total, hleft, hright, addShared, if_neg heq.not_lt, if_neg heq.not_gt]

/-- At the end of one array nothing is still to be counted. -/
theorem total_of_end {s : SharedScan} (h : ¬(s.left < xs.size ∧ s.right < ys.size)) :
    s.total xs ys = s.count := by
  rw [total]
  rcases Nat.lt_or_ge s.left xs.size with hx | hx
  · have hright : ys.toList.drop s.right = [] :=
      List.drop_eq_nil_of_le (Nat.not_lt.mp fun hy => h ⟨hx, hy⟩)
    rw [hright]
    cases xs.toList.drop s.left with
    | nil => rw [addShared]
    | cons x rest => rw [addShared]
  · have hleft : xs.toList.drop s.left = [] := List.drop_eq_nil_of_le hx
    rw [hleft, addShared]

theorem count_run (s : SharedScan) : (s.run xs ys).count = s.total xs ys := by
  fun_induction run xs ys s with
  | case1 s h ih => rw [ih, total_step]
  | case2 s h => rw [total_of_end xs ys h]

end SharedScan

/-- Moving up in arrays counts what taking suffixes counts. -/
theorem scanShared_toArray (xs ys : List Nat) :
    scanShared xs.toArray ys.toArray = sharedCount xs ys :=
  SharedScan.count_run xs.toArray ys.toArray {}

/-! ## Counting sets -/

section

variable {xs ys : List Nat} (hxs : xs.Pairwise (· < ·)) (hys : ys.Pairwise (· < ·))

include hxs hys

theorem sharedCount_comm : sharedCount xs ys = sharedCount ys xs := by
  rw [sharedCount_eq_card hxs hys, sharedCount_eq_card hys hxs, Finset.inter_comm]

theorem sharedCount_le_min : sharedCount xs ys ≤ min xs.length ys.length := by
  rw [sharedCount_eq_card hxs hys, ← card_toFinset hxs, ← card_toFinset hys]
  exact le_min (Finset.card_le_card Finset.inter_subset_left)
    (Finset.card_le_card Finset.inter_subset_right)

/-- What is shared is in both sizes, and taken out of their sum once. -/
theorem card_union_add_sharedCount :
    (xs.toFinset ∪ ys.toFinset).card + sharedCount xs ys = xs.length + ys.length := by
  rw [sharedCount_eq_card hxs hys, Finset.card_union_add_card_inter, card_toFinset hxs,
    card_toFinset hys]

theorem sharedCount_le_add : sharedCount xs ys ≤ xs.length + ys.length :=
  Nat.le_of_add_left_le (card_union_add_sharedCount hxs hys).le

theorem length_sub_sharedCount :
    xs.length + ys.length - sharedCount xs ys = (xs.toFinset ∪ ys.toFinset).card :=
  Nat.sub_eq_of_eq_add (card_union_add_sharedCount hxs hys).symm

end

theorem card_union_eq_zero_iff (xs ys : List Nat) :
    (xs.toFinset ∪ ys.toFinset).card = 0 ↔ xs = [] ∧ ys = [] := by
  rw [Finset.card_eq_zero, Finset.union_eq_empty, List.toFinset_eq_empty_iff,
    List.toFinset_eq_empty_iff]

/-! ## Divisors -/

/-- What a metric divides by, as a natural number: the size of the union, the smaller size, or
the product of the sizes, whose root is taken. -/
def SetMetric.exactDivisor : SetMetric → Finset Nat → Finset Nat → Nat
  | jaccard, s, t => (s ∪ t).card
  | overlap, s, t => min s.card t.card
  | cosine, s, t => s.card * t.card

theorem SetMetric.score_eq_none_iff {m : SetMetric} {shared size1 size2 : Nat} :
    m.score shared size1 size2 = none ↔ (m.divisor shared size1 size2).isZero = true := by
  rw [score]
  split
  case isTrue h => exact iff_of_true rfl h
  case isFalse h => exact iff_of_false (Option.some_ne_none _) h

/-- Sizes whose sum is a word leave a word without what is shared. -/
theorem unionWord?_eq {shared size1 size2 : Nat} (hfits : size1 + size2 < 2 ^ 64)
    (hle : shared ≤ size1 + size2) :
    unionWord? shared.toUInt64 size1.toUInt64 size2.toUInt64 =
      some (size1 + size2 - shared).toUInt64 := by
  have h1 : size1.toUInt64.toNat = size1 := toNat_toUInt64 (by omega)
  have h2 : size2.toUInt64.toNat = size2 := toNat_toUInt64 (by omega)
  have hshared : shared.toUInt64.toNat = shared := toNat_toUInt64 (by omega)
  have hrest : (size1 + size2 - shared).toUInt64.toNat = size1 + size2 - shared :=
    toNat_toUInt64 (by omega)
  have hsum : (size1.toUInt64 + size2.toUInt64).toNat = size1 + size2 := by
    rw [UInt64.toNat_add, h1, h2, Nat.mod_eq_of_lt hfits]
  have hsize : UInt64.size = 2 ^ 64 := rfl
  have hbelow : ¬size1.toUInt64 + size2.toUInt64 < shared.toUInt64 := by
    rw [UInt64.lt_iff_toNat_lt, hsum, hshared]
    omega
  rw [unionWord?, h1, h2, hsize, if_neg (by omega), if_neg hbelow, Option.some_inj,
    ← UInt64.toNat_inj, UInt64.toNat_sub_of_le, hsum, hshared, hrest]
  rw [UInt64.le_iff_toNat_le, hsum, hshared]
  exact hle

/-- Rounding makes no divisor zero, so it is zero only where it is as a natural number. -/
theorem SetMetric.isZero_divisor_iff {xs ys : List Nat} (hxs : xs.Pairwise (· < ·))
    (hys : ys.Pairwise (· < ·)) (hfits : xs.length + ys.length < 2 ^ 64) (m : SetMetric) :
    (m.divisor (sharedCount xs ys) xs.length ys.length).isZero = true ↔
      m.exactDivisor xs.toFinset ys.toFinset = 0 := by
  cases m with
  | jaccard =>
    show (Double.ofNat (xs.length + ys.length - sharedCount xs ys)).isZero = true ↔ _
    rw [Double.isZero_ofNat_iff (by omega), length_sub_sharedCount hxs hys]
    rfl
  | overlap =>
    show (Double.ofNat (min xs.length ys.length)).isZero = true ↔ _
    rw [Double.isZero_ofNat_iff (by omega), exactDivisor, card_toFinset hxs, card_toFinset hys]
  | cosine =>
    show ((Double.ofNat xs.length).mul (.ofNat ys.length)).sqrt.isZero = true ↔ _
    rw [Double.isZero_sqrt_mul_ofNat_iff (by omega) (by omega), exactDivisor, card_toFinset hxs,
      card_toFinset hys]

/-! ## Lists as sets -/

/-- What two lists share, and what they have together, is counted as for sets. -/
structure CountedAsSets (xs ys : List Nat) : Prop where
  card : sharedCount xs ys = (xs.toFinset ∩ ys.toFinset).card
  /-- Two places that move up in arrays count the same. -/
  scan : scanShared xs.toArray ys.toArray = sharedCount xs ys
  comm : sharedCount xs ys = sharedCount ys xs
  le_min : sharedCount xs ys ≤ min xs.length ys.length
  /-- The difference below is not cut off at zero. -/
  le_add : sharedCount xs ys ≤ xs.length + ys.length
  union : xs.length + ys.length - sharedCount xs ys = (xs.toFinset ∪ ys.toFinset).card
  union_eq_zero_iff : xs.length + ys.length - sharedCount xs ys = 0 ↔ xs = [] ∧ ys = []

/-- Two lists whose sizes are words are scored as sets. -/
structure ScoredAsSets (xs ys : List Nat) : Prop where
  /-- The sum of the sizes is a word. -/
  fits : xs.length + ys.length < 2 ^ 64
  /-- The size of the union is computed in words, and the divisor of `jaccard` is its double. -/
  word : ∃ size : UInt64,
    unionWord? (sharedCount xs ys).toUInt64 xs.length.toUInt64 ys.length.toUInt64 = some size ∧
      size.toNat = (xs.toFinset ∪ ys.toFinset).card ∧
      SetMetric.jaccard.divisor (sharedCount xs ys) xs.length ys.length = .ofFloat size.toFloat
  /-- A score is undefined where the divisor is zero. -/
  undefined_iff : ∀ m : SetMetric, m.score (sharedCount xs ys) xs.length ys.length = none ↔
    m.exactDivisor xs.toFinset ys.toFinset = 0

section

variable {xs ys : List Nat} (hxs : xs.Pairwise (· < ·)) (hys : ys.Pairwise (· < ·))

include hxs hys

theorem countedAsSets : CountedAsSets xs ys where
  card := sharedCount_eq_card hxs hys
  scan := scanShared_toArray xs ys
  comm := sharedCount_comm hxs hys
  le_min := sharedCount_le_min hxs hys
  le_add := sharedCount_le_add hxs hys
  union := length_sub_sharedCount hxs hys
  union_eq_zero_iff := by rw [length_sub_sharedCount hxs hys, card_union_eq_zero_iff]

theorem scoredAsSets (hfits : xs.length + ys.length < 2 ^ 64) : ScoredAsSets xs ys := by
  refine ⟨hfits, ⟨_, unionWord?_eq hfits (sharedCount_le_add hxs hys), ?_, rfl⟩, fun m => ?_⟩
  · rw [toNat_toUInt64 (by omega), length_sub_sharedCount hxs hys]
  · rw [SetMetric.score_eq_none_iff, m.isZero_divisor_iff hxs hys hfits]

end

/-! ## The comparisons of a run -/

/-- The rows of a node are those of its comparisons. -/
theorem Prepared.scorePartners_eq (c : SimilaritySettings) (p : Prepared) (node : Nat) :
    scorePartners c p node = (p.comparisons node).filterMap (Comparison.row? c) := by
  rw [scorePartners, comparisons]
  cases p.profile? node with
  | none => rfl
  | some left =>
    show List.filterMap _ _ = List.filterMap _ (List.filterMap _ _)
    rw [List.filterMap_filterMap]
    refine List.filterMap_congr fun other _ => ?_
    cases p.profile? other with
    | none => rfl
    | some right => rfl

/-- The rows of a batch are those of its comparisons. -/
theorem Prepared.scoreBatch_eq (c : SimilaritySettings) (p : Prepared) (batch : NodeRange) :
    scoreBatch c p batch =
      (batch.nodes.flatMap p.comparisons).filterMap (Comparison.row? c) := by
  rw [scoreBatch, List.filterMap_flatMap]
  exact List.flatMap_congr fun node _ => p.scorePartners_eq c node

namespace View.Sound

variable {v : View} (h : v.Sound)

include h

/-- A run compares the neighbors of two nodes that it admits, if it compares all pairs or they
share one. -/
theorem mem_comparisons {c : SimilaritySettings} {node : Nat} {q : Comparison} :
    q ∈ (Prepared.ofView v c).comparisons node ↔
      ∃ other, node ∈ admitted v c ∧ other ∈ admitted v c ∧ node < other ∧
        (c.needsAllPairs = true ∨ ∃ t ∈ v.neighbors node, t ∈ v.neighbors other) ∧
        q = ⟨node, other, v.neighbors node, v.neighbors other⟩ := by
  rw [Prepared.comparisons, h.profile?_ofView]
  by_cases hnode : node ∈ admitted v c
  · simp only [if_pos hnode, List.mem_filterMap, Option.map_eq_some_iff,
      h.partners_ofView c (lt_of_mem_admitted hnode), List.mem_filter, List.mem_range,
      decide_eq_true_eq, h.profile?_ofView, h.profileIn_profilesOf]
    constructor
    · rintro ⟨other, ⟨-, hlt, hshares⟩, right, hright, rfl⟩
      split at hright
      case isTrue hother =>
        rw [if_pos hother] at hshares
        cases hright
        exact ⟨other, hnode, hother, hlt, hshares, rfl⟩
      case isFalse => cases hright
    · rintro ⟨other, -, hother, hlt, hshares, rfl⟩
      refine ⟨other, ⟨lt_of_mem_admitted hother, hlt, ?_⟩, v.neighbors other, ?_, rfl⟩
      · rwa [if_pos hother]
      · rw [if_pos hother]
  · simp only [if_neg hnode]
    refine iff_of_false List.not_mem_nil ?_
    rintro ⟨other, hmem, -⟩
    exact hnode hmem

/-- The lists that a run compares are strictly ascending. -/
theorem ascending_comparison {c : SimilaritySettings} {node : Nat} {q : Comparison}
    (hq : q ∈ (Prepared.ofView v c).comparisons node) :
    q.left.Pairwise (· < ·) ∧ q.right.Pairwise (· < ·) := by
  obtain ⟨other, hnode, hother, -, -, rfl⟩ := h.mem_comparisons.mp hq
  exact ⟨h.pairwise_neighbors (lt_of_mem_admitted hnode),
    h.pairwise_neighbors (lt_of_mem_admitted hother)⟩

theorem length_comparison_lt {c : SimilaritySettings} {node : Nat} {q : Comparison}
    (hq : q ∈ (Prepared.ofView v c).comparisons node) :
    q.left.length + q.right.length < 2 * v.nodeCount := by
  obtain ⟨other, hnode, hother, -, -, rfl⟩ := h.mem_comparisons.mp hq
  have hleft := h.length_neighbors_lt (lt_of_mem_admitted hnode)
  have hright := h.length_neighbors_lt (lt_of_mem_admitted hother)
  dsimp only
  omega

end View.Sound

/-! ## Three nodes -/

namespace View

theorem mem_admitted_threeNodeView {node : Nat} (hnode : node < 3) :
    node ∈ admitted threeNodeView {} := by
  rw [admitted_eq_participants loaded_threeNodeView.sound degreesFit_threeNodeView,
    mem_participants, card_neighborSet_threeNodeView hnode]
  exact ⟨hnode, by decide, by decide⟩

theorem mem_neighbors_threeNodeView {node t : Nat} (hnode : node < 3) :
    t ∈ threeNodeView.neighbors node ↔ t < 3 ∧ t ≠ node := by
  rw [loaded_threeNodeView.sound.mem_neighbors hnode, neighborSet, Finset.mem_erase,
    List.mem_toFinset, mem_targets_threeNodeView hnode]
  tauto

/-- The third node is a neighbor of the other two, so these are compared. -/
theorem mem_comparisons_threeNodeView :
    ⟨0, 1, threeNodeView.neighbors 0, threeNodeView.neighbors 1⟩ ∈
      (Prepared.ofView threeNodeView {}).comparisons 0 := by
  rw [loaded_threeNodeView.sound.mem_comparisons]
  refine ⟨1, mem_admitted_threeNodeView (by decide), mem_admitted_threeNodeView (by decide),
    by decide, .inr ⟨2, ?_, ?_⟩, rfl⟩
  · exact (mem_neighbors_threeNodeView (by decide)).mpr (by decide)
  · exact (mem_neighbors_threeNodeView (by decide)).mpr (by decide)

theorem exactDivisor_threeNodeView (m : SetMetric) :
    m.exactDivisor (threeNodeView.neighbors 0).toFinset (threeNodeView.neighbors 1).toFinset ≠
      0 := by
  have hcard : ∀ node < 3, (threeNodeView.neighbors node).toFinset.card = 2 := by
    intro node hnode
    rw [loaded_threeNodeView.sound.toFinset_neighbors hnode, card_neighborSet_threeNodeView hnode]
  cases m with
  | jaccard =>
    refine Finset.card_ne_zero_of_mem (a := 2) (Finset.mem_union_left _ ?_)
    exact List.mem_toFinset.mpr ((mem_neighbors_threeNodeView (by decide)).mpr (by decide))
  | overlap =>
    rw [SetMetric.exactDivisor, hcard 0 (by decide), hcard 1 (by decide)]
    decide
  | cosine =>
    rw [SetMetric.exactDivisor, hcard 0 (by decide), hcard 1 (by decide)]
    decide

end View

/-! ## Comparing sets -/

/-- Strictly ascending lists are compared as sets, and all that a run compares are such lists.
The rows of a run come from its comparisons.  A run holds the profiles of all nodes in memory,
so there are at most `2 ^ 63` nodes. -/
theorem compared_as_sets :
    (∀ {xs ys : List Nat}, xs.Pairwise (· < ·) → ys.Pairwise (· < ·) →
      CountedAsSets xs ys ∧ (xs.length + ys.length < 2 ^ 64 → ScoredAsSets xs ys)) ∧
    ∀ {v : View}, v.Loaded → ∀ c : SimilaritySettings,
      (∀ batch, scoreBatch c (.ofView v c) batch =
        (batch.nodes.flatMap (Prepared.ofView v c).comparisons).filterMap (Comparison.row? c)) ∧
      ∀ node, ∀ q ∈ (Prepared.ofView v c).comparisons node,
        CountedAsSets q.left q.right ∧ (v.nodeCount ≤ 2 ^ 63 → ScoredAsSets q.left q.right) := by
  constructor
  · intro xs ys hxs hys
    exact ⟨countedAsSets hxs hys, scoredAsSets hxs hys⟩
  · intro v hv c
    refine ⟨(Prepared.ofView v c).scoreBatch_eq c, fun node q hq => ?_⟩
    obtain ⟨hleft, hright⟩ := hv.sound.ascending_comparison hq
    refine ⟨countedAsSets hleft hright, fun hcount => scoredAsSets hleft hright ?_⟩
    have hsizes := hv.sound.length_comparison_lt hq
    omega

/-- Two lists with two elements in common, an empty one without a score, and two nodes of three
that are compared, whose score is defined. -/
theorem compared_as_sets_threeNodes :
    sharedCount [1, 2, 3] [2, 3, 4] = 2 ∧
    [1, 2, 3].length + [2, 3, 4].length - sharedCount [1, 2, 3] [2, 3, 4] = 4 ∧
    SetMetric.cosine.score (sharedCount [] [1, 2, 3]) 0 3 = none ∧
    View.threeNodeView.nodeCount ≤ 2 ^ 63 ∧
    ∃ q ∈ (Prepared.ofView View.threeNodeView {}).comparisons 0,
      ∀ m : SetMetric,
        m.score (sharedCount q.left q.right) q.left.length q.right.length ≠ none := by
  obtain ⟨hlists, hruns⟩ := compared_as_sets
  obtain ⟨hcounted, -⟩ := @hlists [1, 2, 3] [2, 3, 4] (by decide) (by decide)
  obtain ⟨-, hempty⟩ := @hlists [] [1, 2, 3] (by decide) (by decide)
  have hcount : View.threeNodeView.nodeCount ≤ 2 ^ 63 := by decide
  refine ⟨?_, ?_, ?_, hcount, _, View.mem_comparisons_threeNodeView, fun m => ?_⟩
  · rw [hcounted.card]
    decide
  · rw [hcounted.union]
    decide
  · exact ((hempty (by decide)).undefined_iff .cosine).mpr (by decide)
  · obtain ⟨-, hcompared⟩ := hruns View.loaded_threeNodeView {}
    obtain ⟨-, hscored⟩ := hcompared 0 _ View.mem_comparisons_threeNodeView
    rw [ne_eq, (hscored hcount).undefined_iff]
    exact View.exactDivisor_threeNodeView m

end PagedGraph
