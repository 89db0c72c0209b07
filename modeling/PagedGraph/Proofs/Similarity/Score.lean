import PagedGraph.Proofs.Number.Double
import PagedGraph.Proofs.Similarity.Profile
import PagedGraph.Similarity.Run

/-!
# Which pairs qualify

Two nodes that take part are compared by their sets of neighbors (`similarityOf?`).  The
pairs that are not below the cutoff are `qualifyingPairs`, ascending.

A run finds these pairs whichever way it looks for them (`scorePartners_ofView`).

* With a cutoff of zero a node is compared with every node above it.
* Otherwise it is compared with the nodes above it that share a neighbor with it.  The
  others have a similarity of zero, if they have one (`SetMetric.score_zero`), and that is
  below the cutoff.
-/

namespace PagedGraph

/-! ## The similarity of nodes -/

theorem SetMetric.nonnegative_divisor (m : SetMetric) (shared size1 size2 : Nat) :
    (m.divisor shared size1 size2).Nonnegative := by
  cases m with
  | jaccard => exact Double.nonnegative_ofNat _
  | overlap => exact Double.nonnegative_ofNat _
  | cosine => exact (Double.nonnegative_mul_ofNat size1 size2).sqrt

/-- Sets that share nothing have similarity zero, or none. -/
theorem SetMetric.score_zero {m : SetMetric} {size1 size2 : Nat} {s : Double}
    (h : m.score 0 size1 size2 = some s) : s = .zero := by
  have hdiv := (m.nonnegative_divisor 0 size1 size2).div_eq_zero
  have hmin : Double.zero.min .one = .zero := by decide +kernel
  rw [score] at h
  split at h
  case isTrue => cases h
  case isFalse hd =>
    rw [hdiv (Bool.eq_false_iff.mpr hd), hmin] at h
    exact (Option.some.inj h).symm

/-- The similarity of two nodes, none below the cutoff. -/
def similarityOf? (v : View) (c : SimilaritySettings) (i j : Nat) : Option Double :=
  (c.metric.score (v.neighborSet i ∩ v.neighborSet j).card (v.neighborSet i).card
    (v.neighborSet j).card).filter (c.scoreCutoff.ble ·)

/-- The pairs of some nodes that are similar, the smaller node first. -/
def qualifyingPairs (v : View) (c : SimilaritySettings) (nodes : List Nat) : List SimilarPair :=
  nodes.flatMap fun i =>
    (nodes.filter (i < ·)).filterMap fun j => (similarityOf? v c i j).map (⟨i, j, ·⟩)

theorem mem_qualifyingPairs {v : View} {c : SimilaritySettings} {nodes : List Nat}
    {r : SimilarPair} :
    r ∈ qualifyingPairs v c nodes ↔ r.left ∈ nodes ∧ r.right ∈ nodes ∧
      r.left < r.right ∧ similarityOf? v c r.left r.right = some r.score := by
  simp only [qualifyingPairs, List.mem_flatMap, List.mem_filterMap, List.mem_filter,
    decide_eq_true_eq, Option.map_eq_some_iff]
  constructor
  · rintro ⟨i, hi, j, ⟨hj, hlt⟩, s, hs, rfl⟩
    exact ⟨hi, hj, hlt, hs⟩
  · rintro ⟨hi, hj, hlt, hs⟩
    exact ⟨r.left, hi, r.right, ⟨hj, hlt⟩, r.score, hs, rfl⟩

theorem flatMap_filter {α β : Type} (p : α → Prop) [DecidablePred p] (f : α → List β)
    (xs : List α) :
    (xs.filter (p ·)).flatMap f = xs.flatMap fun x => if p x then f x else [] := by
  induction xs with
  | nil => rfl
  | cons x xs ih =>
    rw [List.flatMap_cons, ← ih]
    split
    case isTrue hx => simp [hx]
    case isFalse hx => simp [hx]

/-- The qualifying pairs of ascending nodes ascend by their smaller node, then by the other. -/
theorem pairwise_qualifyingPairs (v : View) (c : SimilaritySettings) {nodes : List Nat}
    (hnodes : nodes.Pairwise (· < ·)) : (qualifyingPairs v c nodes).Pairwise fun r r' =>
      r.left < r'.left ∨ r.left = r'.left ∧ r.right < r'.right := by
  rw [qualifyingPairs, List.pairwise_flatMap]
  constructor
  · intro i hi
    rw [List.pairwise_filterMap]
    refine (hnodes.filter _).imp fun {j j'} hlt r hr r' hr' => ?_
    obtain ⟨s, -, rfl⟩ := Option.map_eq_some_iff.mp hr
    obtain ⟨s', -, rfl⟩ := Option.map_eq_some_iff.mp hr'
    exact Or.inr ⟨rfl, hlt⟩
  · refine hnodes.imp fun {i i'} hlt r hr r' hr' => ?_
    obtain ⟨j, -, hr⟩ := List.mem_filterMap.mp hr
    obtain ⟨j', -, hr'⟩ := List.mem_filterMap.mp hr'
    obtain ⟨s, -, rfl⟩ := Option.map_eq_some_iff.mp hr
    obtain ⟨s', -, rfl⟩ := Option.map_eq_some_iff.mp hr'
    exact Or.inl hlt

/-! ## What a run compares -/

/-- Without an index a node is compared with all nodes above it. -/
theorem Prepared.partners_none (profiles : Profiles) (i : Nat) (profile : List Nat) :
    Prepared.partners ⟨profiles, none⟩ i profile = (List.range profiles.size).filter (i < ·) := by
  show List.range' (i + 1) (profiles.size - (i + 1)) = _
  refine eq_of_ascending List.pairwise_lt_range' (List.pairwise_lt_range.filter _) fun j => ?_
  rw [List.mem_range'_1, List.mem_filter, List.mem_range, decide_eq_true_eq]
  omega

/-- Without a shared element the score is zero, or there is none, and only a cutoff of zero
lets it pass. -/
theorem pairScore_eq_none {c : SimilaritySettings} (hneeds : c.needsAllPairs = false)
    {left right : List Nat} (hleft : left.Pairwise (· < ·)) (hright : right.Pairwise (· < ·))
    (hapart : ∀ t ∈ left, t ∉ right) : pairScore c left right = none := by
  have hempty : left.toFinset ∩ right.toFinset = ∅ := by
    rw [Finset.eq_empty_iff_forall_notMem]
    intro t ht
    obtain ⟨htl, htr⟩ := Finset.mem_inter.mp ht
    exact hapart t (List.mem_toFinset.mp htl) (List.mem_toFinset.mp htr)
  rw [pairScore, sharedCount_eq_card hleft hright, hempty, Finset.card_empty,
    Option.filter_eq_none_iff]
  intro s hs hcutoff
  rw [SetMetric.score_zero hs] at hcutoff
  exact Bool.eq_false_iff.mp hneeds hcutoff

namespace View.Sound

variable {v : View} (h : v.Sound) (c : SimilaritySettings)

include h

/-- The nodes that are admitted are those with a profile, which holds their neighbors. -/
theorem profile?_ofView (node : Nat) :
    (Prepared.ofView v c).profile? node =
      if node ∈ admitted v c then some (v.neighbors node) else none := by
  show (profilesOf v c).getD node none = _
  rw [Array.getD_eq_getD_getElem?]
  by_cases hnode : node < v.nodeCount
  · rw [getElem?_profilesOf hnode, Option.getD_some, h.profileOf?_eq hnode]
  · have hsize : (profilesOf v c).size ≤ node := by
      rw [size_profilesOf]
      exact Nat.not_lt.mp hnode
    rw [Array.getElem?_eq_none hsize, Option.getD_none, if_neg]
    exact fun hmem => hnode (lt_of_mem_admitted hmem)

/-- Profiles are compared as the sets of neighbors that they are. -/
theorem pairScore_eq {i j : Nat} (hi : i < v.nodeCount) (hj : j < v.nodeCount) :
    pairScore c (v.neighbors i) (v.neighbors j) = similarityOf? v c i j := by
  rw [pairScore, similarityOf?, sharedCount_eq_card (h.pairwise_neighbors hi)
    (h.pairwise_neighbors hj), h.toFinset_neighbors hi, h.toFinset_neighbors hj,
    h.length_neighbors hi, h.length_neighbors hj]

theorem profileIn_profilesOf (node : Nat) :
    profileIn (profilesOf v c) node = if node ∈ admitted v c then v.neighbors node else [] := by
  have hprofile : (profilesOf v c).getD node none = _ := h.profile?_ofView c node
  rw [profileIn, hprofile]
  split
  · rfl
  · rfl

theorem nodup_profileIn (node : Nat) : (profileIn (profilesOf v c) node).Nodup := by
  rw [h.profileIn_profilesOf]
  split
  case isTrue hmem =>
    exact nodup_of_ascending (h.pairwise_neighbors (lt_of_mem_admitted hmem))
  case isFalse => exact List.nodup_nil

/-- The nodes above a node are searched, all of them or those that share a neighbor with it. -/
theorem partners_ofView {i : Nat} (hi : i < v.nodeCount) :
    (Prepared.ofView v c).partners i (v.neighbors i) =
      (List.range v.nodeCount).filter fun j =>
        i < j ∧ (c.needsAllPairs = true ∨
          ∃ t ∈ v.neighbors i, t ∈ profileIn (profilesOf v c) j) := by
  have hsize := size_profilesOf v c
  cases hneeds : c.needsAllPairs with
  | true =>
    have hall : Prepared.ofView v c = ⟨profilesOf v c, none⟩ :=
      congrArg (Prepared.mk _) (if_pos hneeds)
    rw [hall, Prepared.partners_none, hsize]
    refine List.filter_congr fun j _ => ?_
    simp
  | false =>
    have hindex : (Prepared.ofView v c).index = some (.ofProfiles (profilesOf v c)) :=
      if_neg (Bool.eq_false_iff.mp hneeds)
    have hbounded : ∀ t ∈ v.neighbors i, t < (profilesOf v c).size := by
      intro t ht
      rw [hsize]
      exact h.mem_neighbors_lt hi ht
    rw [Prepared.partners, hindex]
    show CandidateIndex.candidates _ i (v.neighbors i) = _
    rw [CandidateIndex.candidates_eq (h.nodup_profileIn c) hbounded, hsize]
    refine List.filter_congr fun j _ => ?_
    simp

/-- A node that is similar is searched. -/
theorem searched_of_similarityOf? {i j : Nat} (hi : i < v.nodeCount)
    (hj : j ∈ admitted v c) {s : Double} (hs : similarityOf? v c i j = some s) :
    c.needsAllPairs = true ∨ ∃ t ∈ v.neighbors i, t ∈ profileIn (profilesOf v c) j := by
  have hjn := lt_of_mem_admitted hj
  rw [h.profileIn_profilesOf, if_pos hj]
  by_contra! hnone
  obtain ⟨hneeds, hapart⟩ := hnone
  rw [← h.pairScore_eq c hi hjn, pairScore_eq_none (Bool.eq_false_iff.mpr hneeds)
    (h.pairwise_neighbors hi) (h.pairwise_neighbors hjn) hapart] at hs
  cases hs

/-- The pairs found for a node are those that qualify. -/
theorem scorePartners_ofView (i : Nat) :
    scorePartners c (.ofView v c) i =
      if i ∈ admitted v c then
        ((admitted v c).filter (i < ·)).filterMap fun j =>
          (similarityOf? v c i j).map (⟨i, j, ·⟩)
      else [] := by
  rw [scorePartners, h.profile?_ofView]
  by_cases hi : i ∈ admitted v c
  · have hin := lt_of_mem_admitted hi
    simp only [if_pos hi]
    rw [h.partners_ofView c hin, ← filter_mem_admitted v c, List.filter_filter,
      List.filterMap_filter, List.filterMap_filter]
    -- Both sides now run over all nodes, and differ only in how they leave nodes out.
    refine List.filterMap_congr fun j hj => ?_
    have hjn := List.mem_range.mp hj
    rw [h.profile?_ofView]
    by_cases hmem : j ∈ admitted v c
    · rw [if_pos hmem, Option.bind_some, h.pairScore_eq c hin hjn]
      cases hs : similarityOf? v c i j with
      | none => simp
      | some s =>
        have hsearched := h.searched_of_similarityOf? c hin hmem hs
        simp [hmem, hsearched]
    · simp [hmem]
  · simp only [if_neg hi]

/-- Looking for pairs node by node finds the qualifying pairs. -/
theorem flatMap_scorePartners :
    (List.range v.nodeCount).flatMap (scorePartners c (.ofView v c)) =
      qualifyingPairs v c (admitted v c) := by
  rw [List.flatMap_congr fun i _ => h.scorePartners_ofView c i, ← flatMap_filter,
    filter_mem_admitted]
  rfl

end View.Sound

end PagedGraph
