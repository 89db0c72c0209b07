import PagedGraph.Proofs.Similarity.Shared
import PagedGraph.Proofs.View.Basic
import PagedGraph.Proofs.Work.CountingSort

/-!
# Profiles and candidates

The profile of a node is its set of neighbors without itself (`View.neighborSet`), and a node
takes part if the size of this set is between the cutoffs (`participants`).  A run reads the
degree of a node first (`profileOf?_eq`), so it compares the nodes that are `admitted`.  A degree
that fits in 32 bits leaves out no other node (`admitted_eq_participants`).

A candidate index lists the holders of every node in ascending order
(`CandidateIndex.lists_ofProfiles`).  So the candidates of a node are the nodes above it that
share a neighbor with it (`CandidateIndex.candidates_eq`).
-/

namespace PagedGraph

/-! ## Neighbors -/

/-- The neighbors of a node other than itself. -/
def View.neighborSet (v : View) (node : Nat) : Finset Nat := (v.targets node).toFinset.erase node

/-- The nodes whose number of neighbors is between the cutoffs, ascending. -/
def participants (v : View) (c : SimilaritySettings) : List Nat :=
  (List.range v.nodeCount).filter fun node =>
    c.degreeCutoff ≤ (v.neighborSet node).card ∧ (v.neighborSet node).card ≤ c.upperDegreeCutoff

theorem mem_participants {v : View} {c : SimilaritySettings} {node : Nat} :
    node ∈ participants v c ↔ node < v.nodeCount ∧ c.degreeCutoff ≤ (v.neighborSet node).card ∧
      (v.neighborSet node).card ≤ c.upperDegreeCutoff := by
  rw [participants, List.mem_filter, List.mem_range, decide_eq_true_eq]

theorem pairwise_participants (v : View) (c : SimilaritySettings) :
    (participants v c).Pairwise (· < ·) :=
  List.pairwise_lt_range.filter _

/-- The nodes among them whose degree is not below the lower cutoff, ascending. -/
def admitted (v : View) (c : SimilaritySettings) : List Nat :=
  (participants v c).filter fun node => c.degreeCutoff ≤ v.degree node

theorem mem_admitted {v : View} {c : SimilaritySettings} {node : Nat} :
    node ∈ admitted v c ↔ node ∈ participants v c ∧ c.degreeCutoff ≤ v.degree node := by
  rw [admitted, List.mem_filter, decide_eq_true_eq]

theorem lt_of_mem_admitted {v : View} {c : SimilaritySettings} {node : Nat}
    (h : node ∈ admitted v c) : node < v.nodeCount :=
  (mem_participants.mp (mem_admitted.mp h).1).1

theorem pairwise_admitted (v : View) (c : SimilaritySettings) :
    (admitted v c).Pairwise (· < ·) :=
  (pairwise_participants v c).filter _

theorem filter_mem_admitted (v : View) (c : SimilaritySettings) :
    (List.range v.nodeCount).filter (· ∈ admitted v c) = admitted v c := by
  refine eq_of_ascending (List.pairwise_lt_range.filter _) (pairwise_admitted v c) fun node => ?_
  rw [List.mem_filter, List.mem_range, decide_eq_true_eq]
  exact and_iff_right_of_imp lt_of_mem_admitted

namespace View.Sound

variable {v : View} (h : v.Sound) {node : Nat} (hnode : node < v.nodeCount)

include h hnode

theorem pairwise_neighbors : (v.neighbors node).Pairwise (· < ·) :=
  pairwise_distinctSorted ((h.ascending hnode).filter _)

theorem toFinset_neighbors : (v.neighbors node).toFinset = v.neighborSet node := by
  ext t
  rw [List.mem_toFinset, neighbors, mem_distinctSorted ((h.ascending hnode).filter _), neighborSet,
    Finset.mem_erase, List.mem_toFinset, List.mem_filter, and_comm, decide_eq_true_eq]

theorem length_neighbors : (v.neighbors node).length = (v.neighborSet node).card := by
  rw [← h.toFinset_neighbors hnode, card_toFinset (h.pairwise_neighbors hnode)]

theorem mem_neighbors {t : Nat} : t ∈ v.neighbors node ↔ t ∈ v.neighborSet node := by
  rw [← h.toFinset_neighbors hnode, List.mem_toFinset]

theorem mem_neighbors_lt {t : Nat} (ht : t ∈ v.neighbors node) : t < v.nodeCount := by
  rw [neighbors, mem_distinctSorted ((h.ascending hnode).filter _)] at ht
  exact h.bounded hnode (List.mem_filter.mp ht).1

/-- A node is none of its neighbors, so there are fewer of these than nodes. -/
theorem length_neighbors_lt : (v.neighbors node).length < v.nodeCount := by
  have hothers : v.neighborSet node ⊆ (Finset.range v.nodeCount).erase node := by
    intro t ht
    rw [Finset.mem_erase, Finset.mem_range]
    exact ⟨Finset.ne_of_mem_erase ht, h.mem_neighbors_lt hnode ((h.mem_neighbors hnode).mpr ht)⟩
  calc (v.neighbors node).length
    _ = (v.neighborSet node).card := h.length_neighbors hnode
    _ ≤ ((Finset.range v.nodeCount).erase node).card := Finset.card_le_card hothers
    _ < (Finset.range v.nodeCount).card := Finset.card_erase_lt_of_mem (Finset.mem_range.mpr hnode)
    _ = v.nodeCount := Finset.card_range _

/-- There are no more neighbors than a degree that fits says. -/
theorem card_neighborSet_le (hfits : v.DegreesFit) :
    (v.neighborSet node).card ≤ v.degree node := by
  rw [h.degree_of_fits hfits hnode]
  exact (Finset.card_erase_le).trans (List.toFinset_card_le _)

/-- A node takes part with its neighbors if their number is between the cutoffs, and its degree is
not below the lower one. -/
theorem profileOf?_eq (c : SimilaritySettings) :
    profileOf? v c node = if node ∈ admitted v c then some (v.neighbors node) else none := by
  show (if v.degree node < c.degreeCutoff then none
    else if (v.neighbors node).length < c.degreeCutoff ∨
      c.upperDegreeCutoff < (v.neighbors node).length then none else some (v.neighbors node)) = _
  simp only [h.length_neighbors hnode, mem_admitted, mem_participants, hnode, true_and]
  split
  · next hdegree => rw [if_neg fun hmem => Nat.not_lt.mpr hmem.2 hdegree]
  · next hdegree =>
    by_cases hcutoffs : c.degreeCutoff ≤ (v.neighborSet node).card ∧
        (v.neighborSet node).card ≤ c.upperDegreeCutoff
    · rw [if_neg (by omega), if_pos ⟨hcutoffs, Nat.not_lt.mp hdegree⟩]
    · rw [if_pos (by omega), if_neg fun hmem => hcutoffs hmem.1]

end View.Sound

/-- Where degrees fit, reading them first leaves out no node that takes part. -/
theorem admitted_eq_participants {v : View} (h : v.Sound) (hfits : v.DegreesFit)
    (c : SimilaritySettings) : admitted v c = participants v c := by
  refine List.filter_eq_self.mpr fun node hnode => decide_eq_true ?_
  obtain ⟨hlt, hcutoff, -⟩ := mem_participants.mp hnode
  exact hcutoff.trans (h.card_neighborSet_le hlt hfits)

theorem View.card_neighborSet_threeNodeView {node : Nat} (hnode : node < 3) :
    (threeNodeView.neighborSet node).card = 2 := by
  have herase : threeNodeView.neighborSet node = (Finset.range 3).erase node := by
    ext t
    rw [neighborSet, Finset.mem_erase, Finset.mem_erase, List.mem_toFinset,
      mem_targets_threeNodeView hnode, Finset.mem_range]
    tauto
  rw [herase, Finset.card_erase_of_mem (Finset.mem_range.mpr hnode), Finset.card_range]

/-! ## Profiles -/

/-- Batch by batch is node by node. -/
theorem toList_profilesOf (v : View) (c : SimilaritySettings) :
    (profilesOf v c).toList = (List.range v.nodeCount).map (profileOf? v c) := by
  rw [profilesOf, ← flatMap_nodes_batchesOf v.nodeCount c.workers, List.map_flatMap]

theorem size_profilesOf (v : View) (c : SimilaritySettings) :
    (profilesOf v c).size = v.nodeCount := by
  rw [← Array.length_toList, toList_profilesOf, List.length_map, List.length_range]

theorem getElem?_profilesOf {v : View} {node : Nat} (hnode : node < v.nodeCount)
    (c : SimilaritySettings) : (profilesOf v c)[node]? = some (profileOf? v c node) := by
  rw [← Array.getElem?_toList, toList_profilesOf, List.getElem?_map, List.getElem?_range hnode]
  rfl

/-- The nodes that take part are counted. -/
theorem participantCount_profilesOf {v : View} (h : v.Sound) (c : SimilaritySettings) :
    participantCount (profilesOf v c) = (admitted v c).length := by
  rw [participantCount, toList_profilesOf, List.countP_map, ← filter_mem_admitted,
    ← List.countP_eq_length_filter]
  refine List.countP_congr fun node hnode => ?_
  rw [Function.comp_apply, h.profileOf?_eq (List.mem_range.mp hnode)]
  split
  · next hmem => simp [hmem]
  · next hmem => simpa using hmem

/-- The profile of a node, empty for one that does not take part. -/
def profileIn (profiles : Profiles) (node : Nat) : List Nat := (profiles.getD node none).getD []

/-! ## Candidates -/

namespace CandidateIndex

/-- The holders of every node among the first ones. -/
def Lists (index : CandidateIndex) (n count : Nat) (profile : Nat → List Nat) : Prop :=
  ∀ t < n,
    index.holders[t]? = some ((List.range count).filter fun node => t ∈ profile node).toArray

variable {index : CandidateIndex} {n count : Nat} {profile : Nat → List Nat}

/-- One more node is the last of the holders. -/
theorem Lists.add (h : index.Lists n count profile) (hnodup : (profile count).Nodup) :
    (index.add count (profile count)).Lists n (count + 1) profile := by
  intro t ht
  obtain ⟨holders⟩ := index
  rw [CandidateIndex.add, getElem?_foldl_modify _ t hnodup, h t ht, Option.map_some,
    List.range_succ, List.filter_append]
  by_cases hmem : t ∈ profile count
  · simp [hmem]
  · simp [hmem]

theorem Lists.foldl_add (rest : List (Option (List Nat))) (hnodup : ∀ node, (profile node).Nodup) :
    ∀ {index : CandidateIndex} {count : Nat}, index.Lists n count profile →
      (∀ {i profile?}, rest[i]? = some profile? → profile?.getD [] = profile (count + i)) →
      ((rest.zipIdx count).foldl (fun index (profile?, node) => index.add node (profile?.getD []))
        index).Lists n (count + rest.length) profile := by
  induction rest with
  | nil =>
    intro index count h _
    exact h
  | cons profile? rest ih =>
    intro index count h hrest
    have hfirst : profile?.getD [] = profile count := hrest (i := 0) rfl
    have hnext := ih (h.add (hnodup count)) fun {i profile?} hi => by
      rw [Nat.add_assoc, Nat.add_comm 1]
      exact hrest (i := i + 1) hi
    rw [List.zipIdx_cons, List.foldl_cons, List.length_cons]
    show (List.foldl _ (index.add count (profile?.getD [])) _).Lists _ _ _
    rw [hfirst, ← Nat.add_assoc, Nat.add_right_comm]
    exact hnext

theorem lists_ofProfiles {profiles : Profiles} (hnodup : ∀ node, (profileIn profiles node).Nodup) :
    (ofProfiles profiles).Lists profiles.size profiles.size (profileIn profiles) := by
  have hblank : (⟨Array.replicate profiles.size #[]⟩ : CandidateIndex).Lists profiles.size 0
      (profileIn profiles) := by
    intro t ht
    rw [Array.getElem?_replicate, if_pos ht]
    rfl
  have hlists := Lists.foldl_add profiles.toList hnodup hblank fun {i profile?} hi => by
    rw [Array.getElem?_toList] at hi
    rw [profileIn, Nat.zero_add, Array.getD_eq_getD_getElem?, hi]
    rfl
  rw [Nat.zero_add, Array.length_toList] at hlists
  exact hlists

/-- The holders of a node that are above another, ascending. -/
theorem holdersAbove_eq {profiles : Profiles} (hnodup : ∀ node, (profileIn profiles node).Nodup)
    {t : Nat} (ht : t < profiles.size) (node : Nat) :
    (ofProfiles profiles).holdersAbove t node =
      (List.range profiles.size).filter fun other =>
        node < other ∧ t ∈ profileIn profiles other := by
  have hholders : (ofProfiles profiles).holdersAbove t node =
      ((List.range profiles.size).filter fun other => t ∈ profileIn profiles other).filter
        (node < ·) := by
    rw [holdersAbove, Array.getD_eq_getD_getElem?, lists_ofProfiles hnodup t ht]
    exact dropWhile_le_eq_filter (List.pairwise_le_range.filter _) node
  rw [hholders, List.filter_filter]
  exact List.filter_congr fun other _ => by simp

/-- The candidates of a node are the nodes above it that share an element with its profile. -/
theorem candidates_eq {profiles : Profiles} (hnodup : ∀ node, (profileIn profiles node).Nodup)
    {profile : List Nat} (hbounded : ∀ t ∈ profile, t < profiles.size) (node : Nat) :
    (ofProfiles profiles).candidates node profile =
      (List.range profiles.size).filter fun other =>
        node < other ∧ ∃ t ∈ profile, t ∈ profileIn profiles other := by
  have hsorted :=
    pairwise_mergeSort (profile.flatMap fun t => (ofProfiles profiles).holdersAbove t node)
  refine eq_of_ascending (pairwise_distinctSorted hsorted) (List.pairwise_lt_range.filter _) ?_
  intro other
  rw [candidates, mem_distinctSorted hsorted, List.mem_mergeSort, List.mem_flatMap, List.mem_filter,
    decide_eq_true_eq]
  constructor
  · rintro ⟨t, ht, hmem⟩
    rw [holdersAbove_eq hnodup (hbounded t ht), List.mem_filter, decide_eq_true_eq] at hmem
    exact ⟨hmem.1, hmem.2.1, t, ht, hmem.2.2⟩
  · rintro ⟨hrange, hlt, t, ht, hmem⟩
    refine ⟨t, ht, ?_⟩
    rw [holdersAbove_eq hnodup (hbounded t ht), List.mem_filter, decide_eq_true_eq]
    exact ⟨hrange, hlt, hmem⟩

end CandidateIndex

end PagedGraph
