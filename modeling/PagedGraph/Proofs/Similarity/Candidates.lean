import PagedGraph.Proofs.Similarity.PackedIndex
import PagedGraph.Proofs.Similarity.Score

/-!
# Candidates instead of all pairs

With a positive cutoff the index loses no pair, finds none twice and keeps the order.  This
holds of any profiles that are ascending lists of nodes, whether they were read from a view
or not (`scoreBatch_indexed`).

The candidates of a node are some of the nodes above it, in the same order.  Those that are
left out share nothing with it, so they have no score that passes.
-/

namespace PagedGraph

/-- Profiles are ascending lists of nodes without repetitions. -/
structure ValidProfiles (profiles : Profiles) : Prop where
  ascending : ∀ profile : List Nat, some profile ∈ profiles → profile.Pairwise (· < ·)
  bounded : ∀ profile : List Nat, some profile ∈ profiles → ∀ t ∈ profile, t < profiles.size

/-- A node has a profile or an empty one. -/
theorem profileIn_cases (profiles : Profiles) (node : Nat) :
    profileIn profiles node = [] ∨ some (profileIn profiles node) ∈ profiles := by
  rw [profileIn, Array.getD_eq_getD_getElem?]
  cases h : profiles[node]? with
  | none => exact .inl rfl
  | some profile? =>
    cases profile? with
    | none => exact .inl rfl
    | some profile => exact .inr (Array.mem_of_getElem? h)

namespace ValidProfiles

variable {profiles : Profiles} (h : ValidProfiles profiles)

include h

theorem pairwise_profileIn (node : Nat) : (profileIn profiles node).Pairwise (· < ·) := by
  rcases profileIn_cases profiles node with hnone | hsome
  · rw [hnone]
    exact .nil
  · exact h.ascending _ hsome

theorem nodup_profileIn (node : Nat) : (profileIn profiles node).Nodup :=
  nodup_of_ascending (h.pairwise_profileIn node)

theorem lt_of_mem_profileIn (node : Nat) : ∀ t ∈ profileIn profiles node, t < profiles.size := by
  intro t ht
  rcases profileIn_cases profiles node with hnone | hsome
  · rw [hnone] at ht
    cases ht
  · exact h.bounded _ hsome t ht

/-- A node has the same qualifying pairs with its candidates as with all nodes above it. -/
theorem scorePartners_indexed {c : SimilaritySettings} (hneeds : c.needsAllPairs = false)
    (node : Nat) : scorePartners c ⟨profiles, some (.ofProfiles profiles)⟩ node =
      scorePartners c ⟨profiles, none⟩ node := by
  have hprofile : ∀ {i profile}, profiles.getD i none = some profile →
      profileIn profiles i = profile := by
    intro i profile hi
    rw [profileIn, hi]
    rfl
  simp only [scorePartners, Prepared.profile?]
  cases hleft : profiles.getD node none with
  | none => rfl
  | some left =>
    have hbounded := h.lt_of_mem_profileIn node
    have hascending := h.pairwise_profileIn node
    rw [hprofile hleft] at hbounded hascending
    have hcandidates : Prepared.partners ⟨profiles, some (.ofProfiles profiles)⟩ node left = _ :=
      CandidateIndex.candidates_eq h.nodup_profileIn hbounded node
    simp only [hcandidates, Prepared.partners_none, List.filterMap_filter]
    refine List.filterMap_congr fun other _ => ?_
    by_cases habove : node < other
    · by_cases hshares : ∃ t ∈ left, t ∈ profileIn profiles other
      · simp [habove, hshares]
      · -- without a shared neighbor the other node is no candidate, and has no score that passes
        have hnone : (profiles.getD other none).bind (fun right =>
            (pairScore c left right).map (⟨node, other, ·⟩)) = (none : Option SimilarPair) := by
          cases hright : profiles.getD other none with
          | none => rfl
          | some right =>
            have hother := h.pairwise_profileIn other
            rw [hprofile hright] at hother hshares
            rw [Option.bind_some, pairScore_eq_none hneeds hascending hother
              fun t ht hmem => hshares ⟨t, ht, hmem⟩]
            rfl
        rw [hnone, ite_self, ite_self]
    · simp [habove]

end ValidProfiles

/-- With a positive cutoff a batch has the same qualifying pairs, in the same order, with the
index as without it.  The holders of a node above another are all nodes above it that have the
first in their profile, ascending, also when they are packed into one array. -/
theorem scoreBatch_indexed {profiles : Profiles} (h : ValidProfiles profiles)
    {c : SimilaritySettings} (hcutoff : Double.zero.blt c.scoreCutoff = true) :
    (∀ batch, scoreBatch c ⟨profiles, some (.ofProfiles profiles)⟩ batch =
      scoreBatch c ⟨profiles, none⟩ batch) ∧
    ∀ t < profiles.size, ∀ node,
      (CandidateIndex.ofProfiles profiles).holdersAbove t node =
          (List.range profiles.size).filter (fun other =>
            node < other ∧ t ∈ profileIn profiles other) ∧
        (PackedIndex.ofProfiles profiles).holdersAbove t node =
          (CandidateIndex.ofProfiles profiles).holdersAbove t node := by
  refine ⟨fun batch => ?_, fun t ht node => ?_⟩
  · have hneeds : c.needsAllPairs = false := Double.ble_zero_eq_false hcutoff
    exact List.flatMap_congr fun node _ => h.scorePartners_indexed hneeds node
  · have hholders := CandidateIndex.holdersAbove_eq h.nodup_profileIn ht node
    refine ⟨hholders, ?_⟩
    rw [hholders, PackedIndex.holdersAbove_eq h.nodup_profileIn h.lt_of_mem_profileIn ht]

/-- Three nodes, one of which does not take part. -/
theorem scoreBatch_indexed_threeNodes :
    ValidProfiles #[some [1, 2], none, some [0, 1]] ∧
    Double.zero.blt standardCutoff = true ∧
    scoreBatch {} ⟨#[some [1, 2], none, some [0, 1]],
        some (.ofProfiles #[some [1, 2], none, some [0, 1]])⟩ ⟨0, 3⟩ =
      scoreBatch {} ⟨#[some [1, 2], none, some [0, 1]], none⟩ ⟨0, 3⟩ ∧
    (PackedIndex.ofProfiles #[some [1, 2], none, some [0, 1]]).holdersAbove 1 0 = [2] := by
  have hvalid : ValidProfiles #[some [1, 2], none, some [0, 1]] := by
    constructor <;> simp
  have hcutoff : Double.zero.blt standardCutoff = true := by decide +kernel
  obtain ⟨hscores, hholders⟩ := @scoreBatch_indexed _ hvalid {} hcutoff
  obtain ⟨habove, hpacked⟩ := hholders 1 (by decide) 0
  refine ⟨hvalid, hcutoff, hscores ⟨0, 3⟩, ?_⟩
  rw [hpacked, habove]
  decide

end PagedGraph
