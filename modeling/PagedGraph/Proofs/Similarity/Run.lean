import PagedGraph.Proofs.Similarity.Rows
import PagedGraph.Proofs.Similarity.Score
import PagedGraph.Proofs.Similarity.Settings

/-!
# What a run gives

A run gives the rows that its settings declare (`declaredRows`), whatever the number of workers
is, however batches share accumulators and in whichever order batches and accumulators come.
These are rows of the nodes that it admits.  Where degrees fit in 32 bits, these are the nodes
that take part.

What adding a pair and merging accumulators preserve holds of what is gathered
(`Gathering.Keeps.accumulate`), and the pairs of all batches are the qualifying pairs in some
order (`flatMap_scoreBatch`).  For each way to accumulate, this says what `selectRows` starts
from, because no way depends on the order of the pairs.
-/

namespace PagedGraph

/-! ## Gathering -/

namespace Gathering

theorem batches_ofBatches (workers : Nat) (bs : List NodeRange) :
    (ofBatches workers bs).batches = bs := by
  have hfold : ∀ (bs : List NodeRange) (t : Gathering),
      (bs.foldl (fun gathered batch => join gathered (part [batch])) t).batches =
        t.batches ++ bs := by
    intro bs
    induction bs with
    | nil =>
      intro t
      exact (List.append_nil _).symm
    | cons batch bs ih =>
      intro t
      rw [List.foldl_cons, ih, batches, List.append_assoc]
      rfl
  rw [ofBatches]
  split
  case isTrue => rfl
  case isFalse => exact hfold bs (part [])

variable {α : Type}

/-- What holds of an accumulator and the pairs it has seen. -/
structure Keeps (R : α → List SimilarPair → Prop) (blank : α) (add : α → SimilarPair → α)
    (merge : α → α → α) : Prop where
  blank : R blank []
  add : ∀ {a pairs}, R a pairs → ∀ r, R (add a r) (pairs ++ [r])
  merge : ∀ {a b pairs others}, R a pairs → R b others → R (merge a b) (pairs ++ others)

variable {R : α → List SimilarPair → Prop} {blank : α} {add : α → SimilarPair → α}
  {merge : α → α → α}

theorem Keeps.foldl (h : Keeps R blank add merge) (more : List SimilarPair) :
    ∀ {a pairs}, R a pairs → R (more.foldl add a) (pairs ++ more) := by
  induction more with
  | nil =>
    intro a pairs ha
    rw [List.append_nil]
    exact ha
  | cons r more ih =>
    intro a pairs ha
    have hnext := ih (h.add ha r)
    rw [List.append_assoc] at hnext
    exact hnext

/-- What is gathered has seen the pairs of all batches. -/
theorem Keeps.accumulate (h : Keeps R blank add merge) (c : SimilaritySettings) (p : Prepared)
    (t : Gathering) :
    R (t.accumulate c p blank add merge) (t.batches.flatMap (scoreBatch c p)) := by
  induction t with
  | part bs =>
    rw [Gathering.accumulate, batches, ← List.foldl_flatMap]
    have hall := h.foldl (bs.flatMap (scoreBatch c p)) h.blank
    rw [List.nil_append] at hall
    exact hall
  | join left right ihleft ihright =>
    rw [Gathering.accumulate, batches, List.flatMap_append]
    exact h.merge ihleft ihright

end Gathering

/-- The pairs of all batches are the qualifying pairs. -/
theorem flatMap_scoreBatch {v : View} (h : v.Sound) (c : SimilaritySettings) {t : Gathering}
    (ht : t.batches.Perm (batchesOf v.nodeCount c.workers)) :
    (t.batches.flatMap (scoreBatch c (.ofView v c))).Perm
      (qualifyingPairs v c (admitted v c)) := by
  refine (ht.flatMap_right _).trans (List.Perm.of_eq ?_)
  rw [← h.flatMap_scorePartners c, ← flatMap_nodes_batchesOf v.nodeCount c.workers,
    List.flatMap_assoc]
  rfl

/-- Sorted by their nodes the qualifying pairs ascend, in whichever order they come. -/
theorem mergeSort_eq_qualifyingPairs {v : View} {c : SimilaritySettings} {nodes : List Nat}
    (hnodes : nodes.Pairwise (· < ·)) {pairs : List SimilarPair}
    (h : pairs.Perm (qualifyingPairs v c nodes)) :
    pairs.mergeSort (fun a b => ((compare a.left b.left).then (compare a.right b.right)).isLE) =
      qualifyingPairs v c nodes := by
  have hle : ∀ a b : SimilarPair,
      ((compare a.left b.left).then (compare a.right b.right)).isLE = true ↔
        toLex (a.left, a.right) ≤ toLex (b.left, b.right) := fun a b =>
    isLE_then_iff _ _ _ _ Std.isLE_compare
  refine ((List.mergeSort_perm pairs _).trans h).eq_of_pairwise (fun a b ha hb hab hba => ?_)
    (List.pairwise_mergeSort ?_ ?_ pairs) ?_
  · -- The score of a pair is that of its nodes, so that no two pairs have the same nodes.
    obtain ⟨-, -, -, hscore⟩ := mem_qualifyingPairs.mp (h.mem_iff.mp (List.mem_mergeSort.mp ha))
    obtain ⟨-, -, -, hscore'⟩ := mem_qualifyingPairs.mp hb
    obtain ⟨left, right, score⟩ := a
    obtain ⟨left', right', score'⟩ := b
    have hnodes := le_antisymm ((hle _ _).mp hab) ((hle _ _).mp hba)
    obtain ⟨rfl, rfl⟩ := Prod.mk.inj (toLex.injective hnodes)
    obtain rfl := Option.some.inj (hscore.symm.trans hscore')
    rfl
  · intro a b c hab hbc
    exact (hle a c).mpr (((hle a b).mp hab).trans ((hle b c).mp hbc))
  · intro a b
    rw [Bool.or_eq_true]
    exact (le_total _ _).imp (hle a b).mpr (hle b a).mpr
  · refine (pairwise_qualifyingPairs v c hnodes).imp fun {a b} hlex => (hle a b).mpr ?_
    exact Prod.Lex.toLex_le_toLex.mpr (hlex.imp_right fun hlex => ⟨hlex.1, hlex.2.le⟩)

/-! ## The rows of a run -/

/-- What bounds for every node and for all rows leave of the rows of some nodes. -/
def declaredRows (v : View) (c : SimilaritySettings) (nodes : List Nat) (kBound nBound : Bound) :
    List SimilarPair :=
  boundedRows v.nodeCount (directedRows (qualifyingPairs v c nodes)) kBound nBound

theorem simple_declaredRows (v : View) (c : SimilaritySettings) {nodes : List Nat}
    (hnodes : nodes.Pairwise (· < ·)) (kBound nBound : Bound) :
    Simple (declaredRows v c nodes kBound nBound) := by
  have hlt : ∀ r ∈ qualifyingPairs v c nodes, r.left < r.right := fun r hr =>
    (mem_qualifyingPairs.mp hr).2.2.1
  exact (simple_directedRows hlt (pairwise_qualifyingPairs v c hnodes)).boundedRows ..

section

variable {v : View} (h : v.Sound) (c : SimilaritySettings) {t : Gathering}
  (ht : t.batches.Perm (batchesOf v.nodeCount c.workers))

include h ht

theorem scorePairs_eq :
    scorePairs t c (.ofView v c) = qualifyingPairs v c (admitted v c) := by
  have hkeeps : Gathering.Keeps (fun (a : Array SimilarPair) pairs => a.toList = pairs) #[]
      Array.push (· ++ ·) := by
    refine ⟨rfl, fun ha r => ?_, fun ha hb => ?_⟩
    · rw [Array.toList_push, ha]
    · rw [Array.toList_append, ha, hb]
  rw [scorePairs, hkeeps.accumulate c (.ofView v c) t]
  exact mergeSort_eq_qualifyingPairs (pairwise_admitted v c) (flatMap_scoreBatch h c ht)

theorem scoreTopN_eq (n : Nat) (order : RankOrder) :
    scoreTopN t c (.ofView v c) n order =
      bestRanked order n (directedRows (qualifyingPairs v c (admitted v c))) := by
  have hkeeps : Gathering.Keeps
      (fun (s : Shortlist SimilarPair) pairs => s.Represents n order (directedRows pairs))
      { limit := n, order } (fun s r => (s.insert r).insert r.swap) Shortlist.merge := by
    refine ⟨Shortlist.represents_blank n order, fun hs r => ?_, fun hs hs' => ?_⟩
    · rw [directedRows_append_singleton]
      exact (hs.insert r).insert r.swap
    · rw [directedRows_append]
      exact hs.merge hs'
  have hall := hkeeps.accumulate c (.ofView v c) t
  refine Shortlist.Represents.toList_eq hall |>.trans ?_
  exact bestRanked_eq_of_perm ((flatMap_scoreBatch h c ht).flatMap_right _)

theorem scoreTopK_eq (k : Nat) (order : RankOrder) :
    scoreTopK t c (.ofView v c) k order =
      bestNeighbors v.nodeCount k order
        (directedRows (qualifyingPairs v c (admitted v c))) := by
  have hkeeps : Gathering.Keeps
      (fun (m : NodeShortlists) pairs => m.Represents v.nodeCount k order (directedRows pairs))
      (NodeShortlists.blank v.nodeCount k order)
      (fun m r => (m.insert r.left r.right r.score).insert r.right r.left r.score)
      NodeShortlists.merge := by
    refine ⟨NodeShortlists.represents_blank v.nodeCount k order, fun hm r => ?_,
      fun hm hm' => ?_⟩
    · rw [directedRows_append_singleton]
      exact (hm.insert r).insert r.swap
    · rw [directedRows_append]
      exact hm.merge hm'
  have hall := hkeeps.accumulate c (.ofView v c) t
  rw [scoreTopK]
  show NodeShortlists.toLists (Gathering.accumulate c _
    (NodeShortlists.blank (profilesOf v c).size k order) _ _ t) = _
  rw [size_profilesOf]
  refine hall.toLists_eq.trans ?_
  exact bestNeighbors_eq_of_perm ((flatMap_scoreBatch h c ht).flatMap_right _)

end

/-- Of the rows that a bound for nodes left, the best are kept. -/
theorem bestOf_eq (lists : List (List Neighbor)) (limit : Nat) (order : RankOrder) :
    bestOf lists limit order = bestRanked order limit (neighborRows lists) := by
  have hkeeps : Gathering.Keeps
      (fun (s : Shortlist SimilarPair) rows => s.Represents limit order rows)
      { limit, order } Shortlist.insert Shortlist.merge :=
    ⟨Shortlist.represents_blank limit order, fun hs r => hs.insert r, fun hs hs' => hs.merge hs'⟩
  exact (hkeeps.foldl (neighborRows lists) hkeeps.blank).toList_eq

/-- What a run keeps are the rows that its settings declare, however batches are gathered. -/
theorem exists_selectRows {v : View} (h : v.Sound) (c : SimilaritySettings) :
    ∃ rows : SimilarityRows,
      (∀ t : Gathering, t.batches.Perm (batchesOf v.nodeCount c.workers) →
        selectRows t c (.ofView v c) = rows) ∧
      ∀ count, SimilarityRun.toList ⟨rows, count⟩ =
        declaredRows v c (admitted v c) c.kBound c.nBound := by
  simp only [selectRows, declaredRows]
  cases c.kBound with
  | unbounded =>
    cases c.nBound with
    | unbounded =>
      refine ⟨.pairs (qualifyingPairs v c (admitted v c)), fun t ht => ?_, fun count => rfl⟩
      exact congrArg SimilarityRows.pairs (scorePairs_eq h c ht)
    | limited n order =>
      refine ⟨.directed _, fun t ht => ?_, fun count => rfl⟩
      exact congrArg SimilarityRows.directed (scoreTopN_eq h c ht n order)
  | limited k kOrder =>
    cases c.nBound with
    | unbounded =>
      refine ⟨.perNode (bestNeighbors v.nodeCount k kOrder
          (directedRows (qualifyingPairs v c (admitted v c)))),
        fun t ht => ?_, fun count => neighborRows_bestNeighbors ..⟩
      exact congrArg SimilarityRows.perNode (scoreTopK_eq h c ht k kOrder)
    | limited n order =>
      refine ⟨.directed _, fun t ht => ?_, fun count => rfl⟩
      show SimilarityRows.directed (bestOf (scoreTopK t c _ k kOrder) n order) = _
      rw [scoreTopK_eq h c ht, bestOf_eq, neighborRows_bestNeighbors]

/-! ## Runs -/

/-- A run gives the rows that its settings declare and counts the nodes that it admits, however
its batches are gathered.  Where degrees fit in 32 bits, it admits the nodes that take part.  No
row joins a node with itself, and no two rows join the same nodes in the same direction. -/
theorem exists_runSimilarity_declared {v : View} (hv : v.Loaded) {c : SimilaritySettings}
    (hc : c.validate = .ok ()) :
    ∃ (run : SimilarityRun) (kBound nBound : Bound),
      c.Declares kBound nBound ∧
      runSimilarity v c false = .ok (some run) ∧
      (∀ t : Gathering, t.batches.Perm (batchesOf v.nodeCount c.workers) →
        runGathered t v c false = .ok (some run)) ∧
      run.participants = (admitted v c).length ∧
      run.toList = declaredRows v c (admitted v c) kBound nBound ∧
      (v.DegreesFit → run.participants = (participants v c).length ∧
        run.toList = declaredRows v c (participants v c) kBound nBound) ∧
      (∀ row ∈ run.toList, row.left ≠ row.right) ∧
      run.toList.Pairwise fun row row' => (row.left, row.right) ≠ (row'.left, row'.right) := by
  have hcount : participantCount (Prepared.ofView v c).profiles = (admitted v c).length :=
    participantCount_profilesOf hv.sound c
  have hsimple := simple_declaredRows v c (pairwise_admitted v c) c.kBound c.nBound
  obtain ⟨rows, hselect, hrows⟩ := exists_selectRows hv.sound c
  have hrun : ∀ t : Gathering, t.batches.Perm (batchesOf v.nodeCount c.workers) →
      runGathered t v c false = .ok (some (if (admitted v c).length = 0 then ⟨.directed [], 0⟩
        else ⟨rows, (admitted v c).length⟩)) := by
    intro t ht
    rw [runGathered, hc]
    show (if participantCount (Prepared.ofView v c).profiles = 0 then Except.ok _
      else Except.ok _) = _
    rw [hcount, hselect t ht]
    split
    case isTrue => rfl
    case isFalse => rfl
  have hfits : v.DegreesFit → admitted v c = participants v c := fun hfits =>
    admitted_eq_participants hv.sound hfits c
  refine ⟨_, c.kBound, c.nBound, SimilaritySettings.declares_bounds hc,
    hrun _ (List.Perm.of_eq (Gathering.batches_ofBatches ..)), hrun, ?_⟩
  split
  case isTrue hnone =>
    have hpairs : qualifyingPairs v c (admitted v c) = [] := by
      rw [List.length_eq_zero_iff.mp hnone]
      rfl
    have hnil : declaredRows v c (admitted v c) c.kBound c.nBound = [] := by
      rw [declaredRows, hpairs]
      exact boundedRows_nil ..
    refine ⟨hnone.symm, hnil.symm, fun hdegrees => ?_, fun row hrow => absurd hrow List.not_mem_nil,
      .nil⟩
    rw [← hfits hdegrees]
    exact ⟨hnone.symm, hnil.symm⟩
  case isFalse =>
    rw [hrows]
    refine ⟨rfl, rfl, fun hdegrees => ?_, hsimple.loopless, hsimple.distinct⟩
    rw [← hfits hdegrees]
    exact ⟨rfl, rfl⟩

theorem length_participants_threeNodeView : (participants View.threeNodeView {}).length = 3 := by
  rw [participants, List.filter_eq_self.mpr]
  · rfl
  · intro node hnode
    rw [View.card_neighborSet_threeNodeView (List.mem_range.mp hnode)]
    decide

/-- The run with ten neighbors a node on three nodes, every two of them related. -/
theorem exists_runSimilarity_declared_threeNodes :
    ∃ run : SimilarityRun, runSimilarity View.threeNodeView {} false = .ok (some run) ∧
      run.participants = 3 ∧
      run.toList = declaredRows View.threeNodeView {} (participants View.threeNodeView {})
        (.limited 10 .highest) .unbounded := by
  have hvalid : SimilaritySettings.validate {} = .ok () := by decide +kernel
  obtain ⟨run, k, n, hbounds, hrun, -, -, -, hfits, -⟩ :=
    exists_runSimilarity_declared View.loaded_threeNodeView hvalid
  obtain ⟨hcount, hrows⟩ := hfits View.degreesFit_threeNodeView
  obtain ⟨rfl, rfl⟩ := hbounds.eq hvalid
  exact ⟨run, hrun, hcount.trans length_participants_threeNodeView, hrows⟩

end PagedGraph
