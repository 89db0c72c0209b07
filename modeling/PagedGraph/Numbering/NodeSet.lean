import PagedGraph.Number.Ascending

/-!
# Sets of nodes

A `NodeSet` has its nodes in ascending order, and none twice.  So a node is looked up by halving:
`NodeSet.find` compares it with what stands in the middle of a range and goes on in one half.  It
finds the nodes of the set and no others (`NodeSet.contains_iff`).  Sets with the same nodes are
the same (`NodeSet.ofList_eq`).
-/

namespace PagedGraph

/-- Put a number in front of a set, unless it is the first already. -/
def addFirst (n : Nat) (set : List Nat) : List Nat := if set.head? = some n then set else n :: set

theorem mem_addFirst {m n : Nat} {set : List Nat} : m ∈ addFirst n set ↔ m = n ∨ m ∈ set := by
  rw [addFirst]
  split
  · next h => exact (or_iff_right_of_imp fun heq => heq ▸ List.mem_of_head? h).symm
  · exact List.mem_cons

/-- A number that is not above a set goes in front of it. -/
theorem pairwise_addFirst {n : Nat} {set : List Nat} (h : set.Pairwise (· < ·))
    (hle : ∀ m ∈ set, n ≤ m) : (addFirst n set).Pairwise (· < ·) := by
  rw [addFirst]
  split
  · exact h
  · next hne =>
    refine List.pairwise_cons.mpr ⟨fun m hm => Nat.lt_of_le_of_ne (hle m hm) ?_, h⟩
    rintro rfl
    cases set with
    | nil => cases hm
    | cons first rest =>
      rcases List.mem_cons.mp hm with rfl | hm
      · exact hne rfl
      · exact Nat.lt_irrefl _ (Nat.lt_of_lt_of_le ((List.pairwise_cons.mp h).1 _ hm)
          (hle _ List.mem_cons_self))

/-- Some numbers as a set: in ascending order, and none twice. -/
def numberSet (ns : List Nat) : List Nat := (ns.mergeSort (· ≤ ·)).foldr addFirst []

@[simp] theorem mem_foldr_addFirst {m : Nat} {ns : List Nat} :
    m ∈ ns.foldr addFirst [] ↔ m ∈ ns := by
  induction ns with
  | nil => rfl
  | cons n ns ih => rw [List.foldr_cons, mem_addFirst, ih, List.mem_cons]

@[simp] theorem mem_numberSet {n : Nat} {ns : List Nat} : n ∈ numberSet ns ↔ n ∈ ns := by
  simp [numberSet]

theorem pairwise_numberSet (ns : List Nat) : (numberSet ns).Pairwise (· < ·) := by
  have hsorted := pairwise_mergeSort ns
  rw [numberSet]
  generalize ns.mergeSort (· ≤ ·) = sorted at hsorted
  induction sorted with
  | nil => exact .nil
  | cons n rest ih =>
    obtain ⟨hle, hrest⟩ := List.pairwise_cons.mp hsorted
    exact pairwise_addFirst (ih hrest) fun m hm => hle m (mem_foldr_addFirst.mp hm)

/-- A set of numbers is told by its members. -/
theorem numberSet_eq {ms ns : List Nat} (h : ∀ n, n ∈ ms ↔ n ∈ ns) : numberSet ms = numberSet ns :=
  eq_of_ascending (pairwise_numberSet ms) (pairwise_numberSet ns) fun n => by
    rw [mem_numberSet, mem_numberSet, h]

/-- Some nodes in ascending order. -/
structure NodeSet where
  nodes : Array Nat
  ascending : nodes.toList.Pairwise (· < ·)

namespace NodeSet

/-- The set of some nodes. -/
def ofList (ns : List Nat) : NodeSet := ⟨(numberSet ns).toArray, pairwise_numberSet ns⟩

/-- The nodes of a set, ascending. -/
def toList (s : NodeSet) : List Nat := s.nodes.toList

/-- Whether a node stands in a range of an array that is in ascending order. -/
def find (nodes : Array Nat) (node low high : Nat) : Bool :=
  if low < high then
    let middle := low + (high - low) / 2
    match compare (nodes.getD middle 0) node with
    | .lt => find nodes node (middle + 1) high
    | .eq => true
    | .gt => find nodes node low middle
  else false
termination_by high - low

/-- Whether a node is in a set. -/
def contains (s : NodeSet) (node : Nat) : Bool := find s.nodes node 0 s.nodes.size

/-! ## Laws -/

@[simp] theorem mem_ofList {node : Nat} {ns : List Nat} : node ∈ (ofList ns).toList ↔ node ∈ ns :=
  mem_numberSet

/-- A set is told by its members. -/
theorem ofList_eq {ms ns : List Nat} (h : ∀ n, n ∈ ms ↔ n ∈ ns) : ofList ms = ofList ns := by
  simp only [ofList, numberSet_eq h]

/-- Nodes stand in the order of their places. -/
theorem getElem_le (s : NodeSet) {i j : Nat} (hij : i ≤ j) (hj : j < s.nodes.size) :
    s.nodes[i] ≤ s.nodes[j] := by
  rcases Nat.lt_or_eq_of_le hij with hlt | rfl
  · exact Nat.le_of_lt (List.pairwise_iff_getElem.mp s.ascending i j (Nat.lt_trans hlt hj) hj hlt)
  · exact Nat.le_refl _

/-- A range is searched for a node by halving it. -/
theorem find_iff (s : NodeSet) (node : Nat) {low high : Nat} (hhigh : high ≤ s.nodes.size) :
    find s.nodes node low high = true ↔ ∃ i, low ≤ i ∧ i < high ∧ s.nodes[i]? = some node := by
  rw [find]
  split
  · next hlt =>
    have hmiddle : low + (high - low) / 2 < high := by omega
    have hsize := Nat.lt_of_lt_of_le hmiddle hhigh
    have hget : s.nodes.getD (low + (high - low) / 2) 0 = s.nodes[low + (high - low) / 2] := by
      simp [Array.getD, hsize]
    -- what stands on the other side of the middle is on the other side of the node
    simp only [hget]
    split
    · next hcompare =>
      have hbelow := Nat.compare_eq_lt.mp hcompare
      rw [find_iff s node hhigh]
      refine exists_congr fun i => ⟨fun ⟨hlow, hi⟩ => ⟨by omega, hi⟩, fun ⟨hlow, hi, hnode⟩ => ?_⟩
      obtain ⟨_, rfl⟩ := Array.getElem?_eq_some_iff.mp hnode
      refine ⟨Nat.lt_of_not_le fun hle => ?_, hi, hnode⟩
      exact Nat.not_lt.mpr (s.getElem_le hle hsize) hbelow
    · next hcompare =>
      have heq := Nat.compare_eq_eq.mp hcompare
      exact iff_of_true rfl
        ⟨_, Nat.le_add_right .., hmiddle, by rw [Array.getElem?_eq_getElem hsize, heq]⟩
    · next hcompare =>
      have habove := Nat.compare_eq_gt.mp hcompare
      rw [find_iff s node (Nat.le_of_lt hsize)]
      refine exists_congr fun i => and_congr_right fun hlow =>
        ⟨fun ⟨hi, hnode⟩ => ⟨by omega, hnode⟩, fun ⟨hi, hnode⟩ => ⟨?_, hnode⟩⟩
      obtain ⟨hplace, rfl⟩ := Array.getElem?_eq_some_iff.mp hnode
      exact Nat.lt_of_not_le fun hle => Nat.not_lt.mpr (s.getElem_le hle hplace) habove
  · next hnone =>
    refine iff_of_false Bool.false_ne_true ?_
    rintro ⟨i, hlow, hhigh, -⟩
    omega
termination_by high - low

/-- A set contains its nodes and no others. -/
theorem contains_iff {s : NodeSet} {node : Nat} : s.contains node = true ↔ node ∈ s.toList := by
  rw [contains, find_iff s node (Nat.le_refl _), toList, Array.mem_toList_iff,
    Array.mem_iff_getElem?]
  refine exists_congr fun i => ⟨fun ⟨_, _, hnode⟩ => hnode, fun hnode => ?_⟩
  exact ⟨Nat.zero_le _, (Array.getElem?_eq_some_iff.mp hnode).1, hnode⟩

end NodeSet

end PagedGraph
