import PagedGraph.Numbering.Filter

/-!
# Node filters as order isomorphisms

The two directions of a `NodeFilter` are inverse to each other and keep the order of
nodes, so a list of targets stays ascending when it is renumbered, and a bound on new
ids is a bound on old ids.
-/

namespace PagedGraph

namespace NodeFilter

variable (f : NodeFilter)

/-- The new id of a node is one whose old id that node is. -/
theorem newOf?_eq_some_iff {old new : Nat} : f.newOf? old = some new ↔ f.oldOf? new = some old := by
  rw [newOf?, f.newIds_get?, oldOf?, List.idxOf?_eq_some_iff]
  constructor
  · rintro ⟨hlt, heq, _⟩
    have hlt' : new < f.oldIds.size := by simpa using hlt
    rw [Array.getElem?_eq_getElem hlt']
    simpa using heq
  · intro h
    obtain ⟨hlt, heq⟩ := Array.getElem?_eq_some_iff.mp h
    have hlt' : new < f.oldIds.toList.length := by simpa using hlt
    refine ⟨hlt', by simpa using heq, fun j hj he => ?_⟩
    have hold := List.pairwise_iff_getElem.mp f.ascending j new (Nat.lt_trans hj hlt') hlt' hj
    simp only [Array.getElem_toList] at hold he
    omega

variable {f}

/-- A new id is below the number of selected nodes. -/
theorem lt_of_oldOf? {old new : Nat} (h : f.oldOf? new = some old) : new < f.nodeCount :=
  (Array.getElem?_eq_some_iff.mp h).1

theorem lt_of_newOf? {old new : Nat} (h : f.newOf? old = some new) : new < f.nodeCount :=
  lt_of_oldOf? ((f.newOf?_eq_some_iff).mp h)

/-- Every number below the number of selected nodes is a new id. -/
theorem exists_oldOf? {new : Nat} (h : new < f.nodeCount) : ∃ old, f.oldOf? new = some old :=
  ⟨f.oldIds[new], Array.getElem?_eq_getElem h⟩

/-- Selected nodes keep their order. -/
theorem oldOf?_lt {new new' old old' : Nat} (h : f.oldOf? new = some old)
    (h' : f.oldOf? new' = some old') (hlt : new < new') : old < old' := by
  obtain ⟨hn, rfl⟩ := Array.getElem?_eq_some_iff.mp h
  obtain ⟨hn', rfl⟩ := Array.getElem?_eq_some_iff.mp h'
  have hpair := List.pairwise_iff_getElem.mp f.ascending new new' (by simpa using hn)
    (by simpa using hn') hlt
  simpa using hpair

theorem oldOf?_lt_iff {new new' old old' : Nat} (h : f.oldOf? new = some old)
    (h' : f.oldOf? new' = some old') : old < old' ↔ new < new' := by
  constructor
  · intro hlt
    rcases Nat.lt_trichotomy new new' with hnew | rfl | hnew
    · exact hnew
    · rw [h] at h'
      cases h'
      exact absurd hlt (Nat.lt_irrefl _)
    · exact absurd hlt (Nat.lt_asymm (oldOf?_lt h' h hnew))
  · exact oldOf?_lt h h'

theorem newOf?_lt_iff {old old' new new' : Nat} (h : f.newOf? old = some new)
    (h' : f.newOf? old' = some new') : new < new' ↔ old < old' :=
  (oldOf?_lt_iff ((f.newOf?_eq_some_iff).mp h) ((f.newOf?_eq_some_iff).mp h')).symm

theorem newOf?_le_iff {old old' new new' : Nat} (h : f.newOf? old = some new)
    (h' : f.newOf? old' = some new') : new ≤ new' ↔ old ≤ old' := by
  rw [← Nat.not_lt, ← Nat.not_lt, newOf?_lt_iff h' h]

/-- Different nodes have different new ids. -/
theorem newOf?_inj {old old' new : Nat} (h : f.newOf? old = some new)
    (h' : f.newOf? old' = some new) : old = old' := by
  rw [newOf?_eq_some_iff] at h h'
  exact Option.some.inj (h.symm.trans h')

/-- Renumbering keeps a list of targets ascending. -/
theorem pairwise_filterMap_newOf? {olds : List Nat} (h : olds.Pairwise (· ≤ ·)) :
    (olds.filterMap f.newOf?).Pairwise (· ≤ ·) :=
  List.pairwise_filterMap.mpr
    (h.imp fun hle _ hnew _ hnew' => (newOf?_le_iff hnew hnew').mpr hle)

/-- A test of old ids that is a test of their new ids may be made on either. -/
theorem filterMap_newOf?_filter {p q : Nat → Bool}
    (h : ∀ {old new}, f.newOf? old = some new → p old = q new) (olds : List Nat) :
    (olds.filter p).filterMap f.newOf? = (olds.filterMap f.newOf?).filter q := by
  induction olds with
  | nil => rfl
  | cons old olds ih =>
    cases hnew : f.newOf? old with
    | none =>
      rw [List.filterMap_cons_none hnew, List.filter_cons, ← ih]
      split
      · exact List.filterMap_cons_none hnew
      · rfl
    | some new =>
      rw [List.filterMap_cons_some hnew, List.filter_cons, List.filter_cons, h hnew, ← ih]
      split
      · exact List.filterMap_cons_some hnew
      · rfl

end NodeFilter

end PagedGraph
