import Mathlib.Data.List.TakeWhile
import PagedGraph.Cursor.Through
import PagedGraph.Proofs.Cursor.Basic
import PagedGraph.Proofs.Numbering.Filter

/-!
# Reading through a node filter

A cursor read through a filter stands for the new ids of the targets that pass, out of
those the cursor below stands for (`Cursor.PassedBy`).  If the cursor below walks along its
lists, the filtered one walks along these (`Cursor.Walks.through`).  It looks for a target to
learn whether one is left, so what it answers is right if the count below is a bound
(`Cursor.Follows.through`).

A search for a new id is a search for its old id below.  A bound that is no new id is
above all of them, so nothing is left of the list.
-/

namespace PagedGraph

namespace Cursor

variable {σ : Type} {c : Cursor σ} {R : σ → List Nat → Prop} (filter : NodeFilter)

/-- A state stands for the new ids of the targets it stands for below. -/
def PassedBy (R : σ → List Nat → Prop) (s : σ) (ts : List Nat) : Prop :=
  ∃ olds, R s olds ∧ ts = olds.filterMap filter.newOf?

/-- Stepping from a found target gives the first that passes. -/
theorem Walks.firstPassing_spec (h : c.Walks R) (olds : List Nat) :
    ∀ (fuel : Nat) (found : Option Nat × σ), olds.length ≤ fuel → found.1 = olds.head? →
      R found.2 olds.tail →
      (c.firstPassing filter fuel found).1 = (olds.filterMap filter.newOf?).head? ∧
        PassedBy filter R (c.firstPassing filter fuel found).2
          (olds.filterMap filter.newOf?).tail := by
  induction olds with
  | nil =>
    rintro fuel ⟨found, s⟩ - hfound hs
    cases hfound
    rw [firstPassing]
    exact ⟨rfl, [], hs, rfl⟩
  | cons old olds ih =>
    rintro fuel ⟨found, s⟩ hfuel hfound hs
    cases hfound
    cases fuel with
    | zero => cases hfuel
    | succ fuel =>
      cases hnew : filter.newOf? old with
      | some new =>
        rw [List.filterMap_cons_some hnew, firstPassing.eq_2 _ _ _ _ _ _ hnew]
        exact ⟨rfl, olds, hs, rfl⟩
      | none =>
        obtain ⟨hhead, hrest⟩ := h.next hs
        rw [List.filterMap_cons_none hnew]
        simp only [firstPassing, hnew]
        exact ih fuel _ (Nat.le_of_succ_le_succ hfuel) hhead hrest

/-- A search below, continued to the first target that passes. -/
theorem Walks.passing_spec (h : c.Walks R) {olds : List Nat} {found : Option Nat × σ}
    (hfound : found.1 = olds.head?) (hs : R found.2 olds.tail) :
    (c.passing filter found).1 = (olds.filterMap filter.newOf?).head? ∧
      PassedBy filter R (c.passing filter found).2 (olds.filterMap filter.newOf?).tail := by
  refine h.firstPassing_spec filter olds _ found ?_ hfound hs
  have hle := h.left hs
  rw [List.length_tail] at hle
  omega

theorem Walks.nextThrough_spec (h : c.Walks R) {s : σ} {ts : List Nat}
    (hs : PassedBy filter R s ts) : (c.nextThrough filter s).1 = ts.head? ∧
      PassedBy filter R (c.nextThrough filter s).2 ts.tail := by
  obtain ⟨olds, holds, rfl⟩ := hs
  obtain ⟨hhead, hrest⟩ := h.next holds
  exact h.passing_spec filter hhead hrest

/-- Running to the end leaves nothing of the targets below a bound that is no new id. -/
theorem Walks.drain_spec (h : c.Walks R) {s : σ} {ts : List Nat} (hs : PassedBy filter R s ts)
    {bound : Nat} (hbound : filter.oldOf? bound = none) {behind : Nat → Bool}
    (hbehind : ∀ t, t < bound → behind t = true) :
    (c.drain s).1 = (ts.dropWhile behind).head? ∧
      PassedBy filter R (c.drain s).2 (ts.dropWhile behind).tail := by
  obtain ⟨olds, holds, rfl⟩ := hs
  have hend : (olds.filterMap filter.newOf?).dropWhile behind = [] := by
    refine List.dropWhile_eq_nil_iff.mpr fun t ht => hbehind t ?_
    obtain ⟨old, -, hnew⟩ := List.mem_filterMap.mp ht
    have hcount : filter.nodeCount ≤ bound := Array.getElem?_eq_none_iff.mp hbound
    exact Nat.lt_of_lt_of_le (NodeFilter.lt_of_newOf? hnew) hcount
  rw [hend]
  exact ⟨rfl, [], (h.collect_eq holds).2, rfl⟩

/-- A cursor through a filter walks along the new ids of the targets that pass. -/
theorem Walks.through (h : c.Walks R) : (c.through filter).Walks (PassedBy filter R) where
  ascending := by
    rintro s ts ⟨olds, holds, rfl⟩
    exact NodeFilter.pairwise_filterMap_newOf? (h.ascending holds)
  next := h.nextThrough_spec filter
  peek hs := (h.nextThrough_spec filter hs).1
  left := by
    rintro s ts ⟨olds, holds, rfl⟩
    exact Nat.le_trans (List.length_filterMap_le ..) (h.left holds)
  seekAbove bound {s ts} hs := by
    simp only [Cursor.through]
    cases hroot : filter.oldOf? bound with
    | none => exact h.drain_spec filter hs hroot fun t ht => decide_eq_true (Nat.le_of_lt ht)
    | some root =>
      obtain ⟨olds, holds, rfl⟩ := hs
      have hascending := h.ascending holds
      obtain ⟨hhead, hrest⟩ := h.seekAbove root holds
      have hspec := h.passing_spec filter hhead hrest
      rw [dropWhile_le_eq_filter hascending, NodeFilter.filterMap_newOf?_filter fun hnew =>
          decide_eq_decide.mpr
            (NodeFilter.newOf?_lt_iff (filter.newOf?_eq_some_iff.mpr hroot) hnew).symm,
        ← dropWhile_le_eq_filter (NodeFilter.pairwise_filterMap_newOf? hascending)] at hspec
      exact hspec
  seekFrom bound {s ts} hs := by
    simp only [Cursor.through]
    cases hroot : filter.oldOf? bound with
    | none => exact h.drain_spec filter hs hroot fun t ht => decide_eq_true ht
    | some root =>
      obtain ⟨olds, holds, rfl⟩ := hs
      have hascending := h.ascending holds
      obtain ⟨hhead, hrest⟩ := h.seekFrom root holds
      have hspec := h.passing_spec filter hhead hrest
      rw [dropWhile_lt_eq_filter hascending, NodeFilter.filterMap_newOf?_filter fun hnew =>
          decide_eq_decide.mpr
            (NodeFilter.newOf?_le_iff (filter.newOf?_eq_some_iff.mpr hroot) hnew).symm,
        ← dropWhile_lt_eq_filter (NodeFilter.pairwise_filterMap_newOf? hascending)] at hspec
      exact hspec

/-- A cursor through a filter follows the new ids of the targets that pass. -/
theorem Follows.through (h : c.Follows R) : (c.through filter).Follows (PassedBy filter R) where
  toWalks := h.toWalks.through filter
  remaining := by
    rintro s ts ⟨olds, holds, rfl⟩
    exact Nat.le_trans (List.length_filterMap_le ..) (h.remaining holds)
  hasNext {s ts} hs := by
    simp only [Cursor.through, (h.nextThrough_spec filter hs).1]
    cases ts <;> rfl

end Cursor

end PagedGraph
