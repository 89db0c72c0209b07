import PagedGraph.Proofs.View.Basic
import PagedGraph.Triangle.Enumerate

/-!
# Third corners

Two cursors are walked side by side.  Each stands for an ascending list whose first
target was read already (`Cursor.Ahead`).  The one that lies behind is moved to the
other's target, and a target that both have reached is passed in both.  No step loses a
target that both lists have, and each step shortens a list, so the walk reports what the
lists have in common, once each and in ascending order (`commonTargets_spec`).

For an anchor and a neighbor these are the third corners of their triangles
(`View.thirdCorners_spec`).
-/

namespace PagedGraph

/-- What was read last and the state behind it, as the targets that are left. -/
structure Cursor.Ahead {σ : Type} (R : σ → List Nat → Prop) (found : Option Nat × σ)
    (ts : List Nat) : Prop where
  head : found.1 = ts.head?
  rest : R found.2 ts.tail
  ascending : ts.Pairwise (· ≤ ·)

namespace Cursor

variable {σ : Type} {c : Cursor σ} {R : σ → List Nat → Prop} {s : σ} {ts : List Nat}

theorem Walks.ahead_next (h : c.Walks R) (hs : R s ts) : Ahead R (c.next s) ts :=
  ⟨(h.next hs).1, (h.next hs).2, h.ascending hs⟩

theorem Walks.ahead_seekAbove (h : c.Walks R) (bound : Nat) (hs : R s ts) :
    Ahead R (c.seekAbove bound s) (ts.filter (bound < ·)) := by
  have hascending := h.ascending hs
  have hseek := h.seekAbove bound hs
  rw [dropWhile_le_eq_filter hascending] at hseek
  exact ⟨hseek.1, hseek.2, hascending.filter _⟩

/-- A search from a bound on reads the targets that are not below it. -/
theorem Walks.ahead_seekFrom (h : c.Walks R) (bound : Nat) (hs : R s ts) :
    Ahead R (c.seekFrom bound s) (ts.filter (bound ≤ ·)) := by
  have hascending := h.ascending hs
  have hseek := h.seekFrom bound hs
  rw [dropWhile_lt_eq_filter hascending] at hseek
  exact ⟨hseek.1, hseek.2, hascending.filter _⟩

/-- What was read is the first of the targets. -/
theorem Ahead.exists_cons {x : Nat} (h : Ahead R (some x, s) ts) :
    ∃ rest, ts = x :: rest ∧ R s rest ∧ ∀ t ∈ rest, x ≤ t := by
  cases ts with
  | nil => exact absurd h.head (by simp)
  | cons y rest =>
    obtain rfl : x = y := by simpa using h.head
    exact ⟨rest, rfl, h.rest, (List.pairwise_cons.mp h.ascending).1⟩

theorem Ahead.eq_nil (h : Ahead R (none, s) ts) : ts = [] :=
  List.head?_eq_none_iff.mp h.head.symm

end Cursor

open Cursor

/-- The common members of two lists, of which the first starts below all of the second. -/
theorem mem_both_of_behind {x y t : Nat} {xs ys : List Nat} (hxy : x < y) (hys : ∀ u ∈ ys, y ≤ u) :
    (t ∈ xs.filter (y ≤ ·) ∧ t ∈ y :: ys) ↔ (t ∈ x :: xs ∧ t ∈ y :: ys) := by
  have hle : t ∈ y :: ys → y ≤ t := by
    intro ht
    rcases List.mem_cons.mp ht with rfl | ht
    · exact Nat.le_refl _
    · exact hys t ht
  rw [List.mem_filter, List.mem_cons (b := x)]
  constructor
  · rintro ⟨⟨hxs, -⟩, hys⟩
    exact ⟨Or.inr hxs, hys⟩
  · rintro ⟨rfl | hxs, hys⟩
    · exact absurd (hle hys) (Nat.not_le.mpr hxy)
    · exact ⟨⟨hxs, decide_eq_true (hle hys)⟩, hys⟩

/-- The common members of two lists with the same first member. -/
theorem mem_both_of_met {x t : Nat} {xs ys : List Nat} (hxs : ∀ u ∈ xs, x ≤ u)
    (hys : ∀ u ∈ ys, x ≤ u) :
    (t ∈ x :: xs ∧ t ∈ x :: ys) ↔
      t = x ∨ (t ∈ xs.filter (x < ·) ∧ t ∈ ys.filter (x < ·)) := by
  simp only [List.mem_cons, List.mem_filter, decide_eq_true_eq]
  constructor
  · rintro ⟨rfl | htx, hty⟩
    · exact Or.inl rfl
    · rcases hty with rfl | hty
      · exact Or.inl rfl
      · rcases Nat.eq_or_lt_of_le (hxs t htx) with rfl | hlt
        · exact Or.inl rfl
        · exact Or.inr ⟨⟨htx, hlt⟩, hty, hlt⟩
  · rintro (rfl | ⟨⟨htx, -⟩, hty, -⟩)
    · exact ⟨Or.inl rfl, Or.inl rfl⟩
    · exact ⟨Or.inr htx, Or.inr hty⟩

/-- Two cursors side by side report what their lists have in common, once each and in
ascending order. -/
theorem commonTargets_spec {σ : Type} {c : Cursor σ} {R : σ → List Nat → Prop} (h : c.Walks R)
    (fuel : Nat) :
    ∀ {last : Nat} {left right : Option Nat × σ} (found : List Nat) {xs ys : List Nat},
      Ahead R left xs → Ahead R right ys → xs.length + ys.length ≤ fuel →
      (∀ y ∈ ys, last < y) →
      ∃ out, commonTargets c last fuel left right found = found.reverse ++ out ∧
        out.Pairwise (· < ·) ∧ ∀ t, t ∈ out ↔ t ∈ xs ∧ t ∈ ys := by
  induction fuel with
  | zero =>
    intro last left right found xs ys _ _ hfuel _
    have hxs : xs = [] := List.length_eq_zero_iff.mp (by omega)
    rw [commonTargets, hxs]
    · exact ⟨[], (List.append_nil _).symm, .nil, by simp⟩
    · simp
  | succ fuel ih =>
    rintro last ⟨x?, s⟩ ⟨y?, u⟩ found xs ys hleft hright hfuel hlast
    cases x? with
    | none =>
      rw [hleft.eq_nil, commonTargets]
      · exact ⟨[], (List.append_nil _).symm, .nil, by simp⟩
      · simp
    | some x =>
      cases y? with
      | none =>
        rw [hright.eq_nil, commonTargets]
        · exact ⟨[], (List.append_nil _).symm, .nil, by simp⟩
        · simp
      | some y =>
        obtain ⟨xs, rfl, hs, hxs⟩ := hleft.exists_cons
        obtain ⟨ys, rfl, hu, hys⟩ := hright.exists_cons
        rw [List.length_cons, List.length_cons] at hfuel
        have hlenx := fun p : Nat → Bool => List.length_filter_le p xs
        have hleny := fun p : Nat → Bool => List.length_filter_le p ys
        rw [commonTargets]
        by_cases hxy : x < y
        · rw [if_pos hxy]
          obtain ⟨out, hout, hpair, hmem⟩ := ih found (h.ahead_seekFrom y hs) hright
            (by rw [List.length_cons]; have := hlenx (y ≤ ·); omega) hlast
          exact ⟨out, hout, hpair, fun t => (hmem t).trans (mem_both_of_behind hxy hys)⟩
        · rw [if_neg hxy]
          by_cases hyx : y < x
          · rw [if_pos hyx]
            obtain ⟨out, hout, hpair, hmem⟩ := ih found hleft (h.ahead_seekFrom x hu)
              (by rw [List.length_cons]; have := hleny (x ≤ ·); omega)
              fun t ht => hlast t (List.mem_cons_of_mem _ (List.mem_filter.mp ht).1)
            refine ⟨out, hout, hpair, fun t => (hmem t).trans ?_⟩
            rw [and_comm, mem_both_of_behind hyx hxs, and_comm]
          · obtain rfl : x = y := by omega
            have hnew : last < x := hlast x (List.mem_cons_self ..)
            rw [if_neg hyx, if_pos hnew]
            obtain ⟨out, hout, hpair, hmem⟩ := ih (x :: found) (h.ahead_seekAbove x hs)
              (h.ahead_seekAbove x hu)
              (by have := hlenx (x < ·); have := hleny (x < ·); omega)
              fun t ht => of_decide_eq_true (List.mem_filter.mp ht).2
            refine ⟨x :: out, ?_, ?_, fun t => ?_⟩
            · rw [hout, List.reverse_cons, List.append_assoc, List.singleton_append]
            · refine List.pairwise_cons.mpr ⟨fun t ht => ?_, hpair⟩
              exact of_decide_eq_true (List.mem_filter.mp ((hmem t).mp ht).1).2
            · rw [List.mem_cons, hmem, mem_both_of_met hxs hys]

namespace View

variable {v : View}

theorem mayBeCorner_iff {maxDegree node : Nat} :
    v.mayBeCorner maxDegree node = true ↔ v.degree node ≤ maxDegree :=
  decide_eq_true_iff

/-- The third corners on an anchor and a neighbor are what is left of the anchor's targets and
the neighbor's targets above itself have in common, as far as they may be corners. -/
theorem thirdCorners_spec (h : v.Sound) (maxDegree : Nat) {b : Nat} (hb : b < v.nodeCount)
    {rest : BaseCursor} {ts : List Nat} (hrest : readsThrough v.layers rest ts) :
    (thirdCorners v maxDegree b rest).Pairwise (· < ·) ∧
      ∀ t, t ∈ thirdCorners v maxDegree b rest ↔
        t ∈ ts ∧ t ∈ v.targets b ∧ b < t ∧ v.degree t ≤ maxDegree := by
  have hwalks := walks_cursor v
  obtain ⟨run, hopen, hrun⟩ := h.opens hb
  have hright := hwalks.ahead_seekAbove b hrun
  have hfuel : ts.length + ((v.targets b).filter (b < ·)).length ≤
      v.cursor.left rest + v.cursor.left run + 1 := by
    have hts := hwalks.left hrest
    have hlen := hwalks.left hrun
    have hfilter := List.length_filter_le (b < ·) (v.targets b)
    omega
  obtain ⟨out, hout, hpair, hmem⟩ :=
    commonTargets_spec hwalks _ [] (hwalks.ahead_next hrest) hright hfuel
      fun t ht => of_decide_eq_true (List.mem_filter.mp ht).2
  have hcorners : thirdCorners v maxDegree b rest = out.filter (v.mayBeCorner maxDegree) := by
    rw [thirdCorners, hopen]
    exact congrArg (List.filter _) hout
  rw [hcorners]
  refine ⟨hpair.filter _, fun t => ?_⟩
  rw [List.mem_filter, hmem, List.mem_filter, decide_eq_true_eq]
  constructor
  · rintro ⟨⟨hts, ht, hbt⟩, hcorner⟩
    exact ⟨hts, ht, hbt, mayBeCorner_iff.mp hcorner⟩
  · rintro ⟨hts, ht, hbt, hdegree⟩
    exact ⟨⟨hts, ht, hbt⟩, mayBeCorner_iff.mpr hdegree⟩

end View

end PagedGraph
