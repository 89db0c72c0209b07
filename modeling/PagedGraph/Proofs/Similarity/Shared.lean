import Mathlib.Data.Finset.Card
import PagedGraph.Number.Ascending
import PagedGraph.Similarity.Profile

/-!
# Profiles as sets

Strictly ascending lists stand for finite sets.  What two of them share is counted by
walking along both at once (`sharedCount_eq_card`), and an ascending list becomes strictly
ascending by passing what stands in front of its like (`pairwise_distinctSorted`,
`mem_distinctSorted`).
-/

namespace PagedGraph

/-! ## Counting what is shared -/

/-- Walking along two strictly ascending lists counts what they share. -/
theorem addShared_eq (count : Nat) (xs ys : List Nat) (hxs : xs.Pairwise (· < ·))
    (hys : ys.Pairwise (· < ·)) :
    addShared count xs ys = count + (xs.filter fun x => x ∈ ys).length := by
  fun_induction addShared count xs ys with
  | case1 count ys => rfl
  | case2 count x xs => simp
  | case3 count x xs y ys hlt ih =>
    obtain ⟨hy, -⟩ := List.pairwise_cons.mp hys
    have hx : x ∉ y :: ys := by
      intro hmem
      rcases List.mem_cons.mp hmem with rfl | hmem
      · exact Nat.lt_irrefl _ hlt
      · exact Nat.lt_asymm hlt (hy x hmem)
    rw [ih (List.pairwise_cons.mp hxs).2 hys, List.filter_cons_of_neg (by simpa using hx)]
  | case4 count x xs y ys hnlt hlt ih =>
    obtain ⟨hx, -⟩ := List.pairwise_cons.mp hxs
    have hfilter : (x :: xs).filter (· ∈ ys) = (x :: xs).filter (· ∈ y :: ys) := by
      refine List.filter_congr fun z hz => ?_
      have hne : z ≠ y := by
        rcases List.mem_cons.mp hz with rfl | hz
        · exact Nat.ne_of_gt hlt
        · exact Nat.ne_of_gt (Nat.lt_trans hlt (hx z hz))
      simp [hne]
    rw [ih hxs (List.pairwise_cons.mp hys).2, hfilter]
  | case5 count x xs y ys hnlt hngt ih =>
    obtain rfl : x = y := Nat.le_antisymm (Nat.not_lt.mp hngt) (Nat.not_lt.mp hnlt)
    obtain ⟨hx, hxs⟩ := List.pairwise_cons.mp hxs
    have hfilter : xs.filter (· ∈ ys) = xs.filter (· ∈ x :: ys) := by
      refine List.filter_congr fun z hz => ?_
      simp [Nat.ne_of_gt (hx z hz)]
    rw [ih hxs (List.pairwise_cons.mp hys).2, hfilter, List.filter_cons_of_pos (by simp),
      List.length_cons, Nat.add_assoc, Nat.add_comm 1]

theorem card_toFinset {xs : List Nat} (h : xs.Pairwise (· < ·)) : xs.toFinset.card = xs.length :=
  List.toFinset_card_of_nodup (nodup_of_ascending h)

/-- What two strictly ascending lists share are the common members. -/
theorem sharedCount_eq_card {xs ys : List Nat} (hxs : xs.Pairwise (· < ·))
    (hys : ys.Pairwise (· < ·)) :
    sharedCount xs ys = (xs.toFinset ∩ ys.toFinset).card := by
  have hinter : xs.toFinset ∩ ys.toFinset = (xs.filter fun x => x ∈ ys).toFinset := by
    ext x
    simp
  rw [sharedCount, addShared_eq 0 xs ys hxs hys, Nat.zero_add, hinter, card_toFinset (hxs.filter _)]

/-! ## Passing repetitions -/

/-- An item that is passed is there already. -/
theorem mem_unlessHead {seen : List Nat} {x t : Nat} :
    t ∈ (if seen.head? = some x then seen else x :: seen) ↔ t ∈ seen ∨ t = x := by
  split
  case isTrue hhead =>
    have hx : x ∈ seen := List.mem_of_mem_head? hhead
    constructor
    · exact Or.inl
    · rintro (ht | rfl)
      · exact ht
      · exact hx
  case isFalse => rw [List.mem_cons, or_comm]

/-- An item that is not passed is above all that is there. -/
theorem pairwise_unlessHead {seen : List Nat} {x : Nat} (hseen : seen.Pairwise (· > ·))
    (hle : ∀ s ∈ seen, s ≤ x) :
    (if seen.head? = some x then seen else x :: seen).Pairwise (· > ·) := by
  split
  case isTrue => exact hseen
  case isFalse hhead =>
    refine List.pairwise_cons.mpr ⟨?_, hseen⟩
    cases seen with
    | nil => nofun
    | cons last seen =>
      have hlast : last < x :=
        Nat.lt_of_le_of_ne (hle last (List.mem_cons_self ..)) fun h => hhead (congrArg some h)
      intro s hs
      rcases List.mem_cons.mp hs with rfl | hs
      · exact hlast
      · exact Nat.lt_trans ((List.pairwise_cons.mp hseen).1 s hs) hlast

/-- What passing repetitions has collected, the last item first. -/
theorem foldl_distinct {xs : List Nat} (hxs : xs.Pairwise (· ≤ ·)) :
    ∀ {seen : List Nat}, seen.Pairwise (· > ·) → (∀ s ∈ seen, ∀ x ∈ xs, s ≤ x) →
      (xs.foldl (fun seen x => if seen.head? = some x then seen else x :: seen) seen).Pairwise
        (· > ·) ∧
      ∀ t, t ∈ xs.foldl (fun seen x => if seen.head? = some x then seen else x :: seen) seen ↔
        t ∈ seen ∨ t ∈ xs := by
  induction xs with
  | nil =>
    intro seen hseen _
    exact ⟨hseen, by simp⟩
  | cons x xs ih =>
    intro seen hseen hle
    obtain ⟨hx, hxs⟩ := List.pairwise_cons.mp hxs
    have hrest : ∀ s ∈ (if seen.head? = some x then seen else x :: seen), ∀ y ∈ xs, s ≤ y := by
      intro s hs y hy
      rcases mem_unlessHead.mp hs with hs | rfl
      · exact hle s hs y (List.mem_cons_of_mem _ hy)
      · exact hx y hy
    obtain ⟨hpair, hmem⟩ :=
      ih hxs (pairwise_unlessHead hseen fun s hs => hle s hs x (List.mem_cons_self ..)) hrest
    refine ⟨hpair, fun t => ?_⟩
    rw [List.foldl_cons, hmem, mem_unlessHead, List.mem_cons, or_assoc]

/-- Passing repetitions makes an ascending list strictly ascending. -/
theorem pairwise_distinctSorted {xs : List Nat} (h : xs.Pairwise (· ≤ ·)) :
    (distinctSorted xs).Pairwise (· < ·) := by
  rw [distinctSorted, List.pairwise_reverse]
  exact (foldl_distinct h .nil (by simp)).1

theorem mem_distinctSorted {xs : List Nat} (h : xs.Pairwise (· ≤ ·)) {t : Nat} :
    t ∈ distinctSorted xs ↔ t ∈ xs := by
  rw [distinctSorted, List.mem_reverse, (foldl_distinct h .nil (by simp)).2]
  simp

end PagedGraph
