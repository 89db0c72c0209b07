import PagedGraph.Proofs.Similarity.Profile
import PagedGraph.Proofs.Work.CountingSort
import PagedGraph.Similarity.PackedIndex

/-!
# The packed index lists the holders

Built from profiles without repetitions, the packed index lists for every node the same
holders as `CandidateIndex` (`PackedIndex.holdersAbove_eq`).  The holders of a node lie together
and ascending, as counting sort puts them.  Bisection parts an ascending piece of an array
(`firstAbove_spec`).
-/

namespace PagedGraph

/-! ## Bisection -/

/-- Bisection parts an ascending piece of an array. -/
theorem firstAbove_spec (items : Array Nat) (bound first last : Nat) (hle : first ≤ last)
    (hitems : ∀ i j, first ≤ i → i ≤ j → j < last → items.getD i 0 ≤ items.getD j 0) :
    first ≤ firstAbove items bound first last ∧ firstAbove items bound first last ≤ last ∧
      (∀ i, first ≤ i → i < firstAbove items bound first last → items.getD i 0 ≤ bound) ∧
      ∀ i, firstAbove items bound first last ≤ i → i < last → bound < items.getD i 0 := by
  fun_induction firstAbove items bound first last with
  | case1 first last hlt hmiddle ih =>
    obtain ⟨hfirst, hlast, hbelow, habove⟩ :=
      ih (by omega) fun i j hi hij hj => hitems i j (by omega) hij hj
    refine ⟨by omega, hlast, fun i hi hir => ?_, habove⟩
    by_cases hpassed : i ≤ (first + last) / 2
    · exact Nat.le_trans (hitems i _ hi hpassed (by omega)) hmiddle
    · exact hbelow i (by omega) hir
  | case2 first last hlt hmiddle ih =>
    obtain ⟨hfirst, hlast, hbelow, habove⟩ :=
      ih (by omega) fun i j hi hij hj => hitems i j hi hij (by omega)
    refine ⟨hfirst, by omega, hbelow, fun i hri hi => ?_⟩
    by_cases hpassed : i < (first + last) / 2
    · exact habove i hri hpassed
    · exact Nat.lt_of_lt_of_le (Nat.not_le.mp hmiddle) (hitems _ i (by omega) (by omega) hi)
  | case3 first last hnlt =>
    exact ⟨Nat.le_refl _, hle, fun i hi hir => by omega, fun i hri hi => by omega⟩

/-- What is left of a list behind the items that fail a test, when all others pass it. -/
theorem drop_eq_filter {p : Nat → Bool} {xs : List Nat} {k : Nat}
    (hbelow : ∀ i (h : i < xs.length), i < k → p xs[i] = false)
    (habove : ∀ i (h : i < xs.length), k ≤ i → p xs[i] = true) : xs.drop k = xs.filter p := by
  have htake : (xs.take k).filter p = [] := by
    refine List.filter_eq_nil_iff.mpr fun x hx => ?_
    obtain ⟨i, hi, rfl⟩ := List.mem_take_iff_getElem.mp hx
    exact Bool.eq_false_iff.mp (hbelow i (by omega) (by omega))
  have hdrop : (xs.drop k).filter p = xs.drop k := by
    refine List.filter_eq_self.mpr fun x hx => ?_
    obtain ⟨i, hi, rfl⟩ := List.mem_drop_iff_getElem.mp hx
    exact habove _ _ (by omega)
  calc xs.drop k
    _ = (xs.take k).filter p ++ (xs.drop k).filter p := by rw [htake, hdrop, List.nil_append]
    _ = (xs.take k ++ xs.drop k).filter p := (List.filter_append ..).symm
    _ = xs.filter p := by rw [List.take_append_drop]

/-- An ascending list lies in a piece of an array.  Of this piece bisection finds what is above a
bound. -/
theorem extract_firstAbove {items : Array Nat} {start : Nat} {xs : List Nat}
    (hget : ∀ {i}, i < xs.length → items[start + i]? = xs[i]?) (hxs : xs.Pairwise (· < ·))
    (bound : Nat) :
    (items.extract (firstAbove items bound start (start + xs.length))
      (start + xs.length)).toList = xs.filter (bound < ·) := by
  have hgetD : ∀ i (h : i < xs.length), items.getD (start + i) 0 = xs[i] := by
    intro i h
    rw [Array.getD_eq_getD_getElem?, hget h, List.getElem?_eq_getElem h, Option.getD_some]
  have hpiece : (items.toList.drop start).take xs.length = xs := by
    have hextract := toList_extract_eq fun i hi => hget (i := i) hi
    rwa [Array.toList_extract, List.extract_eq_take_drop, Nat.add_sub_cancel_left] at hextract
  obtain ⟨hfirst, hlast, hbelow, habove⟩ :=
    firstAbove_spec items bound start (start + xs.length) (Nat.le_add_right ..) (by
      intro i j hi hij hj
      obtain ⟨i, rfl⟩ := Nat.exists_eq_add_of_le hi
      obtain ⟨j, rfl⟩ := Nat.exists_eq_add_of_le (Nat.le_trans hi hij)
      rw [hgetD i (by omega), hgetD j (by omega)]
      rcases Nat.lt_or_eq_of_le (Nat.le_of_add_le_add_left hij) with hlt | rfl
      · exact Nat.le_of_lt (List.pairwise_iff_getElem.mp hxs i j _ _ hlt)
      · exact Nat.le_refl _)
  obtain ⟨k, hk⟩ := Nat.exists_eq_add_of_le hfirst
  rw [hk] at hlast hbelow habove ⊢
  have hdrop : xs.drop k = xs.filter (bound < ·) := by
    refine drop_eq_filter (fun i h hik => ?_) fun i h hki => ?_
    · rw [← hgetD i h]
      exact decide_eq_false (Nat.not_lt.mpr (hbelow _ (Nat.le_add_right ..) (by omega)))
    · rw [← hgetD i h]
      exact decide_eq_true (habove _ (by omega) (by omega))
  rw [Array.toList_extract, List.extract_eq_take_drop, ← hdrop]
  conv_rhs => rw [← hpiece]
  rw [List.drop_take, List.drop_drop, Nat.add_sub_add_left]

namespace PackedIndex

variable {profiles : Profiles} {t : Nat} (hnodup : ∀ node, (profileIn profiles node).Nodup)
  (hbounded : ∀ node, ∀ t ∈ profileIn profiles node, t < profiles.size)

include hnodup hbounded

/-- The packed index lists the holders of a node that are above another. -/
theorem holdersAbove_eq (ht : t < profiles.size) (node : Nat) :
    (ofProfiles profiles).holdersAbove t node =
      (List.range profiles.size).filter fun other =>
        node < other ∧ t ∈ profileIn profiles other := by
  have hget := @KeyGroups.getElem?_items _ profiles.size _ _ hnodup
    (fun other _ => hbounded other) ht
  have hstart : (ofProfiles profiles).offsets.getD t 0 =
      itemStart (profileIn profiles) profiles.size t :=
    KeyGroups.getD_startsOf hnodup (Nat.le_of_lt ht)
  have hstop : (ofProfiles profiles).offsets.getD (t + 1) 0 =
      itemStart (profileIn profiles) profiles.size t +
        (itemsAmong (profileIn profiles) profiles.size t).length := by
    rw [← itemStart_succ]
    exact KeyGroups.getD_startsOf hnodup ht
  have hfilter : (List.range profiles.size).filter (fun other => node < other ∧
      t ∈ profileIn profiles other) =
        (itemsAmong (profileIn profiles) profiles.size t).filter (node < ·) := by
    rw [itemsAmong, List.filter_filter]
    exact List.filter_congr fun other _ => by simp
  rw [holdersAbove, hstart, hstop, hfilter]
  exact extract_firstAbove (fun hi => hget _ hi) (pairwise_itemsAmong ..) node

end PackedIndex

end PagedGraph
