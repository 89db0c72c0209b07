/-!
# Ascending lists

Targets are read in ascending order, so a bound cuts a list of them in two, and the
first of them is the least.  A strictly ascending list is known by its members
(`eq_of_ascending`).
-/

namespace PagedGraph

/-- Passing the front of an ascending list up to a bound leaves what is above. -/
theorem dropWhile_le_eq_filter {ts : List Nat} (h : ts.Pairwise (· ≤ ·)) (bound : Nat) :
    ts.dropWhile (· ≤ bound) = ts.filter (bound < ·) := by
  induction ts with
  | nil => rfl
  | cons t ts ih =>
    obtain ⟨hle, hts⟩ := List.pairwise_cons.mp h
    by_cases ht : t ≤ bound
    · rw [List.dropWhile_cons_of_pos (by simpa using ht), ih hts,
        List.filter_cons_of_neg (by simpa using ht)]
    · have hall : ∀ u ∈ ts, bound < u := fun u hu =>
        Nat.lt_of_lt_of_le (Nat.lt_of_not_le ht) (hle u hu)
      rw [List.dropWhile_cons_of_neg (by simpa using ht),
        List.filter_cons_of_pos (by simpa using ht),
        List.filter_eq_self.mpr fun u hu => decide_eq_true (hall u hu)]

/-- Passing the front of an ascending list below a bound leaves the rest. -/
theorem dropWhile_lt_eq_filter {ts : List Nat} (h : ts.Pairwise (· ≤ ·)) (bound : Nat) :
    ts.dropWhile (· < bound) = ts.filter (bound ≤ ·) := by
  cases bound with
  | zero =>
    rw [List.filter_eq_self.mpr fun _ _ => decide_eq_true (Nat.zero_le _)]
    cases ts <;> simp
  | succ bound => simpa [Nat.lt_succ_iff, Nat.succ_le_iff] using dropWhile_le_eq_filter h bound

/-- What is behind the head of an ascending list is not less. -/
theorem head?_le {ts : List Nat} (h : ts.Pairwise (· ≤ ·)) {t u : Nat} (ht : ts.head? = some t)
    (hu : u ∈ ts) : t ≤ u := by
  cases ts with
  | nil => cases hu
  | cons v ts =>
    cases ht
    rcases List.mem_cons.mp hu with rfl | hu
    · exact Nat.le_refl _
    · exact (List.pairwise_cons.mp h).1 u hu

/-- An ascending list starts with the least of its targets. -/
theorem head?_eq_some_of_least {ts : List Nat} (h : ts.Pairwise (· ≤ ·)) {t : Nat} (ht : t ∈ ts)
    (hleast : ∀ u ∈ ts, t ≤ u) : ts.head? = some t := by
  cases ts with
  | nil => cases ht
  | cons v ts =>
    have hvt : v ≤ t := head?_le h rfl ht
    have htv : t ≤ v := hleast v (List.mem_cons_self ..)
    rw [List.head?_cons, Nat.le_antisymm hvt htv]

/-- Numbers of a strictly ascending list are all different. -/
theorem nodup_of_ascending {ts : List Nat} (h : ts.Pairwise (· < ·)) : ts.Nodup :=
  h.imp fun hlt => Nat.ne_of_lt hlt

/-- Two strictly ascending lists with the same members are equal. -/
theorem eq_of_ascending {xs ys : List Nat} (hxs : xs.Pairwise (· < ·)) (hys : ys.Pairwise (· < ·))
    (h : ∀ t, t ∈ xs ↔ t ∈ ys) : xs = ys := by
  have hperm := (List.perm_ext_iff_of_nodup (nodup_of_ascending hxs) (nodup_of_ascending hys)).mpr h
  exact hperm.eq_of_pairwise (fun a b _ _ hab hba => absurd hab (Nat.lt_asymm hba)) hxs hys

/-- Two ascending lists of the same targets are equal. -/
theorem eq_of_perm {xs ys : List Nat} (hxs : xs.Pairwise (· ≤ ·)) (hys : ys.Pairwise (· ≤ ·))
    (h : xs.Perm ys) : xs = ys :=
  h.eq_of_pairwise (fun _ _ _ _ => Nat.le_antisymm) hxs hys

theorem ascending_of_nodup {xs : List Nat} (h : xs.Pairwise (· ≤ ·)) (hnodup : xs.Nodup) :
    xs.Pairwise (· < ·) :=
  (List.pairwise_and_iff.mpr ⟨h, hnodup⟩).imp fun hab => Nat.lt_of_le_of_ne hab.1 hab.2

theorem pairwise_mergeSort (xs : List Nat) : (xs.mergeSort (· ≤ ·)).Pairwise (· ≤ ·) := by
  refine (List.pairwise_mergeSort (fun a b c hab hbc => ?_) (fun a b => ?_) xs).imp
    fun hab => of_decide_eq_true hab
  · exact decide_eq_true (Nat.le_trans (of_decide_eq_true hab) (of_decide_eq_true hbc))
  · simpa using Nat.le_total a b

/-- Sorting a list in another order gives the same. -/
theorem mergeSort_eq_of_perm {xs ys : List Nat} (h : xs.Perm ys) :
    xs.mergeSort (· ≤ ·) = ys.mergeSort (· ≤ ·) :=
  eq_of_perm (pairwise_mergeSort xs) (pairwise_mergeSort ys)
    ((List.mergeSort_perm ..).trans (h.trans (List.mergeSort_perm ..).symm))

end PagedGraph
