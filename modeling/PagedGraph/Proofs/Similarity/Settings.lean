import PagedGraph.Similarity.Settings

/-!
# What settings ask for

A bound is told by a number from the top of the ranking or by one from its bottom.
`Bound.Given` says which bound two such numbers stand for, a case for every way to tell one.
Settings that are accepted tell one bound for every node and one for all rows
(`SimilaritySettings.declares_bounds`), and no others (`SimilaritySettings.Declares.eq`).
-/

namespace PagedGraph

/-! ## Bounds -/

/-- The bound that a number from the top and a number from the bottom stand for. -/
inductive Bound.Given (top bottom : Option Int) (silent : Bound) : Bound → Prop where
  /-- A positive number from the top keeps that many of the highest. -/
  | highest {n : Nat} (hn : 0 < n) (h : top = some (n : Int)) :
    Given top bottom silent (.limited n .highest)
  /-- A negative number from the top keeps that many of the lowest. -/
  | negative {n : Nat} (hn : 0 < n) (h : top = some (-n : Int)) :
    Given top bottom silent (.limited n .lowest)
  /-- A positive number from the bottom keeps that many of the lowest. -/
  | lowest {n : Nat} (hn : 0 < n) (h : bottom = some (n : Int)) :
    Given top bottom silent (.limited n .lowest)
  /-- Zero from the top lifts the bound. -/
  | lifted (h : top = some 0) : Given top bottom silent .unbounded
  /-- Where neither is given there is a bound all the same, or none. -/
  | silent (htop : top = none) (hbottom : bottom = none) : Given top bottom silent silent

variable {top bottom : Option Int} {silent : Bound}

theorem Bound.given_fromTop (n : Int) : Given (some n) bottom silent (fromTop n) := by
  rw [fromTop]
  rcases Int.lt_trichotomy n 0 with hlt | rfl | hgt
  · rw [if_neg (Int.ne_of_lt hlt), if_pos hlt]
    exact .negative (by omega) (congrArg some (by omega))
  · exact .lifted rfl
  · rw [if_neg (Int.ne_of_gt hgt), if_neg (Int.not_lt.mpr (Int.le_of_lt hgt))]
    exact .highest (by omega) (congrArg some (by omega))

/-- If at most one number is given, and from the bottom only a positive one, the bound that is
chosen is the one that they stand for. -/
theorem Bound.given_choose (hone : top = none ∨ bottom = none) (hpos : ∀ n ∈ bottom, 0 < n) :
    Given top bottom silent (choose top bottom silent) := by
  cases bottom with
  | some n =>
    have hn : 0 < n := hpos n rfl
    exact .lowest (n := n.toNat) (by omega) (congrArg some (by omega))
  | none =>
    cases top with
    | some n => exact given_fromTop n
    | none => exact .silent rfl rfl

/-- Where at most one number is given, it stands for no other bound than the chosen one. -/
theorem Bound.Given.eq_choose (hone : top = none ∨ bottom = none) {b : Bound}
    (h : Given top bottom silent b) : b = choose top bottom silent := by
  cases h with
  | @highest n hn h =>
    obtain rfl : bottom = none := hone.resolve_left (by simp [h])
    rw [h, choose, fromTop, if_neg (by omega), if_neg (by omega), Int.natAbs_natCast]
  | @negative n hn h =>
    obtain rfl : bottom = none := hone.resolve_left (by simp [h])
    rw [h, choose, fromTop, if_neg (by omega), if_pos (by omega), Int.natAbs_neg,
      Int.natAbs_natCast]
  | @lowest n hn h => rw [h, choose, Int.toNat_natCast]
  | lifted h =>
    obtain rfl : bottom = none := hone.resolve_left (by simp [h])
    rw [h, choose, fromTop, if_pos rfl]
  | silent htop hbottom => rw [htop, hbottom, choose]

/-! ## Settings -/

namespace SimilaritySettings

variable {c : SimilaritySettings}

/-- The bounds that some settings ask for: for every node, where ten neighbors are kept if nothing
is said, and for all rows. -/
structure Declares (c : SimilaritySettings) (kBound nBound : Bound) : Prop where
  k : Bound.Given c.topK c.bottomK (.limited 10 .highest) kBound
  n : Bound.Given c.topN c.bottomN .unbounded nBound

/-- What accepted settings do not say. -/
structure Accepted (c : SimilaritySettings) : Prop where
  workers : 0 < c.workers
  k : c.topK = none ∨ c.bottomK = none
  n : c.topN = none ∨ c.bottomN = none
  bottomK : ∀ n ∈ c.bottomK, 0 < n
  bottomN : ∀ n ∈ c.bottomN, 0 < n

theorem accepted_of_validate (h : c.validate = .ok ()) : c.Accepted := by
  have hnone : c.fault? = none := by
    rw [validate] at h
    split at h
    · cases h
    · assumption
  have hone : ∀ {top bottom : Option Int}, (top.isSome && bottom.isSome) = false →
      top = none ∨ bottom = none := by
    intro top bottom h
    cases top <;> cases bottom <;> simp_all
  have hpos : ∀ {bottom : Option Int}, bottom.any (· ≤ 0) = false → ∀ n ∈ bottom, 0 < n := by
    rintro bottom h n rfl
    simpa using h
  rw [fault?] at hnone
  split at hnone
  · cases hnone
  split at hnone
  · cases hnone
  split at hnone
  · cases hnone
  split at hnone
  · cases hnone
  split at hnone
  · cases hnone
  · next hworkers hk hn hbottomK hbottomN =>
    exact ⟨Nat.pos_of_ne_zero hworkers, hone (Bool.eq_false_iff.mpr hk),
      hone (Bool.eq_false_iff.mpr hn), hpos (Bool.eq_false_iff.mpr hbottomK),
      hpos (Bool.eq_false_iff.mpr hbottomN)⟩

/-- The bounds of a run are those that its settings ask for. -/
theorem declares_bounds (h : c.validate = .ok ()) : c.Declares c.kBound c.nBound where
  k := Bound.given_choose (accepted_of_validate h).k (accepted_of_validate h).bottomK
  n := Bound.given_choose (accepted_of_validate h).n (accepted_of_validate h).bottomN

/-- Accepted settings ask for no other bounds. -/
theorem Declares.eq (hc : c.validate = .ok ()) {k n : Bound} (h : c.Declares k n) :
    k = c.kBound ∧ n = c.nBound :=
  ⟨h.k.eq_choose (accepted_of_validate hc).k, h.n.eq_choose (accepted_of_validate hc).n⟩

end SimilaritySettings

end PagedGraph
