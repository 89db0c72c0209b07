import Mathlib.Data.List.Nodup
import Mathlib.Data.List.Perm.Subperm
import PagedGraph.Number.Sum
import PagedGraph.Work.Progress

/-!
# Milestones

A report of work announces nothing, or one milestone behind the one announced last
(`report_cases`).  So what a run of reports announces is ascending and ends with the milestone
announced last (`Ascends`, `ascends_percents`), whatever the counters do.

Work is counted in words of 64 bits (`completed_after`).  As long as the work that is reported and
the percents are such words, a task is always at the milestone that its completed work has reached
(`after_reaching`), and this milestone is the largest percent announced (`largest_announced`).

`announces` is the result, for tasks with and without work.
-/

namespace PagedGraph

/-- The percent of a milestone. -/
def Announcement.percent? : Announcement → Option Nat
  | .milestone percent => some percent
  | _ => none

namespace TaskProgress

/-- A task after some reports of work, made one after another. -/
def after (p : TaskProgress) (deltas : List Nat) : TaskProgress :=
  deltas.foldl (fun p delta => (p.report delta).1) p

/-- What the reports announce, one list for each. -/
def announcements : TaskProgress → List Nat → List (List Announcement)
  | _, [] => []
  | p, delta :: deltas => (p.report delta).2 :: (p.report delta).1.announcements deltas

/-- The percents that are announced, in order. -/
def percents (announced : List (List Announcement)) : List Nat :=
  announced.flatten.filterMap Announcement.percent?

/-- The largest of some numbers, zero if there are none. -/
def largest (ns : List Nat) : Nat := ns.foldr max 0

/-! ## Milestones -/

/-- The percents of a task are words of 64 bits. -/
def PercentsFit (total : Nat) : Prop := 100 * total < UInt64.size

theorem milestone_eq {total : Nat} (hfits : PercentsFit total) (completed : Nat) :
    milestone total completed = 10 * (10 * min completed total / total) := by
  have htens : min completed total * 100 = 10 * min completed total * 10 := by omega
  have hword : min completed total * 100 < UInt64.size := by
    rw [PercentsFit] at hfits
    omega
  rw [milestone, Nat.mod_eq_of_lt hword, Nat.div_div_eq_div_mul, htens,
    Nat.mul_div_mul_right _ _ (by decide), Nat.mul_comm]

theorem milestone_zero (total : Nat) : milestone total 0 = 0 := by
  rw [milestone, Nat.zero_min, Nat.zero_mul, Nat.zero_mod, Nat.zero_div, Nat.zero_div, Nat.zero_mul]

/-- More work reaches no lower milestone. -/
theorem milestone_mono {total : Nat} (hfits : PercentsFit total) {a b : Nat} (h : a ≤ b) :
    milestone total a ≤ milestone total b := by
  have hmin : min a total ≤ min b total := by omega
  rw [milestone_eq hfits, milestone_eq hfits]
  exact Nat.mul_le_mul_left 10 (Nat.div_le_div_right (Nat.mul_le_mul_left 10 hmin))

theorem ten_dvd_milestone (total completed : Nat) : 10 ∣ milestone total completed :=
  Nat.dvd_mul_left 10 _

/-- A word that has begun again is smaller, and so are its percents. -/
theorem milestone_le (total completed : Nat) : milestone total completed ≤ 100 := by
  have hword : min completed total * 100 % UInt64.size ≤ total * 100 :=
    Nat.le_trans (Nat.mod_le ..) (Nat.mul_le_mul_right 100 (Nat.min_le_right ..))
  have hpercent : min completed total * 100 % UInt64.size / total ≤ 100 :=
    Nat.div_le_of_le_mul hword
  rw [milestone]
  omega

/-- The last milestone is reached with all the work. -/
theorem milestone_eq_hundred_iff {total : Nat} (htotal : 0 < total) (hfits : PercentsFit total)
    (completed : Nat) : milestone total completed = 100 ↔ total ≤ completed := by
  have hten : 10 ≤ 10 * min completed total / total ↔ 10 * total ≤ 10 * min completed total :=
    Nat.le_div_iff_mul_le htotal
  have hle := milestone_le total completed
  rw [milestone_eq hfits] at hle ⊢
  omega

/-! ## Reports -/

/-- A report announces nothing new, or one milestone behind the one announced last. -/
theorem report_cases (p : TaskProgress) (delta : Nat) :
    ((p.report delta).2 = [] ∧ (p.report delta).1.announced = p.announced) ∨
      ∃ q, (p.report delta).2 = [.milestone q] ∧ (p.report delta).1.announced = q ∧
        p.announced < q ∧ 10 ∣ q ∧ q ≤ 100 := by
  rw [report]
  split
  · exact .inl ⟨rfl, rfl⟩
  · dsimp only
    split
    case isTrue hnew =>
      exact .inr ⟨_, rfl, rfl, hnew, ten_dvd_milestone .., milestone_le ..⟩
    case isFalse => exact .inl ⟨rfl, rfl⟩

theorem total_report (p : TaskProgress) (delta : Nat) : (p.report delta).1.total = p.total := by
  rw [report]
  split
  · rfl
  · dsimp only
    split <;> rfl

/-- Completed work is added up in 64 bits. -/
theorem completed_report {p : TaskProgress} (htotal : 0 < p.total)
    (hword : p.completed < UInt64.size) (delta : Nat) :
    (p.report delta).1.completed = (p.completed + delta) % UInt64.size := by
  rw [report]
  split
  case isTrue hnone =>
    have hdelta : delta = 0 := by omega
    rw [hdelta, Nat.add_zero, Nat.mod_eq_of_lt hword]
  case isFalse =>
    dsimp only
    split <;> rfl

/-- A task of which some work is completed, and the milestone reached is announced. -/
def reaching (total completed : Nat) : TaskProgress :=
  ⟨total, completed, milestone total completed⟩

theorem reaching_zero (total : Nat) : reaching total 0 = { total } := by
  rw [reaching, milestone_zero]

/-- As long as the work is a word, a report moves a task to the milestone that it reaches. -/
theorem report_reaching {total completed delta : Nat} (htotal : 0 < total)
    (hfits : PercentsFit total) (hword : completed + delta < UInt64.size) :
    ((reaching total completed).report delta).1 = reaching total (completed + delta) := by
  by_cases hdelta : delta = 0
  · rw [report, if_pos (.inr hdelta), hdelta, Nat.add_zero]
  · have hwork : ¬ ((reaching total completed).total = 0 ∨ delta = 0) :=
      not_or.mpr ⟨Nat.pos_iff_ne_zero.mp htotal, hdelta⟩
    have hmono := milestone_mono hfits (Nat.le_add_right completed delta)
    rw [report, if_neg hwork]
    simp only [reaching, Nat.mod_eq_of_lt hword]
    split
    case isTrue => rfl
    case isFalse hold => rw [Nat.le_antisymm hmono (Nat.le_of_not_lt hold)]

/-! ## Runs of reports -/

theorem after_cons (p : TaskProgress) (delta : Nat) (deltas : List Nat) :
    p.after (delta :: deltas) = (p.report delta).1.after deltas := rfl

theorem completed_after (deltas : List Nat) :
    ∀ {p : TaskProgress}, 0 < p.total → p.completed < UInt64.size →
      (p.after deltas).completed = (p.completed + addUp deltas) % UInt64.size := by
  induction deltas with
  | nil => exact fun _ hword => (Nat.mod_eq_of_lt hword).symm
  | cons delta deltas ih =>
    intro p htotal hword
    have hnext := completed_report htotal hword delta
    rw [after_cons, ih (total_report p delta ▸ htotal)
      (hnext ▸ Nat.mod_lt _ (by decide)), hnext, Nat.mod_add_mod, addUp_cons, Nat.add_assoc]

theorem after_reaching {total : Nat} (htotal : 0 < total) (hfits : PercentsFit total)
    (deltas : List Nat) : ∀ completed : Nat, completed + addUp deltas < UInt64.size →
      (reaching total completed).after deltas = reaching total (completed + addUp deltas) := by
  induction deltas with
  | nil => exact fun _ _ => rfl
  | cons delta deltas ih =>
    intro completed hword
    rw [addUp_cons, ← Nat.add_assoc] at hword ⊢
    rw [after_cons, report_reaching htotal hfits (by omega), ih _ hword]

theorem length_announcements (deltas : List Nat) :
    ∀ p : TaskProgress, (p.announcements deltas).length = deltas.length := by
  induction deltas with
  | nil => exact fun _ => rfl
  | cons delta deltas ih => exact fun p => congrArg Nat.succ (ih (p.report delta).1)

/-- The first reports announce what they would alone. -/
theorem take_announcements (deltas : List Nat) :
    ∀ (p : TaskProgress) (k : Nat),
      (p.announcements deltas).take k = p.announcements (deltas.take k) := by
  induction deltas with
  | nil => simp [announcements]
  | cons delta deltas ih =>
    intro p k
    cases k with
    | zero => rfl
    | succ k => exact congrArg ((p.report delta).2 :: ·) (ih (p.report delta).1 k)

/-! ## What a run announces -/

/-- Tens that lead from one milestone to another: ascending, behind the first, and ending with the
second unless there is no way to go. -/
structure Ascends (before last : Nat) (qs : List Nat) : Prop where
  pairwise : qs.Pairwise (· < ·)
  tens : ∀ q ∈ qs, before < q ∧ 10 ∣ q ∧ q ≤ 100
  last : max before (largest qs) = last

theorem ascends_nil (announced : Nat) : Ascends announced announced [] where
  pairwise := .nil
  tens q hq := by cases hq
  last := Nat.max_eq_left (Nat.zero_le _)

/-- A milestone goes in front of those behind it. -/
theorem Ascends.cons {before q last : Nat} {qs : List Nat} (hlt : before < q) (hdvd : 10 ∣ q)
    (hle : q ≤ 100) (h : Ascends q last qs) : Ascends before last (q :: qs) where
  pairwise := List.pairwise_cons.mpr ⟨fun r hr => (h.tens r hr).1, h.pairwise⟩
  tens := List.forall_mem_cons.mpr
    ⟨⟨hlt, hdvd, hle⟩, fun r hr => ⟨Nat.lt_trans hlt (h.tens r hr).1, (h.tens r hr).2⟩⟩
  last := by
    have hlast := h.last
    change max before (max q (largest qs)) = last
    omega

theorem percents_cons (es : List Announcement) (announced : List (List Announcement)) :
    percents (es :: announced) = es.filterMap Announcement.percent? ++ percents announced := by
  rw [percents, percents, List.flatten_cons, List.filterMap_append]

/-- A run announces tens from the milestone announced before it to the one announced after it. -/
theorem ascends_percents (deltas : List Nat) : ∀ p : TaskProgress,
    Ascends p.announced (p.after deltas).announced (percents (p.announcements deltas)) := by
  induction deltas with
  | nil => exact fun p => ascends_nil p.announced
  | cons delta deltas ih =>
    intro p
    have hnext := ih (p.report delta).1
    rw [after_cons, announcements, percents_cons]
    obtain ⟨hes, hsame⟩ | ⟨q, hes, hq, hlt, hdvd, hle⟩ := p.report_cases delta
    · rw [hsame] at hnext
      rwa [hes]
    · rw [hq] at hnext
      rw [hes]
      exact hnext.cons hlt hdvd hle

theorem largest_mem {qs : List Nat} (h : 0 < largest qs) : largest qs ∈ qs := by
  induction qs with
  | nil => exact absurd h (Nat.lt_irrefl 0)
  | cons q qs ih =>
    have hmax : largest (q :: qs) = max q (largest qs) := rfl
    rcases Nat.le_total (largest qs) q with hle | hle
    · rw [hmax, Nat.max_eq_left hle]
      exact List.mem_cons_self
    · rw [hmax, Nat.max_eq_right hle] at h ⊢
      exact List.mem_cons_of_mem q (ih h)

theorem le_largest {q : Nat} {qs : List Nat} (h : q ∈ qs) : q ≤ largest qs := by
  induction qs with
  | nil => cases h
  | cons p qs ih =>
    rcases List.mem_cons.mp h with rfl | h
    · exact Nat.le_max_left ..
    · exact Nat.le_trans (ih h) (Nat.le_max_right ..)

/-! ## Reports on a task -/

theorem announces_of_mem {es : List Announcement} (deltas : List Nat) :
    ∀ p : TaskProgress, es ∈ p.announcements deltas → es = [] ∨ ∃ q, es = [.milestone q] := by
  induction deltas with
  | nil => exact fun p h => by cases h
  | cons delta deltas ih =>
    intro p h
    rcases List.mem_cons.mp h with rfl | h
    · obtain ⟨hes, -⟩ | ⟨q, hes, -⟩ := p.report_cases delta
      · exact .inl hes
      · exact .inr ⟨q, hes⟩
    · exact ih _ h

theorem report_of_total_eq_zero {p : TaskProgress} (h : p.total = 0) (delta : Nat) :
    p.report delta = (p, []) := by
  rw [report, if_pos (.inl h)]

/-- A task without work stays as it is, and nothing is announced. -/
theorem run_of_total_eq_zero {p : TaskProgress} (h : p.total = 0) (deltas : List Nat) :
    p.after deltas = p ∧ ∀ es ∈ p.announcements deltas, es = [] := by
  induction deltas with
  | nil => exact ⟨rfl, fun _ hes => by cases hes⟩
  | cons delta deltas ih =>
    rw [after_cons, announcements, report_of_total_eq_zero h]
    exact ⟨ih.1, List.forall_mem_cons.mpr ⟨rfl, ih.2⟩⟩

/-- The largest percent announced is the milestone that the work has reached. -/
theorem largest_announced {total : Nat} (htotal : 0 < total) (hfits : PercentsFit total)
    {deltas : List Nat} (hword : addUp deltas < UInt64.size) :
    largest (percents (announcements { total } deltas)) = milestone total (addUp deltas) := by
  have hlast := (ascends_percents deltas { total }).last
  have hafter := after_reaching htotal hfits deltas 0 (by rwa [Nat.zero_add])
  rw [reaching_zero, Nat.zero_add] at hafter
  rwa [hafter, Nat.zero_max] at hlast

/-- All the work is announced once if it was reported. -/
theorem count_hundred {total : Nat} (htotal : 0 < total) (hfits : PercentsFit total)
    {deltas : List Nat} (hword : addUp deltas < UInt64.size) :
    (percents (announcements { total } deltas)).count 100 =
      if total ≤ addUp deltas then 1 else 0 := by
  have hlargest := largest_announced htotal hfits hword
  by_cases hdone : total ≤ addUp deltas
  · rw [(milestone_eq_hundred_iff htotal hfits _).mpr hdone] at hlargest
    have hmem := largest_mem (hlargest ▸ (by decide : 0 < 100))
    have hnodup := (ascends_percents deltas { total }).pairwise.imp Nat.ne_of_lt
    rw [if_pos hdone, ← hlargest]
    exact List.count_eq_one_of_mem hnodup hmem
  · rw [if_neg hdone]
    refine List.count_eq_zero.mpr fun hmem => hdone ?_
    have hle := le_largest hmem
    rw [hlargest] at hle
    exact (milestone_eq_hundred_iff htotal hfits _).mp (Nat.le_antisymm (milestone_le ..) hle)

/-- Ascending tens between 10 and 100 are at most ten. -/
theorem length_le_ten {qs : List Nat} (hpairwise : qs.Pairwise (· < ·))
    (htens : ∀ q ∈ qs, 10 ∣ q ∧ 10 ≤ q ∧ q ≤ 100) : qs.length ≤ 10 := by
  have hsubset : qs ⊆ (List.range' 1 10).map (10 * ·) := by
    intro q hq
    obtain ⟨⟨n, rfl⟩, hlow, hhigh⟩ := htens q hq
    exact List.mem_map.mpr ⟨n, List.mem_range'_1.mpr (by omega), rfl⟩
  have hnodup : qs.Nodup := hpairwise.imp Nat.ne_of_lt
  exact (List.subperm_of_subset hnodup hsubset).length_le

/-- What becomes of a task while work is reported, and what is announced. -/
structure Announces (total : Nat) (deltas : List Nat) : Prop where
  /-- There is an answer to each report, and it is empty or one milestone. -/
  length : (announcements { total } deltas).length = deltas.length
  single : ∀ es ∈ announcements { total } deltas, es = [] ∨ ∃ q, es = [.milestone q]
  /-- After any number of reports the completed work is what they add up to, in 64 bits. -/
  completed_mod : 0 < total → ∀ k,
    (after { total } (deltas.take k)).completed = addUp (deltas.take k) % UInt64.size
  completed : 0 < total → ∀ k, addUp (deltas.take k) < UInt64.size →
    (after { total } (deltas.take k)).completed = addUp (deltas.take k)
  /-- The largest percent announced by then is the share of it in tens, and never over 100. -/
  reached : 0 < total → 100 * total < UInt64.size → ∀ k, addUp (deltas.take k) < UInt64.size →
    largest (percents ((announcements { total } deltas).take k)) =
      10 * (10 * min (addUp (deltas.take k)) total / total)
  increasing : (percents (announcements { total } deltas)).Pairwise (· < ·)
  tens : ∀ q ∈ percents (announcements { total } deltas), 10 ∣ q ∧ 10 ≤ q ∧ q ≤ 100
  length_le : (percents (announcements { total } deltas)).length ≤ 10
  /-- The end is announced once if all the work was reported, and otherwise not. -/
  count : 0 < total → 100 * total < UInt64.size → addUp deltas < UInt64.size →
    (percents (announcements { total } deltas)).count 100 = if total ≤ addUp deltas then 1 else 0
  /-- A task without work counts none, and announces none. -/
  silent : total = 0 → ∀ k, (after { total } (deltas.take k)).completed = 0 ∧
    ∀ es ∈ announcements { total } deltas, es = []

/-- Reports of work on a task with `total` units announce every milestone reached, once. -/
theorem announces (total : Nat) (deltas : List Nat) : Announces total deltas := by
  have hascends := ascends_percents deltas { total }
  have htens : ∀ q ∈ percents (announcements { total } deltas), 10 ∣ q ∧ 10 ≤ q ∧ q ≤ 100 := by
    intro q hq
    obtain ⟨hpos, hdvd, hle⟩ := hascends.tens q hq
    exact ⟨hdvd, Nat.le_of_dvd hpos hdvd, hle⟩
  have hmod : 0 < total → ∀ k,
      (after { total } (deltas.take k)).completed = addUp (deltas.take k) % UInt64.size := by
    intro htotal k
    rw [completed_after _ htotal (by decide : 0 < UInt64.size), Nat.zero_add]
  constructor
  case length => exact length_announcements deltas _
  case single => exact fun es hes => announces_of_mem deltas _ hes
  case completed_mod => exact hmod
  case completed => exact fun htotal k hword => (hmod htotal k).trans (Nat.mod_eq_of_lt hword)
  case reached =>
    intro htotal hfits k hword
    rw [take_announcements, largest_announced htotal hfits hword, milestone_eq hfits]
  case increasing => exact hascends.pairwise
  case tens => exact htens
  case length_le => exact length_le_ten hascends.pairwise htens
  case count => exact fun htotal hfits hword => count_hundred htotal hfits hword
  case silent =>
    intro hzero k
    have hrun := @run_of_total_eq_zero { total } hzero
    rw [(hrun (deltas.take k)).1]
    exact ⟨rfl, (hrun deltas).2⟩

example : percents (announcements { total := 7 } [0, 3, 0, 1, 9, 5]) = [40, 50, 100] := by decide

end TaskProgress

end PagedGraph
