import Mathlib.Data.List.Forall2
import PagedGraph.Cursor.Merge
import PagedGraph.Proofs.Cursor.Run

/-!
# Reading several runs as one

The members of a `MergeCursor` stand for lists of their own, the first target of each
already read.  The cursor stands for the ascending list of all their targets together
(`MergeCursor.Reads`).

* The least head is the least target of all (`MergeCursor.Reads.peek`).
* Refilling the member it came from takes it out of the lists, once
  (`refillFirst_reads`).
* A search in every member whose head lies behind a bound leaves of each list what lies
  before the bound is passed (`MergeCursor.Reads.seek`).

So `mergeCursor` walks along these lists, and `baseCursor` along those of one run or of
several.  A merging cursor counts what is left up to a multiple of two to the power of 32
(`MergeCursor.Reads.remaining`).
-/

namespace PagedGraph

/-! ## Members -/

namespace MergeMember

/-- The head is the first of the targets, and the run reads the others. -/
structure Reads (m : MergeMember) (ts : List Nat) : Prop where
  head : m.head = ts.head?
  run : m.run.Reads ts.tail
  ascending : ts.Pairwise (· ≤ ·)

/-- Reading a head leaves the targets as they are. -/
theorem reads_ofRun {run : RunCursor} {ts : List Nat} (h : run.Reads ts) :
    (ofRun run).Reads ts := by
  obtain ⟨hhead, hrest⟩ := h.next
  exact ⟨hhead, hrest, (List.pairwise_cons.mp h.ascending).2⟩

variable {m : MergeMember} {ts : List Nat}

/-- Refilling gives up the head. -/
theorem Reads.refill {t : Nat} (h : m.Reads (t :: ts)) : m.refill.Reads ts := reads_ofRun h.run

theorem Reads.left (h : m.Reads ts) : m.left = ts.length := by
  rw [MergeMember.left, h.head, h.run.remaining]
  cases ts with
  | nil => rfl
  | cons t ts =>
    simp
    omega

/-- A search that passes what is behind leaves the targets from the first that is not. -/
theorem Reads.seek {behind : Nat → Bool} {search : RunCursor → Option Nat × RunCursor}
    (hsearch : ∀ {run us}, RunCursor.Reads run us →
      (search run).1 = (us.dropWhile behind).head? ∧
        (search run).2.Reads (us.dropWhile behind).tail)
    (h : m.Reads ts) : (m.seek behind search).Reads (ts.dropWhile behind) := by
  cases ts with
  | nil =>
    rw [MergeMember.seek, h.head]
    exact h
  | cons t ts =>
    rw [MergeMember.seek, h.head, List.head?_cons]
    by_cases ht : behind t = true
    · obtain ⟨hhead, hrest⟩ := hsearch h.run
      simp only [if_pos ht, List.dropWhile_cons_of_pos ht]
      refine ⟨hhead, hrest, ?_⟩
      exact (List.pairwise_cons.mp h.ascending).2.sublist (List.dropWhile_sublist _)
    · simp only [if_neg ht, List.dropWhile_cons_of_neg ht]
      exact h

end MergeMember

/-! ## All members -/

namespace MergeCursor

variable {ms : List MergeMember} {lists : List (List Nat)}

/-- Without a head there are no targets. -/
theorem flatten_eq_nil (h : List.Forall₂ MergeMember.Reads ms lists)
    (hnone : leastHead ms = none) : lists.flatten = [] := by
  induction h with
  | nil => rfl
  | @cons m ts ms lists hm _ ih =>
    rw [leastHead, hm.head] at hnone
    cases ts with
    | nil =>
      rw [List.flatten_cons, List.nil_append]
      exact ih hnone
    | cons t ts => cases hleast : leastHead ms <;> simp [hleast] at hnone

theorem exists_head {t : Nat} (h : leastHead ms = some t) : ∃ m ∈ ms, m.head = some t := by
  induction ms generalizing t with
  | nil => cases h
  | cons m ms ih =>
    rw [leastHead] at h
    split at h
    · next u v hhead hleast =>
      cases h
      rcases Nat.le_total u v with huv | hvu
      · exact ⟨m, List.mem_cons_self .., by rw [hhead, Nat.min_eq_left huv]⟩
      · obtain ⟨m', hm', hhead'⟩ := ih hleast
        exact ⟨m', List.mem_cons_of_mem _ hm', by rw [hhead', Nat.min_eq_right hvu]⟩
    · next u hhead _ =>
      cases h
      exact ⟨m, List.mem_cons_self .., hhead⟩
    · obtain ⟨m', hm', hhead'⟩ := ih h
      exact ⟨m', List.mem_cons_of_mem _ hm', hhead'⟩

theorem leastHead_le (h : List.Forall₂ MergeMember.Reads ms lists) {t : Nat}
    (hleast : leastHead ms = some t) {u : Nat} (hu : u ∈ lists.flatten) : t ≤ u := by
  induction h generalizing t with
  | nil => cases hleast
  | @cons m ts ms lists hm hms ih =>
    rw [List.flatten_cons, List.mem_append] at hu
    rw [leastHead] at hleast
    split at hleast
    · next v w hhead hleast' =>
      cases hleast
      rcases hu with hu | hu
      · exact Nat.le_trans (Nat.min_le_left ..) (head?_le hm.ascending (hm.head ▸ hhead) hu)
      · exact Nat.le_trans (Nat.min_le_right ..) (ih hleast' hu)
    · next v hhead hleast' =>
      cases hleast
      rcases hu with hu | hu
      · exact head?_le hm.ascending (hm.head ▸ hhead) hu
      · rw [flatten_eq_nil hms hleast'] at hu
        cases hu
    · next hhead =>
      rcases hu with hu | hu
      · have hnil : ts = [] := List.head?_eq_none_iff.mp (hm.head ▸ hhead)
        rw [hnil] at hu
        cases hu
      · exact ih hleast hu

/-- Refilling the first member with a head takes this target out of the lists, once. -/
theorem refillFirst_reads (h : List.Forall₂ MergeMember.Reads ms lists) {t : Nat}
    (hhead : ∃ m ∈ ms, m.head = some t) :
    ∃ rest, List.Forall₂ MergeMember.Reads (refillFirst t ms) rest ∧
      lists.flatten.Perm (t :: rest.flatten) := by
  induction h with
  | nil =>
    obtain ⟨m, hm, -⟩ := hhead
    cases hm
  | @cons m ts ms lists hm hms ih =>
    rw [refillFirst]
    by_cases ht : m.head = some t
    · rw [if_pos ht]
      cases ts with
      | nil =>
        rw [hm.head] at ht
        cases ht
      | cons u ts =>
        obtain rfl : u = t := by simpa [hm.head] using ht
        exact ⟨ts :: lists, .cons hm.refill hms, .refl _⟩
    · rw [if_neg ht]
      obtain ⟨m', hm', hhead'⟩ := hhead
      rcases List.mem_cons.mp hm' with rfl | hmem
      · exact absurd hhead' ht
      · obtain ⟨rest, hrest, hperm⟩ := ih ⟨m', hmem, hhead'⟩
        refine ⟨ts :: rest, .cons hm hrest, ?_⟩
        rw [List.flatten_cons, List.flatten_cons]
        exact (hperm.append_left ts).trans List.perm_middle

theorem addUp_left (h : List.Forall₂ MergeMember.Reads ms lists) :
    addUp (ms.map MergeMember.left) = lists.flatten.length := by
  induction h with
  | nil => rfl
  | cons hm _ ih =>
    rw [List.map_cons, addUp_cons, hm.left, ih, List.flatten_cons, List.length_append]

/-- The members stand for lists whose targets are the given ones, in ascending order. -/
def Reads (c : MergeCursor) (ts : List Nat) : Prop :=
  ∃ lists, List.Forall₂ MergeMember.Reads c.members lists ∧ ts.Pairwise (· ≤ ·) ∧
    ts.Perm lists.flatten

/-- Reading the heads of some runs gives a cursor on all their targets. -/
theorem reads_ofRuns {runs : List RunCursor} (h : List.Forall₂ RunCursor.Reads runs lists)
    {ts : List Nat} (hascending : ts.Pairwise (· ≤ ·)) (hperm : ts.Perm lists.flatten) :
    (ofRuns runs).Reads ts := by
  refine ⟨lists, ?_, hascending, hperm⟩
  rw [ofRuns, List.forall₂_map_left_iff]
  exact h.imp fun _ _ => MergeMember.reads_ofRun

variable {c : MergeCursor} {ts : List Nat}

theorem Reads.ascending (h : c.Reads ts) : ts.Pairwise (· ≤ ·) := by
  obtain ⟨_, _, hascending, _⟩ := h
  exact hascending

theorem Reads.peek (h : c.Reads ts) : c.peek = ts.head? := by
  obtain ⟨lists, hms, hascending, hperm⟩ := h
  rw [MergeCursor.peek]
  cases hleast : leastHead c.members with
  | none =>
    have hnil : ts = [] := (flatten_eq_nil hms hleast ▸ hperm).eq_nil
    rw [hnil]
    rfl
  | some t =>
    obtain ⟨rest, -, hrest⟩ := refillFirst_reads hms (exists_head hleast)
    have ht : t ∈ ts := (hperm.trans hrest).mem_iff.mpr (List.mem_cons_self ..)
    refine (head?_eq_some_of_least hascending ht fun u hu => ?_).symm
    exact leastHead_le hms hleast (hperm.mem_iff.mp hu)

theorem Reads.next (h : c.Reads ts) : c.next.1 = ts.head? ∧ c.next.2.Reads ts.tail := by
  have hpeek := h.peek
  cases ts with
  | nil =>
    rw [MergeCursor.next, hpeek]
    exact ⟨rfl, h⟩
  | cons t ts =>
    obtain ⟨lists, hms, hascending, hperm⟩ := h
    obtain ⟨rest, hrest, hperm'⟩ := refillFirst_reads hms (exists_head hpeek)
    rw [MergeCursor.next, hpeek]
    refine ⟨rfl, rest, hrest, (List.pairwise_cons.mp hascending).2, ?_⟩
    exact (hperm.trans hperm').cons_inv

theorem Reads.left (h : c.Reads ts) : c.left = ts.length := by
  obtain ⟨lists, hms, -, hperm⟩ := h
  rw [hperm.length_eq, MergeCursor.left, addUp_left hms]

theorem Reads.remaining (h : c.Reads ts) : c.remaining = ts.length % UInt32.size := by
  rw [MergeCursor.remaining, h.left]

/-- A search in every member leaves the targets from the first that is not behind. -/
theorem Reads.seek {behind : Nat → Bool} {search : RunCursor → Option Nat × RunCursor}
    (hsearch : ∀ {run us}, RunCursor.Reads run us →
      (search run).1 = (us.dropWhile behind).head? ∧
        (search run).2.Reads (us.dropWhile behind).tail)
    (hfilter : ∀ {us : List Nat}, us.Pairwise (· ≤ ·) →
      us.dropWhile behind = us.filter fun u => !behind u)
    (h : c.Reads ts) :
    Reads ⟨c.members.map fun m => m.seek behind search⟩ (ts.dropWhile behind) := by
  obtain ⟨lists, hms, hascending, hperm⟩ := h
  have hseek : List.Forall₂ MergeMember.Reads (c.members.map fun m => m.seek behind search)
      (lists.map fun us => us.filter fun u => !behind u) := by
    rw [List.forall₂_map_left_iff, List.forall₂_map_right_iff]
    exact hms.imp fun m us hm => hfilter hm.ascending ▸ hm.seek hsearch
  refine ⟨_, hseek, hascending.sublist (List.dropWhile_sublist _), ?_⟩
  rw [hfilter hascending, ← List.filter_flatten]
  exact hperm.filter _

end MergeCursor

/-- The cursor on several runs walks along their targets. -/
theorem walks_mergeCursor : mergeCursor.Walks MergeCursor.Reads where
  ascending := MergeCursor.Reads.ascending
  next := MergeCursor.Reads.next
  peek := MergeCursor.Reads.peek
  left h := Nat.le_of_eq h.left.symm
  seekAbove bound {c ts} h := by
    refine (MergeCursor.Reads.seek (walks_runCursor.seekAbove bound) (fun hus => ?_) h).next
    rw [dropWhile_le_eq_filter hus]
    exact List.filter_congr fun u _ => by rw [← decide_not, decide_eq_decide, Nat.not_le]
  seekFrom bound {c ts} h := by
    refine (MergeCursor.Reads.seek (walks_runCursor.seekFrom bound) (fun hus => ?_) h).next
    rw [dropWhile_lt_eq_filter hus]
    exact List.filter_congr fun u _ => by rw [← decide_not, decide_eq_decide, Nat.not_lt]

/-! ## What graphs store -/

/-- A cursor on what a graph stores reads some ascending targets. -/
def BaseCursor.Reads : BaseCursor → List Nat → Prop
  | .run c, ts => c.Reads ts
  | .union c, ts => c.Reads ts

/-- The cursor on what graphs store walks along the targets it reads. -/
theorem walks_baseCursor : baseCursor.Walks BaseCursor.Reads where
  ascending {s ts} h := by
    cases s with
    | run c => exact walks_runCursor.ascending h
    | union c => exact walks_mergeCursor.ascending h
  next {s ts} h := by
    cases s with
    | run c => exact walks_runCursor.next h
    | union c => exact walks_mergeCursor.next h
  peek {s ts} h := by
    cases s with
    | run c => exact walks_runCursor.peek h
    | union c => exact walks_mergeCursor.peek h
  left {s ts} h := by
    cases s with
    | run c => exact walks_runCursor.left h
    | union c => exact walks_mergeCursor.left h
  seekAbove bound {s ts} h := by
    cases s with
    | run c => exact walks_runCursor.seekAbove bound h
    | union c => exact walks_mergeCursor.seekAbove bound h
  seekFrom bound {s ts} h := by
    cases s with
    | run c => exact walks_runCursor.seekFrom bound h
    | union c => exact walks_mergeCursor.seekFrom bound h

end PagedGraph
