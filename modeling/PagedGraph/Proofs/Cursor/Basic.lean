import PagedGraph.Cursor.Basic
import PagedGraph.Number.Ascending

/-!
# Cursors and lists

A state of a cursor stands for the list of the targets it has still to give.
`Cursor.Walks c R` says that `c` moves along the lists that `R` relates its states to:
the lists are ascending, `next` and `peek` give the head, a search gives the first
target that it does not pass, and what remains is related to the state left behind.
`Cursor.Follows c R` says in addition what `c` answers about how much is left.  The two are
apart because a count in 32 bits can run over, which changes no step.

A cursor that walks along lists gives all of the list it stands for, step by step
(`Cursor.Walks.yields`) and at once (`Cursor.Walks.toList_eq`).  One that searches by
stepping walks along them if its steps do (`Cursor.walks_ofSteps`).  If it counts exactly
what is left, it follows them (`Cursor.Walks.follows`), and on lists that are short enough
counting in 32 bits is exact (`Cursor.Walks.short`).
-/

namespace PagedGraph

namespace Cursor

variable {σ : Type}

/-- The steps and searches of a cursor are those on the lists its states stand for. -/
structure Walks (c : Cursor σ) (R : σ → List Nat → Prop) : Prop where
  ascending : ∀ {s ts}, R s ts → ts.Pairwise (· ≤ ·)
  next : ∀ {s ts}, R s ts → (c.next s).1 = ts.head? ∧ R (c.next s).2 ts.tail
  peek : ∀ {s ts}, R s ts → c.peek s = ts.head?
  left : ∀ {s ts}, R s ts → ts.length ≤ c.left s
  seekAbove : ∀ (bound : Nat) {s ts}, R s ts →
    (c.seekAbove bound s).1 = (ts.dropWhile (· ≤ bound)).head? ∧
      R (c.seekAbove bound s).2 (ts.dropWhile (· ≤ bound)).tail
  seekFrom : ∀ (bound : Nat) {s ts}, R s ts →
    (c.seekFrom bound s).1 = (ts.dropWhile (· < bound)).head? ∧
      R (c.seekFrom bound s).2 (ts.dropWhile (· < bound)).tail

/-- All operations of a cursor are those on the lists its states stand for. -/
structure Follows (c : Cursor σ) (R : σ → List Nat → Prop) : Prop extends c.Walks R where
  remaining : ∀ {s ts}, R s ts → ts.length ≤ c.remaining s
  hasNext : ∀ {s ts}, R s ts → c.hasNext s = !ts.isEmpty

/-- What a cursor says remains is the number of targets of its list. -/
def Exact (c : Cursor σ) (R : σ → List Nat → Prop) : Prop :=
  ∀ {s ts}, R s ts → c.remaining s = ts.length

/-- Stepping until a target is wanted passes those in front that are not. -/
theorem firstWanted_spec {next : σ → Option Nat × σ} {R : σ → List Nat → Prop}
    (hnext : ∀ {s ts}, R s ts → (next s).1 = ts.head? ∧ R (next s).2 ts.tail)
    {wanted passed : Nat → Bool} (hpassed : ∀ t, passed t = !wanted t) (ts : List Nat) :
    ∀ (fuel : Nat) (s : σ), R s ts → ts.length ≤ fuel →
      (firstWanted next wanted fuel s).1 = (ts.dropWhile passed).head? ∧
        R (firstWanted next wanted fuel s).2 (ts.dropWhile passed).tail := by
  induction ts with
  | nil =>
    intro fuel s hs _
    cases fuel with
    | zero => exact ⟨rfl, hs⟩
    | succ fuel =>
      obtain ⟨hhead, hrest⟩ := hnext hs
      rw [firstWanted]
      split
      · next t s' heq =>
        rw [heq] at hhead
        cases hhead
      · next s' heq =>
        rw [heq] at hrest
        exact ⟨rfl, hrest⟩
  | cons t ts ih =>
    intro fuel s hs hfuel
    cases fuel with
    | zero => cases hfuel
    | succ fuel =>
      obtain ⟨hhead, hrest⟩ := hnext hs
      rw [firstWanted]
      split
      · next u s' heq =>
        rw [heq] at hhead hrest
        obtain rfl : u = t := by simpa using hhead
        by_cases hwanted : wanted u = true
        · rw [if_pos hwanted, List.dropWhile_cons_of_neg (by simp [hpassed, hwanted])]
          exact ⟨rfl, hrest⟩
        · rw [if_neg hwanted, List.dropWhile_cons_of_pos (by simpa [hpassed] using hwanted)]
          exact ih fuel s' hrest (Nat.le_of_succ_le_succ hfuel)
      · next s' heq =>
        rw [heq] at hhead
        cases hhead

/-- A cursor that searches by stepping walks along lists if its steps do. -/
theorem walks_ofSteps {next : σ → Option Nat × σ} {peek : σ → Option Nat}
    {count : σ → Nat} {R : σ → List Nat → Prop}
    (hascending : ∀ {s ts}, R s ts → ts.Pairwise (· ≤ ·))
    (hnext : ∀ {s ts}, R s ts → (next s).1 = ts.head? ∧ R (next s).2 ts.tail)
    (hpeek : ∀ {s ts}, R s ts → peek s = ts.head?)
    (hcount : ∀ {s ts}, R s ts → count s = ts.length) :
    (ofSteps next peek count).Walks R where
  ascending := hascending
  next := hnext
  peek := hpeek
  left hs := Nat.le_of_eq (hcount hs).symm
  seekAbove bound {s ts} hs := by
    have hpassed : ∀ t, decide (t ≤ bound) = !decide (t > bound) := fun t => by
      rw [← decide_not]
      exact decide_eq_decide.mpr (by omega)
    exact firstWanted_spec hnext hpassed ts _ s hs (Nat.le_of_eq (hcount hs).symm)
  seekFrom bound {s ts} hs := by
    have hpassed : ∀ t, decide (t < bound) = !decide (t ≥ bound) := fun t => by
      rw [← decide_not]
      exact decide_eq_decide.mpr (by omega)
    exact firstWanted_spec hnext hpassed ts _ s hs (Nat.le_of_eq (hcount hs).symm)

variable {c : Cursor σ} {R : σ → List Nat → Prop} {s : σ} {ts : List Nat}

/-- Gathering gives the list a state stands for, and leaves a state at its end. -/
theorem Walks.gather_eq (h : c.Walks R) (ts : List Nat) :
    ∀ (fuel : Nat) (s : σ) (before : List Nat), R s ts → ts.length < fuel →
      (c.gather fuel s before).1 = before.reverse ++ ts ∧ R (c.gather fuel s before).2 [] := by
  induction ts with
  | nil =>
    intro fuel s before hs hfuel
    cases fuel with
    | zero => cases hfuel
    | succ fuel =>
      obtain ⟨hhead, hrest⟩ := h.next hs
      rw [gather]
      split
      · next t s' heq =>
        rw [heq] at hhead
        cases hhead
      · next s' heq =>
        rw [heq] at hrest
        exact ⟨(List.append_nil _).symm, hrest⟩
  | cons t ts ih =>
    intro fuel s before hs hfuel
    cases fuel with
    | zero => cases hfuel
    | succ fuel =>
      obtain ⟨hhead, hrest⟩ := h.next hs
      rw [gather]
      split
      · next u s' heq =>
        rw [heq] at hhead hrest
        obtain rfl : u = t := by simpa using hhead
        have hgather := ih fuel s' (u :: before) hrest (Nat.lt_of_succ_lt_succ hfuel)
        simpa using hgather
      · next s' heq =>
        rw [heq] at hhead
        cases hhead

/-- Collecting gives the list a state stands for, and leaves a state at its end. -/
theorem Walks.collect_eq (h : c.Walks R) (hs : R s ts) :
    (c.collect s).1 = ts ∧ R (c.collect s).2 [] := by
  have hfuel : ts.length < c.left s + 1 := Nat.lt_succ_of_le (h.left hs)
  exact h.gather_eq ts _ s [] hs hfuel

theorem Walks.toList_eq (h : c.Walks R) (hs : R s ts) : c.toList s = ts :=
  (h.collect_eq hs).1

/-- Stepping gives the targets of a list one after another, and then none. -/
def Yields (c : Cursor σ) : σ → List Nat → Prop
  | s, [] => (c.next s).1 = none
  | s, t :: ts => (c.next s).1 = some t ∧ c.Yields (c.next s).2 ts

/-- A cursor that walks along lists yields them. -/
theorem Walks.yields (h : c.Walks R) (hs : R s ts) : c.Yields s ts := by
  induction ts generalizing s with
  | nil => exact (h.next hs).1
  | cons t ts ih => exact ⟨(h.next hs).1, ih (h.next hs).2⟩

/-! ## Counting -/

/-- A cursor that walks along lists follows them if it counts exactly what is left, and takes a
target to be left when it counts one. -/
theorem Walks.follows (h : c.Walks R) (hexact : c.Exact R)
    (hhasNext : ∀ s, c.hasNext s = decide (c.remaining s > 0)) : c.Follows R where
  toWalks := h
  remaining hs := Nat.le_of_eq (hexact hs).symm
  hasNext {s ts} hs := by
    rw [hhasNext, hexact hs]
    cases ts <;> simp

/-- A list that is short enough to be counted in 32 bits. -/
def Short (R : σ → List Nat → Prop) (s : σ) (ts : List Nat) : Prop :=
  R s ts ∧ ts.length < UInt32.size

/-- What is left of a short list is short. -/
theorem Walks.short (h : c.Walks R) : c.Walks (Short R) := by
  have hrest : ∀ {ts us : List Nat}, us.length ≤ ts.length → ts.length < UInt32.size →
      us.tail.length < UInt32.size := fun {_ us} hle hlt =>
    Nat.lt_of_le_of_lt (Nat.le_trans (List.tail_sublist us).length_le hle) hlt
  constructor
  case ascending => exact fun hs => h.ascending hs.1
  case next => exact fun hs => ⟨(h.next hs.1).1, (h.next hs.1).2, hrest (Nat.le_refl _) hs.2⟩
  case peek => exact fun hs => h.peek hs.1
  case left => exact fun hs => h.left hs.1
  case seekAbove =>
    intro bound s ts hs
    obtain ⟨hhead, hafter⟩ := h.seekAbove bound hs.1
    exact ⟨hhead, hafter, hrest (List.dropWhile_sublist _).length_le hs.2⟩
  case seekFrom =>
    intro bound s ts hs
    obtain ⟨hhead, hafter⟩ := h.seekFrom bound hs.1
    exact ⟨hhead, hafter, hrest (List.dropWhile_sublist _).length_le hs.2⟩

end Cursor

end PagedGraph
