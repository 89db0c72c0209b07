import PagedGraph.Proofs.Page.Arena

/-!
# How runs fill pages

How many pages an arena takes, and how long they are, depends only on the lengths of the
runs that are put into it.  `packed opened lens` are the sizes of the pages that runs of
the lengths `lens` fill, when `opened` bytes are in the open page before.

* Pages hold no slack: their sizes add up to the lengths (`addUp_packed`).
* Runs that fit into pages make pages that are no longer than a page
  (`le_pageSize_of_mem_packed`).
* Two pages in a row hold more than one page together, and so does a run that is too long
  for a page.  So no more pages are taken than twice the bytes need, and one
  (`length_packed_mul_le`).

`PageArena.packed_put` is the step of an arena: what it will have filled after some runs
does not change when the first of them is put.
-/

namespace PagedGraph

/-- The sizes of the pages that runs of some lengths fill, in the order they become full.
In the open page there are `opened` bytes before, zero if there is no open page. -/
def packed (opened : Nat) : List Nat → List Nat
  | [] => if opened = 0 then [] else [opened]
  | len :: rest =>
    if pageSize < len then len :: packed opened rest
    else if opened + len ≤ pageSize then packed (opened + len) rest
    else opened :: packed len rest

/-- A run of no bytes fills nothing. -/
theorem packed_zero_cons {opened : Nat} (h : opened ≤ pageSize) (lens : List Nat) :
    packed opened (0 :: lens) = packed opened lens := by
  rw [packed, if_neg (Nat.not_lt_zero _), Nat.add_zero, if_pos h]

/-- Pages hold no slack. -/
theorem addUp_packed (lens : List Nat) :
    ∀ opened : Nat, addUp (packed opened lens) = opened + addUp lens := by
  induction lens with
  | nil =>
    intro opened
    rw [packed]
    split
    · next h => exact h.symm
    · rfl
  | cons len rest ih =>
    intro opened
    rw [packed, addUp_cons]
    split
    · rw [addUp_cons, ih]
      omega
    · split
      · rw [ih, Nat.add_assoc]
      · rw [addUp_cons, ih]

/-- Pages for runs that fit into a page are no longer than a page. -/
theorem le_pageSize_of_mem_packed {size : Nat} (lens : List Nat)
    (h : ∀ len ∈ lens, len ≤ pageSize) :
    ∀ {opened : Nat}, opened ≤ pageSize → size ∈ packed opened lens → size ≤ pageSize := by
  induction lens with
  | nil =>
    intro opened hopened hsize
    rw [packed] at hsize
    split at hsize
    · cases hsize
    · rw [List.mem_singleton.mp hsize]
      exact hopened
  | cons len rest ih =>
    intro opened hopened hsize
    obtain ⟨hlen, hrest⟩ := List.forall_mem_cons.mp h
    rw [packed, if_neg (Nat.not_lt.mpr hlen)] at hsize
    split at hsize
    · next hroom => exact ih hrest hroom hsize
    · rcases List.mem_cons.mp hsize with rfl | hsize
      · exact hopened
      · exact ih hrest hlen hsize

/-- The bytes are twice as many as the pages but one could hold. -/
theorem length_packed_mul_le (lens : List Nat) :
    ∀ opened : Nat,
      (packed opened lens).length * pageSize ≤ pageSize + opened + 2 * addUp lens := by
  induction lens with
  | nil =>
    intro opened
    rw [packed]
    split
    · rw [List.length_nil, Nat.zero_mul]
      exact Nat.zero_le _
    · rw [List.length_singleton, Nat.one_mul, Nat.add_assoc]
      exact Nat.le_add_right ..
  | cons len rest ih =>
    intro opened
    rw [packed, addUp_cons]
    split
    · have hrest := ih opened
      rw [List.length_cons, Nat.succ_mul]
      omega
    · split
      · have hrest := ih (opened + len)
        omega
      · -- what is in the open page and the run are longer than a page together
        have hrest := ih len
        rw [List.length_cons, Nat.succ_mul]
        omega

/-- No bytes take no pages. -/
theorem packed_eq_nil {lens : List Nat} (h : addUp lens = 0) : packed 0 lens = [] := by
  induction lens with
  | nil => rfl
  | cons len rest ih =>
    rw [addUp_cons, Nat.add_eq_zero_iff] at h
    rw [h.1, packed_zero_cons (Nat.zero_le _), ih h.2]

namespace PageArena

/-- Bytes in the open page, zero if there is none. -/
def opened (a : PageArena) : Nat :=
  match a.filling with
  | some page => page.bytes.size
  | none => 0

@[simp] theorem opened_some (page : Page) (full : Array Page) :
    opened ⟨some page, full⟩ = page.bytes.size := rfl

@[simp] theorem opened_none (full : Array Page) : opened ⟨none, full⟩ = 0 := rfl

/-- The sizes of the full pages. -/
def fullSizes (a : PageArena) : List Nat := a.full.toList.map fun page => page.bytes.size

/-- An open page holds something, and no more than fits into a page. -/
def Filling (a : PageArena) : Prop :=
  ∀ page ∈ a.filling, 0 < page.bytes.size ∧ page.bytes.size ≤ pageSize

theorem filling_empty : Filling {} := by
  intro page hpage
  cases hpage

/-- If nothing more comes, an arena has its full pages and the open one. -/
theorem sizes_pages {a : PageArena} (h : a.Filling) :
    a.pages.map (fun page => page.bytes.size) = a.fullSizes ++ packed a.opened [] := by
  obtain ⟨filling, full⟩ := a
  rw [pages_eq, List.map_append, fullSizes]
  cases filling with
  | none => rfl
  | some page =>
    have hpos : page.bytes.size ≠ 0 := Nat.pos_iff_ne_zero.mp (h page rfl).1
    rw [opened_some, packed, if_neg hpos]
    rfl

variable {c : PageCounter} {a : PageArena} {run : List UInt8}

/-- The pages that an arena will have filled are those it fills after the first run is put. -/
theorem packed_put (h : Sound c a) (hopen : a.Filling) (hrun : run ≠ []) :
    (a.put c run).2.2.Filling ∧ ∀ rest : List Nat,
      (a.put c run).2.2.fullSizes ++ packed (a.put c run).2.2.opened rest =
        a.fullSizes ++ packed a.opened (run.length :: rest) := by
  have hlen := List.length_pos_iff.mpr hrun
  by_cases hlong : pageSize < run.length
  · rw [put_long h hlong]
    refine ⟨hopen, fun rest => ?_⟩
    rw [packed, if_pos hlong]
    simp [fullSizes, opened]
  · have hle : run.length ≤ pageSize := Nat.not_lt.mp hlong
    obtain ⟨filling, full⟩ := a
    cases filling with
    | none =>
      rw [put_opening hle rfl]
      refine ⟨?_, fun rest => ?_⟩
      · rintro page ⟨⟩
        exact ⟨hlen, hle⟩
      · rw [packed, if_neg hlong, opened_none, Nat.zero_add, if_pos hle]
        rfl
    | some page =>
      by_cases hroom : page.bytes.size + run.length ≤ pageSize
      · rw [put_fitting hrun hroom]
        have hsize : (page.bytes ++ run.toArray).size = page.bytes.size + run.length := by simp
        refine ⟨?_, fun rest => ?_⟩
        · rintro grown ⟨⟩
          exact ⟨by rw [hsize]; omega, by rw [hsize]; exact hroom⟩
        · rw [packed, if_neg hlong, opened_some, opened_some, hsize, if_pos hroom]
          rfl
      · rw [put_opening hle (by simpa [fits] using hroom)]
        refine ⟨?_, fun rest => ?_⟩
        · rintro new ⟨⟩
          exact ⟨hlen, hle⟩
        · rw [packed, if_neg hlong, opened_some, opened_some, if_neg hroom]
          simp [fullSizes, sealOpen]

/-- The counter moves on by the pages that come in. -/
theorem next_put (h : Sound c a) (hrun : run ≠ []) :
    (a.put c run).2.1.next + a.pages.length = c.next + (a.put c run).2.2.pages.length := by
  have hlength : ∀ a : PageArena, a.indices.length = a.pages.length := fun _ => List.length_map ..
  rw [← hlength, ← hlength]
  rcases put_indices h hrun with ⟨hindices, hcounter⟩ | ⟨hindices, hcounter⟩
  · rw [hindices, hcounter]
  · rw [hindices.length_eq, hcounter, List.length_cons]
    exact Nat.add_right_comm ..

end PageArena

end PagedGraph
