import Mathlib.Data.Finset.Card
import Mathlib.Data.List.Basic
import PagedGraph.Numbering.SparseTable

/-!
# Sparse tables are partial maps

A table that was filled by some calls in turn gives every index the value of the last call for
it.  Its size is the number of different indices in the calls, and its pages are the
different quotients of these by 4096.

`SparseTable.Maps` ties a table to the calls.  An empty table maps none (`maps_empty`), and
setting an index adds a call (`Maps.set`).  `says_setAll` is what follows of all that a filled
table can be asked.
-/

namespace PagedGraph

namespace SparseTable

/-- The table of some calls, made one after another on an empty table. -/
def setAll (calls : List (Nat × Nat)) : SparseTable :=
  calls.foldl (fun t call => t.set call.1 call.2) empty

theorem setAll_concat (calls : List (Nat × Nat)) (call : Nat × Nat) :
    setAll (calls ++ [call]) = (setAll calls).set call.1 call.2 :=
  List.foldl_concat ..

theorem pages_set (t : SparseTable) (index value : Nat) :
    (t.set index value).pages = t.pages.alter (index / slots) (writeSlot index value) := rfl

theorem size_set (t : SparseTable) (index value : Nat) :
    (t.set index value).size = if t.contains index then t.size else t.size + 1 := by
  cases h : t.contains index <;> simp [set, h]

/-- Setting an index makes its page, and no other. -/
theorem mem_pages_set (t : SparseTable) (index value page : Nat) :
    page ∈ (t.set index value).pages ↔ page = index / slots ∨ page ∈ t.pages := by
  rw [pages_set, Std.HashMap.mem_alter]
  by_cases h : index / slots = page
  · simp [h, writeSlot]
  · simp [h, Ne.symm h]

/-- One more page if the page of the index was not there. -/
theorem pageCount_set (t : SparseTable) (index value : Nat) :
    (t.set index value).pageCount =
      if index / slots ∈ t.pages then t.pageCount else t.pageCount + 1 := by
  rw [pageCount, pageCount, pages_set]
  by_cases h : index / slots ∈ t.pages
  · rw [if_pos h, Std.HashMap.size_alter_eq_self_of_mem h rfl]
  · rw [if_neg h, Std.HashMap.size_alter_eq_add_one h rfl]

/-! ## The calls behind a table -/

/-- One more different number if it was not there. -/
theorem card_toFinset_concat (xs : List Nat) (x : Nat) :
    (xs ++ [x]).toFinset.card = if x ∈ xs then xs.toFinset.card else xs.toFinset.card + 1 := by
  have hinsert : (xs ++ [x]).toFinset = insert x xs.toFinset := by
    ext y
    simp
  rw [hinsert, Finset.card_insert_eq_ite]
  simp only [List.mem_toFinset]

/-- A table maps every index that some calls set to the value it was given last. -/
structure Maps (t : SparseTable) (calls : List (Nat × Nat)) : Prop where
  get? : ∀ index, t.get? index = calls.reverse.lookup index
  size : t.size = (calls.map Prod.fst).toFinset.card
  /-- A page is there if an index of it was set. -/
  mem_pages : ∀ page, page ∈ t.pages ↔ page ∈ calls.map fun call => call.1 / slots
  pageCount : t.pageCount = (calls.map fun call => call.1 / slots).toFinset.card

variable {t : SparseTable} {calls : List (Nat × Nat)}

theorem maps_empty : Maps empty [] where
  get? index := get?_empty index
  size := rfl
  mem_pages page := by simp [empty]
  pageCount := by simp [SparseTable.pageCount, empty]

/-- An index has a value if it was set. -/
theorem Maps.contains_iff (h : Maps t calls) (index : Nat) :
    t.contains index = true ↔ index ∈ calls.map Prod.fst := by
  rw [contains, h.get?, List.lookup_isSome_iff]
  simp

theorem Maps.set (h : Maps t calls) (index value : Nat) :
    Maps (t.set index value) (calls ++ [(index, value)]) where
  get? other := by
    rw [get?_set, List.reverse_concat, List.lookup_cons, h.get?]
    by_cases hother : other = index
    · rw [if_pos hother, beq_iff_eq.mpr hother]
    · rw [if_neg hother, beq_eq_false_iff_ne.mpr hother]
  size := by
    rw [size_set, h.size, List.map_append, List.map_singleton, card_toFinset_concat]
    simp only [h.contains_iff]
  mem_pages page := by
    rw [mem_pages_set, h.mem_pages, List.map_append, List.mem_append, List.map_singleton,
      List.mem_singleton, or_comm]
  pageCount := by
    rw [pageCount_set, h.pageCount, List.map_append, List.map_singleton, card_toFinset_concat]
    simp only [h.mem_pages]

theorem maps_setAll (calls : List (Nat × Nat)) : Maps (setAll calls) calls := by
  induction calls using List.reverseRecOn with
  | nil => exact maps_empty
  | append_singleton calls call ih =>
    rw [setAll_concat]
    exact ih.set call.1 call.2

/-! ## What a table says -/

/-- A slot is zero or one more than the value of its index. -/
theorem slot_eq (t : SparseTable) (index : Nat) :
    t.slot index = (t.get? index).elim 0 (· + 1) := by
  rw [SparseTable.get?]
  cases t.slot index with
  | zero => rfl
  | succ value => rfl

/-- All that a table says after some calls. -/
structure Says (t : SparseTable) (calls : List (Nat × Nat)) : Prop where
  /-- An index has the value of the last call for it, and none without a call. -/
  get? : ∀ index, t.get? index = calls.reverse.lookup index
  contains : ∀ index, t.contains index = true ↔ index ∈ calls.map Prod.fst
  size : t.size = (calls.map Prod.fst).toFinset.card
  isEmpty : t.isEmpty = true ↔ calls = []
  pageCount : t.pageCount = (calls.map fun call => call.1 >>> 12).toFinset.card
  byteSize : t.byteSize = 32768 * (calls.map fun call => call.1 >>> 12).toFinset.card
  /-- A further call for one index changes nothing for the others. -/
  others : ∀ {index other : Nat}, other ≠ index → ∀ value,
    (t.set index value).get? other = t.get? other ∧
      (t.set index value).contains other = t.contains other
  /-- What a slot holds is a word. -/
  slot_lt : ∀ index, t.slot index < UInt64.size

/-- A table is the partial map that the calls for it make, if their values are below the largest
word, which a slot could not hold one more than. -/
theorem says_setAll {calls : List (Nat × Nat)}
    (hvalues : ∀ call ∈ calls, call.2 < UInt64.size - 1) : (setAll calls).Says calls := by
  have h := maps_setAll calls
  have hpages : (setAll calls).pageCount = (calls.map fun call => call.1 >>> 12).toFinset.card := by
    rw [h.pageCount]
    simp only [Nat.shiftRight_eq_div_pow, slots, Nat.reducePow]
  refine ⟨h.get?, h.contains_iff, h.size, ?_, hpages, ?_, fun hne value => ?_, fun index => ?_⟩
  · rw [isEmpty, beq_iff_eq, h.size, Finset.card_eq_zero, List.toFinset_eq_empty_iff,
      List.map_eq_nil_iff]
  · rw [byteSize, hpages, Nat.mul_comm]
    rfl
  · have hget : ((setAll calls).set _ value).get? _ = (setAll calls).get? _ :=
      (get?_set _ _ value _).trans (if_neg hne)
    exact ⟨hget, congrArg Option.isSome hget⟩
  · rw [slot_eq, h.get?]
    cases hlookup : calls.reverse.lookup index with
    | none => decide
    | some value =>
      obtain ⟨before, after, hcalls, -⟩ := List.lookup_eq_some_iff.mp hlookup
      have hmem : (index, value) ∈ calls :=
        List.mem_reverse.mp (hcalls ▸ List.mem_append_right _ List.mem_cons_self)
      exact Nat.add_lt_of_lt_sub (hvalues _ hmem)

/-- Pages at both ends of the words, with an index that is set again and a value of zero. -/
theorem says_setAll_twoPages :
    (∀ call ∈ [(3, 0), (UInt64.size - 1, 1), (4095, 2), (3, UInt64.size - 2)],
        call.2 < UInt64.size - 1) ∧
      (setAll [(3, 0), (UInt64.size - 1, 1), (4095, 2)]).get? 3 = some 0 ∧
      (setAll [(3, 0), (UInt64.size - 1, 1), (4095, 2), (3, UInt64.size - 2)]).get? 3 =
        some (UInt64.size - 2) ∧
      (setAll [(3, 0), (UInt64.size - 1, 1), (4095, 2), (3, UInt64.size - 2)]).get? 4 = none ∧
      (setAll [(3, 0), (UInt64.size - 1, 1), (4095, 2), (3, UInt64.size - 2)]).size = 3 ∧
      (setAll [(3, 0), (UInt64.size - 1, 1), (4095, 2), (3, UInt64.size - 2)]).byteSize =
        65536 := by
  have hvalues : ∀ call ∈ [(3, 0), (UInt64.size - 1, 1), (4095, 2), (3, UInt64.size - 2)],
      call.2 < UInt64.size - 1 := by decide
  have h := says_setAll hvalues
  have hfirst : (setAll [(3, 0), (UInt64.size - 1, 1), (4095, 2)]).Says
      [(3, 0), (UInt64.size - 1, 1), (4095, 2)] := says_setAll (by decide)
  exact ⟨hvalues, (hfirst.get? 3).trans (by decide), (h.get? 3).trans (by decide),
    (h.get? 4).trans (by decide), h.size.trans (by decide), h.byteSize.trans (by decide)⟩

end SparseTable

end PagedGraph
