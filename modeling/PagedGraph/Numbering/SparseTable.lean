import Std.Data.HashMap

/-!
# Sparse tables

A `SparseTable` maps some numbers to numbers.  The index space is cut into pages of
`slots` consecutive indices, and a page exists once an index of it was set.  A slot
holds the value plus one, and zero where no value was set.

`get?_set` says that a table is a partial map.  `get?_number` says that numbering a
list without repetitions maps each item to its place.
-/

namespace PagedGraph

namespace SparseTable

/-- Indices covered by one page. -/
def slots : Nat := 4096

/-- A page: what its slots hold. -/
abbrev SlotPage := Vector Nat slots

end SparseTable

/-- A partial map on numbers, in pages that exist where they are needed. -/
structure SparseTable where
  /-- The pages that exist. -/
  pages : Std.HashMap Nat SparseTable.SlotPage
  /-- How many indices have a value. -/
  size : Nat
deriving Inhabited

namespace SparseTable

/-- Bytes a page takes, eight for each slot. -/
def pageBytes : Nat := slots * 8

/-- A page nobody set. -/
def blankPage : SlotPage := .replicate slots 0

/-- No values. -/
def empty : SparseTable := ⟨∅, 0⟩

theorem mod_slots_lt (index : Nat) : index % slots < slots := Nat.mod_lt _ (by decide)

/-- What is in the slot of an index: zero, or one more than its value. -/
def slot (t : SparseTable) (index : Nat) : Nat :=
  match t.pages[index / slots]? with
  | some page =>
    have := mod_slots_lt index
    page[index % slots]
  | none => 0

/-- The value of an index, none for an index that was not set. -/
def get? (t : SparseTable) (index : Nat) : Option Nat :=
  match t.slot index with
  | 0 => none
  | v + 1 => some v

/-- Whether an index has a value. -/
def contains (t : SparseTable) (index : Nat) : Bool := (t.get? index).isSome

/-- Write the slot of an index, in a page made for it if there is none. -/
def writeSlot (index value : Nat) (page? : Option SlotPage) : Option SlotPage :=
  some ((page?.getD blankPage).set (index % slots) (value + 1) (mod_slots_lt index))

/-- Give an index a value. -/
def set (t : SparseTable) (index value : Nat) : SparseTable :=
  let isNew := !t.contains index
  match t with
  | ⟨pages, size⟩ =>
    ⟨pages.alter (index / slots) (writeSlot index value), if isNew then size + 1 else size⟩

/-- Whether nothing was set. -/
def isEmpty (t : SparseTable) : Bool := t.size == 0

/-- Number of pages that were made. -/
def pageCount (t : SparseTable) : Nat := t.pages.size

/-- Bytes of all pages. -/
def byteSize (t : SparseTable) : Nat := t.pageCount * pageBytes

/-- Number the items of a list: each is mapped to its place, from `first` on. -/
def number (first : Nat) : List Nat → SparseTable → SparseTable
  | [], t => t
  | x :: xs, t => number (first + 1) xs (t.set x first)

/-! ## Laws -/

@[simp] theorem get?_empty (index : Nat) : empty.get? index = none := by
  simp [get?, slot, empty]

theorem slot_set (t : SparseTable) (index value other : Nat) :
    (t.set index value).slot other = if other = index then value + 1 else t.slot other := by
  simp only [slot, set, Std.HashMap.getElem?_alter, writeSlot, beq_iff_eq]
  by_cases hp : index / slots = other / slots
  · by_cases hs : other = index
    · subst hs; simp
    · have hm : ¬ index % slots = other % slots := fun h =>
        hs (by rw [← Nat.div_add_mod other slots, ← Nat.div_add_mod index slots, hp, h])
      simp only [hp, if_true, if_neg hs]
      rw [Vector.getElem_set_ne _ _ hm]
      cases t.pages[other / slots]? <;> simp [blankPage]
  · have hs : other ≠ index := fun h => hp (by rw [h])
    simp [hp, hs]

/-- A table maps an index to the value it was given last. -/
theorem get?_set (t : SparseTable) (index value other : Nat) :
    (t.set index value).get? other = if other = index then some value else t.get? other := by
  by_cases h : other = index <;> simp [get?, slot_set, h]

/-- An item is mapped to its place. -/
theorem get?_number {xs : List Nat} (h : xs.Nodup) (first x : Nat) (t : SparseTable) :
    (number first xs t).get? x = ((xs.idxOf? x).map (first + ·)).or (t.get? x) := by
  induction xs generalizing first t with
  | nil => simp [number]
  | cons y ys ih =>
    have hy := (List.nodup_cons.mp h).1
    rw [number, ih (List.nodup_cons.mp h).2, List.idxOf?_cons, get?_set]
    by_cases hxy : x = y
    · subst hxy
      simp [List.idxOf?_eq_none_iff.mpr hy]
    · have hyx : (y == x) = false := by simpa using fun e => hxy e.symm
      simp only [hyx, if_neg hxy]
      cases ys.idxOf? x <;> simp [Nat.add_comm, Nat.add_left_comm]

end SparseTable

end PagedGraph
