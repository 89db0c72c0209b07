import PagedGraph.Proofs.Page.Arena

/-!
# Runs in a page table

A page table holds the runs of the pages it is made of, if these have different
indices below the number of slots.  `PageTable.Holds` says that a run is written at
an offset of a table, and `PageTable.holds_ofPages` takes it from the pages.

A run that is held is read back byte by byte (`PageTable.slice_of_holds`), and so is
its length if it starts with it (`PageTable.degree_of_holds`).
-/

namespace PagedGraph

namespace PageTable

/-- A run is written at an offset of a table. -/
def Holds (s : PageTable) (offset : Nat) (run : List UInt8) : Prop :=
  run <+: (s.page offset).toList.drop (placeOf offset)

/-! ## From pages to a table -/

/-- Putting a page into its slot. -/
def fill (table : Array (Array UInt8)) (page : Page) : Array (Array UInt8) :=
  table.setIfInBounds page.index page.bytes

theorem getD_foldl_fill_of_not_mem {i : Nat} (pages : List Page) :
    ∀ table : Array (Array UInt8), i ∉ pages.map Page.index →
      (pages.foldl fill table).getD i #[] = table.getD i #[] := by
  induction pages with
  | nil =>
    intro table _
    rfl
  | cons page rest ih =>
    intro table hi
    rw [List.map_cons, List.mem_cons, not_or] at hi
    rw [List.foldl_cons, ih _ hi.2, fill, Array.getD_eq_getD_getElem?,
      Array.getD_eq_getD_getElem?, Array.getElem?_setIfInBounds_ne (Ne.symm hi.1)]

theorem size_foldl_fill (pages : List Page) :
    ∀ table : Array (Array UInt8), (pages.foldl fill table).size = table.size := by
  induction pages with
  | nil => exact fun _ => rfl
  | cons page rest ih =>
    intro table
    rw [List.foldl_cons, ih, fill, Array.size_setIfInBounds]

/-- A slot that no page has is empty. -/
theorem getElem?_ofPages_of_not_mem {i count : Nat} {pages : List Page}
    (hi : i ∉ pages.map Page.index) (hlt : i < count) :
    (ofPages count pages).pages[i]? = some #[] := by
  have hsize : i < (ofPages count pages).pages.size := by
    rw [show (ofPages count pages).pages.size = count from
      (size_foldl_fill pages _).trans Array.size_replicate]
    exact hlt
  have hget : (ofPages count pages).pages.getD i #[] = #[] :=
    (getD_foldl_fill_of_not_mem pages _ hi).trans (by simp [Array.getD])
  rw [Array.getD_eq_getD_getElem?, Array.getElem?_eq_getElem hsize, Option.getD_some] at hget
  rw [Array.getElem?_eq_getElem hsize, hget]

/-- A page is found in its slot. -/
theorem getD_foldl_fill {page : Page} (pages : List Page) :
    ∀ table : Array (Array UInt8), page ∈ pages → (pages.map Page.index).Nodup →
      page.index < table.size → (pages.foldl fill table).getD page.index #[] = page.bytes := by
  induction pages with
  | nil =>
    intro table hmem
    cases hmem
  | cons first rest ih =>
    intro table hmem hnodup hlt
    rw [List.map_cons, List.nodup_cons] at hnodup
    rw [List.foldl_cons]
    rcases List.mem_cons.mp hmem with rfl | hmem
    · rw [getD_foldl_fill_of_not_mem rest _ hnodup.1, fill, Array.getD_eq_getD_getElem?,
        Array.getElem?_setIfInBounds_self_of_lt hlt]
      rfl
    · exact ih _ hmem hnodup.2 (by rw [fill, Array.size_setIfInBounds]; exact hlt)

theorem holds_ofPages {pages : List Page} {count offset : Nat} {run : List UInt8}
    (hnodup : (pages.map Page.index).Nodup) (hlt : ∀ i ∈ pages.map Page.index, i < count)
    (hrun : RunAt pages offset run) : (ofPages count pages).Holds offset run := by
  obtain ⟨page, hmem, hindex, hprefix⟩ := hrun
  have hpage : (ofPages count pages).page offset = page.bytes := by
    rw [PageTable.page, ← hindex]
    refine getD_foldl_fill pages _ hmem hnodup ?_
    rw [Array.size_replicate]
    exact hlt page.index (List.mem_map_of_mem hmem)
  rw [Holds, hpage]
  exact hprefix

/-! ## Reading -/

/-- Bytes of a page from a place on, as a piece of the list of its bytes. -/
theorem slice_eq (bytes : Array UInt8) (len : Nat) :
    ∀ place : Nat, place + len ≤ bytes.size →
      slice bytes place len = (bytes.toList.drop place).take len := by
  induction len with
  | zero =>
    intro place _
    simp [slice]
  | succ len ih =>
    intro place h
    have hplace : place < bytes.toList.length := by
      rw [Array.length_toList]
      omega
    rw [slice, ih (place + 1) (by omega), List.drop_eq_getElem_cons hplace, List.take_succ_cons]
    congr 1
    rw [Array.getElem_toList]
    simp [Array.getD, Array.length_toList ▸ hplace]

variable {s : PageTable} {offset : Nat} {run : List UInt8}

/-- A held run lies inside its page. -/
theorem Holds.le_size (h : s.Holds offset run) (hpos : run ≠ []) :
    placeOf offset + run.length ≤ (s.page offset).size := by
  have hle := h.length_le
  have hlen := List.length_pos_iff.mpr hpos
  have hsize := @Array.length_toList _ (s.page offset)
  rw [List.length_drop] at hle
  omega

/-- A held run is read back. -/
theorem slice_of_holds (before piece after : List UInt8)
    (h : s.Holds offset (before ++ (piece ++ after))) :
    slice (s.page offset) (placeOf offset + before.length) piece.length = piece := by
  by_cases hpiece : piece = []
  · subst hpiece
    rfl
  · have hle := h.le_size (by simp [hpiece])
    simp only [List.length_append] at hle
    obtain ⟨rest, hrest⟩ := h
    rw [slice_eq _ _ _ (by omega), ← List.drop_drop, ← hrest, List.append_assoc, List.drop_left,
      List.append_assoc, List.take_left]

/-- The number a held run starts with. -/
theorem degree_of_holds {degree : Nat} {body : List UInt8} (hoffset : offset ≠ 0)
    (h : s.Holds offset (littleEndian degreeHeader degree ++ body))
    (hfit : degree < UInt32.size) : s.degree offset = degree := by
  have hslice := slice_of_holds [] (littleEndian degreeHeader degree) body h
  rw [length_littleEndian, List.length_nil, Nat.add_zero] at hslice
  rw [PageTable.degree, if_neg hoffset, hslice, ofLittleEndian_littleEndian]
  exact Nat.mod_eq_of_lt hfit

end PageTable

end PagedGraph
