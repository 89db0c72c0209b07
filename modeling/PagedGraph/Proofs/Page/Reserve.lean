import Mathlib.Data.List.Nodup
import PagedGraph.Proofs.Page.Arena

/-!
# Reservations

Up to the order of pages a reservation does one of two things: it adds a page of zeros of
its own length, or it adds zeros behind the bytes of a page that has room
(`PageArena.reserve_cases`).  A write at an offset changes the one page of that index
(`PageArena.pages_write`), and `PageArena.read` finds what a page holds there
(`PageArena.read_of_runAt`).
-/

namespace PagedGraph

/-- Growing puts zeros behind the bytes. -/
theorem Page.grow_eq (page : Page) (len : Nat) :
    page.grow len = ⟨page.index, page.bytes ++ (List.replicate len 0).toArray⟩ := by
  obtain ⟨hindex, hbytes⟩ := Page.toList_grow len page
  have hzeros : (page.grow len).bytes = page.bytes ++ (List.replicate len 0).toArray := by
    apply Array.toList_inj.mp
    rw [hbytes, Array.toList_append]
  rw [← hzeros]
  exact congrArg (Page.mk · _) hindex

/-- What a write at an offset makes of a page. -/
def Page.writeAt (offset : Nat) (run : List UInt8) (page : Page) : Page :=
  if page.index = pageOf offset then page.write (placeOf offset) run else page

@[simp] theorem Page.index_writeAt (offset : Nat) (run : List UInt8) (page : Page) :
    (page.writeAt offset run).index = page.index := by
  rw [Page.writeAt]
  split <;> rfl

theorem Page.size_overwrite (run : List UInt8) :
    ∀ (bytes : Array UInt8) (place : Nat), (overwrite bytes place run).size = bytes.size := by
  induction run with
  | nil => exact fun _ _ => rfl
  | cons b rest ih =>
    intro bytes place
    rw [overwrite, ih, Array.size_setIfInBounds]

@[simp] theorem Page.size_writeAt (offset : Nat) (run : List UInt8) (page : Page) :
    (page.writeAt offset run).bytes.size = page.bytes.size := by
  rw [Page.writeAt]
  split
  · exact Page.size_overwrite ..
  · rfl

theorem Page.writeAt_of_ne {offset : Nat} {page : Page} (run : List UInt8)
    (h : page.index ≠ pageOf offset) : page.writeAt offset run = page := if_neg h

namespace PageArena

variable {a : PageArena} {offset : Nat} {run : List UInt8}

/-- What a reservation does. -/
theorem reserve_cases (c : PageCounter) (a : PageArena) (len : Nat) :
    (∃ opened : PageArena, a.reserve c len = (joinOffset c.next 0, ⟨c.next + 1⟩, opened) ∧
        opened.pages.Perm (⟨c.next, (List.replicate len 0).toArray⟩ :: a.pages)) ∨
      ∃ (page : Page) (rest : List Page) (grown : PageArena),
        page.bytes.size + len ≤ pageSize ∧
        a.reserve c len = (joinOffset page.index page.bytes.size, c, grown) ∧
        a.pages.Perm (page :: rest) ∧
        grown.pages.Perm (⟨page.index, page.bytes ++ (List.replicate len 0).toArray⟩ :: rest) := by
  rw [reserve]
  by_cases hlong : len > pageSize
  · rw [if_pos hlong]
    refine .inl ⟨_, rfl, ?_⟩
    simp only [pages_eq, Array.toList_push, List.append_assoc, List.singleton_append]
    rw [List.toArray_replicate]
    exact List.perm_middle
  · rw [if_neg hlong]
    cases hfits : a.fits len with
    | true =>
      rw [if_pos rfl]
      obtain ⟨filling, full⟩ := a
      cases filling with
      | none => cases hfits
      | some page =>
        refine .inr ⟨page, full.toList, ⟨some (page.grow len), full⟩, of_decide_eq_true hfits,
          rfl, ?_, ?_⟩
        · rw [pages_eq]
          exact List.perm_append_singleton ..
        · rw [pages_eq, Page.grow_eq]
          exact List.perm_append_singleton ..
    | false =>
      rw [if_neg Bool.false_ne_true]
      refine .inl ⟨_, rfl, ?_⟩
      rw [pages_eq, Page.grow_eq, Array.empty_append]
      exact List.perm_append_singleton ..

/-- A write at an offset changes the page of its index. -/
theorem pages_write (h : a.indices.Nodup) (offset : Nat) (run : List UInt8) :
    (a.write offset run).pages = a.pages.map (Page.writeAt offset run) := by
  by_cases hopen : ∃ page ∈ a.filling, page.index = pageOf offset
  · obtain ⟨page, hfilling, hindex⟩ := hopen
    obtain ⟨filling, full⟩ := a
    obtain rfl : filling = some page := hfilling
    -- the open page has the index, so none of the full ones has it
    have hfull : full.toList.map (Page.writeAt offset run) = full.toList := by
      refine (List.map_congr_left fun other hother => ?_).trans (List.map_id _)
      refine Page.writeAt_of_ne run fun heq => ?_
      rw [indices, pages_eq, List.map_append] at h
      exact (List.nodup_append.mp h).2.2 other.index (List.mem_map_of_mem hother) page.index
        (by simp) (heq.trans hindex.symm)
    rw [write_filling hindex, pages_eq, pages_eq, List.map_append, hfull]
    simp [Page.writeAt, hindex]
  · have hne : ∀ page ∈ a.filling, page.index ≠ pageOf offset := fun page hpage heq =>
      hopen ⟨page, hpage, heq⟩
    have hfilling : a.filling.toList.map (Page.writeAt offset run) = a.filling.toList := by
      refine (List.map_congr_left fun page hpage => ?_).trans (List.map_id _)
      exact Page.writeAt_of_ne run (hne page (by simpa using hpage))
    rw [write_of_ne hne, pages_eq, pages_eq, List.map_append, hfilling, Array.toList_map]
    rfl

/-- Writing leaves the indices as they are. -/
theorem indices_write (h : a.indices.Nodup) (offset : Nat) (run : List UInt8) :
    (a.write offset run).indices = a.indices := by
  rw [indices, pages_write h, List.map_map]
  exact List.map_congr_left fun page _ => Page.index_writeAt offset run page

/-- The bytes of a page of an arena. -/
theorem pageBytes_of_mem (h : a.indices.Nodup) {page : Page} (hpage : page ∈ a.pages) :
    a.pageBytes page.index = page.bytes := by
  have hsome : (a.pages.find? (·.index = page.index)).isSome :=
    List.find?_isSome.mpr ⟨page, hpage, by simp⟩
  obtain ⟨found, hfound⟩ := Option.isSome_iff_exists.mp hsome
  have hindex : found.index = page.index := by simpa using List.find?_some hfound
  have hsame : found = page :=
    List.inj_on_of_nodup_map h (List.mem_of_find?_eq_some hfound) hpage hindex
  rw [pageBytes, hfound, hsame]

/-- A run that is written in an arena is read back. -/
theorem read_of_runAt (h : a.indices.Nodup) (hrun : RunAt a.pages offset run) :
    a.read offset run.length = run := by
  obtain ⟨page, hpage, hindex, rest, hrest⟩ := hrun
  rw [read, ← hindex, pageBytes_of_mem h hpage, Array.toList_extract, List.extract_eq_take_drop,
    ← hrest, Nat.add_sub_cancel_left, List.take_left]

end PageArena

end PagedGraph
