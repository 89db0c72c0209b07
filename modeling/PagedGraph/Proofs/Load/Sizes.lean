import PagedGraph.Proofs.Load.Pages
import PagedGraph.Proofs.Page.Packing

/-!
# The size of a table

A table of runs has the pages that its shards fill, each shard for itself, and page 0.
`pageSizes` says how long these pages are, from the lengths of the runs of every shard.

* A table takes as many bytes as its pages hold (`PageTable.byteSize_ofPages`), so those of
  all runs together, however the runs are cut into shards.
* How many pages there are does depend on the shards.

`RunWriter.Sized` is the invariant of writing: every index the counter gave is that of a
page.  `RunTable.Lays` puts the sizes beside the runs of the nodes: it is all that later modules
know of a table of runs (`RunTable.lays_ofShards`).
-/

namespace PagedGraph

/-- The sizes of the pages that the runs of some shards fill, from the lengths of the runs. -/
def pageSizes (shards : List (List Nat)) : List Nat := shards.flatMap (packed 0)

/-- Pages hold no slack, whatever the shards. -/
theorem addUp_pageSizes (shards : List (List Nat)) :
    addUp (pageSizes shards) = addUp shards.flatten := by
  induction shards with
  | nil => rfl
  | cons lens rest ih =>
    rw [pageSizes, List.flatMap_cons, addUp_append, addUp_packed, ← pageSizes, ih, Nat.zero_add,
      List.flatten_cons, addUp_append]

theorem le_pageSize_of_mem_pageSizes {shards : List (List Nat)}
    (h : ∀ len ∈ shards.flatten, len ≤ pageSize) : ∀ size ∈ pageSizes shards, size ≤ pageSize := by
  intro size hsize
  obtain ⟨lens, hlens, hsize⟩ := List.mem_flatMap.mp hsize
  refine le_pageSize_of_mem_packed lens (fun len hlen => ?_) (Nat.zero_le _) hsize
  exact h len (List.mem_flatten.mpr ⟨lens, hlens, hlen⟩)

/-! ## Tables of pages -/

/-- A number put in the place of zero is added. -/
theorem addUp_set {x : Nat} (ns : List Nat) :
    ∀ {i : Nat}, ns[i]? = some 0 → addUp (ns.set i x) = addUp ns + x := by
  induction ns with
  | nil =>
    intro i h
    cases h
  | cons n ns ih =>
    intro i h
    cases i with
    | zero =>
      obtain rfl : n = 0 := by simpa using h
      rw [List.set_cons_zero, addUp_cons, addUp_cons, Nat.zero_add, Nat.add_comm]
    | succ i => rw [List.set_cons_succ, addUp_cons, addUp_cons, ih h, Nat.add_assoc]

namespace PageTable

/-- Pages put into empty slots, which are all different, add their bytes. -/
theorem addUp_foldl_fill (pages : List Page) :
    ∀ table : Array (Array UInt8), (pages.map Page.index).Nodup →
      (∀ page ∈ pages, table[page.index]? = some #[]) →
      addUp ((pages.foldl fill table).toList.map Array.size) =
        addUp (table.toList.map Array.size) + addUp (pages.map fun page => page.bytes.size) := by
  induction pages with
  | nil =>
    intro table _ _
    rfl
  | cons page rest ih =>
    intro table hnodup hempty
    rw [List.map_cons, List.nodup_cons] at hnodup
    have hslot : (table.toList.map Array.size)[page.index]? = some 0 := by
      rw [List.getElem?_map, Array.getElem?_toList, hempty page List.mem_cons_self]
      rfl
    have hrest : ∀ other ∈ rest, (fill table page)[other.index]? = some #[] := by
      intro other hother
      have hne : page.index ≠ other.index :=
        fun heq => hnodup.1 (heq ▸ List.mem_map_of_mem hother)
      rw [fill, Array.getElem?_setIfInBounds_ne hne]
      exact hempty other (List.mem_cons_of_mem page hother)
    rw [List.foldl_cons, ih _ hnodup.2 hrest, fill, Array.toList_setIfInBounds, List.map_set,
      addUp_set _ hslot, List.map_cons, addUp_cons, Nat.add_assoc]

theorem pageCount_ofPages (count : Nat) (pages : List Page) :
    (ofPages count pages).pageCount = count :=
  (size_foldl_fill pages _).trans Array.size_replicate

/-- A table takes the bytes of its pages. -/
theorem byteSize_ofPages {count : Nat} {pages : List Page} (hnodup : (pages.map Page.index).Nodup)
    (hlt : ∀ i ∈ pages.map Page.index, i < count) :
    (ofPages count pages).byteSize = addUp (pages.map fun page => page.bytes.size) := by
  have hempty : ∀ page ∈ pages, (Array.replicate count (#[] : Array UInt8))[page.index]? =
      some #[] := by
    intro page hpage
    rw [Array.getElem?_replicate, if_pos (hlt _ (List.mem_map_of_mem hpage))]
  have hzeros : (Array.replicate count (#[] : Array UInt8)).toList.map Array.size =
      (List.range count).map fun _ => 0 := by
    simp [List.map_const']
  have hblank : addUp ((Array.replicate count (#[] : Array UInt8)).toList.map Array.size) = 0 := by
    rw [hzeros, addUp_map_zero]
  have hfill := addUp_foldl_fill pages _ hnodup hempty
  rwa [hblank, Nat.zero_add] at hfill

end PageTable

/-! ## Writing -/

namespace RunWriter

/-- Every index that was given is that of a page, of an earlier shard or the present one. -/
structure Sized (before : List Page) (w : RunWriter) : Prop where
  sound : PageArena.Sound w.counter w.arena
  filling : w.arena.Filling
  next : w.counter.next = before.length + w.arena.pages.length + 1

variable {before : List Page} {w : RunWriter}

theorem sized_start : Sized [] {} where
  sound := PageArena.sound_empty Nat.one_pos
  filling := PageArena.filling_empty
  next := by simp [PageArena.pages_eq]

/-- A run that is written is the next that fills pages. -/
theorem Sized.write (h : Sized before w) (run : List UInt8) :
    Sized before (w.write run) ∧ ∀ rest : List Nat,
      (w.write run).arena.fullSizes ++ packed (w.write run).arena.opened rest =
        w.arena.fullSizes ++ packed w.arena.opened (run.length :: rest) := by
  obtain ⟨counter, arena, offsets⟩ := w
  by_cases hrun : run = []
  · subst hrun
    refine ⟨⟨h.sound, h.filling, h.next⟩, fun rest => ?_⟩
    have hopened : arena.opened ≤ pageSize := by
      obtain ⟨filling, full⟩ := arena
      cases filling with
      | none => exact Nat.zero_le _
      | some page => exact (h.filling page rfl).2
    rw [List.length_nil, packed_zero_cons hopened]
    rfl
  · have hempty : run.isEmpty = false := by simpa using hrun
    obtain ⟨hfilling, hpacked⟩ := PageArena.packed_put h.sound h.filling hrun
    have hbefore : counter.next = before.length + arena.pages.length + 1 := h.next
    have hnext : (arena.put counter run).2.1.next =
        before.length + (arena.put counter run).2.2.pages.length + 1 := by
      have hput : (arena.put counter run).2.1.next + arena.pages.length =
          counter.next + (arena.put counter run).2.2.pages.length := PageArena.next_put h.sound hrun
      omega
    simp only [RunWriter.write, hempty]
    exact ⟨⟨PageArena.put_sound h.sound hrun, hfilling, hnext⟩, hpacked⟩

theorem Sized.foldl_write (runs : List (List UInt8)) :
    ∀ {w : RunWriter}, Sized before w → Sized before (runs.foldl RunWriter.write w) ∧
      ∀ rest : List Nat,
        (runs.foldl RunWriter.write w).arena.fullSizes ++
            packed (runs.foldl RunWriter.write w).arena.opened rest =
          w.arena.fullSizes ++ packed w.arena.opened (runs.map List.length ++ rest) := by
  induction runs with
  | nil =>
    intro w h
    exact ⟨h, fun _ => rfl⟩
  | cons run runs ih =>
    intro w h
    obtain ⟨hwrite, hfirst⟩ := h.write run
    obtain ⟨hsized, hrest⟩ := ih hwrite
    refine ⟨hsized, fun rest => ?_⟩
    rw [List.foldl_cons, hrest, hfirst]
    rfl

theorem Sized.closeShard (h : Sized before w) :
    Sized (before ++ w.closeShard.1) w.closeShard.2 := by
  obtain ⟨counter, arena, offsets⟩ := w
  have hnext := h.next
  have hnone : (PageArena.pages {}).length = 0 := by simp [PageArena.pages_eq]
  refine ⟨PageArena.sound_empty h.sound.pos, PageArena.filling_empty, ?_⟩
  simp only [RunWriter.closeShard, List.length_append, hnone] at hnext ⊢
  exact hnext

/-- The pages of the shards that are written come behind those of earlier shards. -/
theorem Sized.writeShards (shards : List (List (List UInt8))) :
    ∀ {before : List Page} {w : RunWriter}, Sized before w → w.arena = {} →
      Sized (writeShards before w shards).1 (writeShards before w shards).2 ∧
        (writeShards before w shards).1.map (fun page => page.bytes.size) =
          before.map (fun page => page.bytes.size) ++
            pageSizes (shards.map fun runs => runs.map List.length) := by
  induction shards with
  | nil =>
    intro before w h _
    exact ⟨h, (List.append_nil _).symm⟩
  | cons runs rest ih =>
    intro before w h hblank
    obtain ⟨hsized, hpacked⟩ := h.foldl_write runs
    obtain ⟨hrest, hsizes⟩ := ih hsized.closeShard rfl
    refine ⟨hrest, ?_⟩
    have hpages : (runs.foldl RunWriter.write w).arena.pages.map (fun page => page.bytes.size) =
        packed 0 (runs.map List.length) := by
      rw [PageArena.sizes_pages hsized.filling, hpacked, hblank, List.append_nil]
      rfl
    rw [RunWriter.writeShards, hsizes, List.map_append, List.append_assoc, List.map_cons,
      pageSizes, pageSizes, List.flatMap_cons, ← hpages]
    rfl

end RunWriter

namespace RunTable

/-- The pages of a table and their number. -/
theorem pages_ofShards (shards : List (List (List UInt8))) :
    (ofShards shards).pages.byteSize =
        addUp (pageSizes (shards.map fun runs => runs.map List.length)) ∧
      (ofShards shards).pages.pageCount =
        1 + (pageSizes (shards.map fun runs => runs.map List.length)).length := by
  obtain ⟨hsized, hsizes⟩ := RunWriter.sized_start.writeShards shards rfl
  have hinv := RunWriter.inv_start.writeShards shards
  rw [List.map_nil, List.nil_append] at hsizes
  rw [← hsizes, List.length_map]
  constructor
  · exact PageTable.byteSize_ofPages (List.nodup_append.mp hinv.nodup).1 hinv.bounds
  · have hnext := hsized.next
    have hnone : (PageArena.pages {}).length = 0 := by simp [PageArena.pages_eq]
    rw [RunWriter.arena_writeShards shards [] {} rfl, hnone] at hnext
    refine (PageTable.pageCount_ofPages ..).trans ?_
    rw [PageCounter.pageCount, hnext]
    omega

/-- What a table of the runs of some shards is, wherever in its pages the runs lie. -/
structure Lays (t : RunTable) (shards : List (List (List UInt8))) : Prop where
  /-- There is an offset for every node. -/
  size_offsets : t.offsets.size = shards.flatten.length
  holds : ∀ {node run}, shards.flatten[node]? = some run → t.Holds node run
  /-- A table takes the bytes of its runs, however they are cut into shards. -/
  byteSize : t.pages.byteSize = addUp (shards.flatten.map List.length)
  /-- It has the pages its shards fill, and page 0. -/
  pageCount : t.pages.pageCount =
    1 + (pageSizes (shards.map fun runs => runs.map List.length)).length

theorem lays_ofShards (shards : List (List (List UInt8))) : (ofShards shards).Lays shards where
  size_offsets := size_offsets_ofShards shards
  holds := holds_ofShards
  byteSize := by rw [(pages_ofShards shards).1, addUp_pageSizes, List.map_flatten]
  pageCount := (pages_ofShards shards).2

end RunTable

end PagedGraph
