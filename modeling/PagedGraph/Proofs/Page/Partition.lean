import Mathlib.Data.List.Perm.Basic
import PagedGraph.Proofs.Page.Pool

/-!
# The pages of a pool

`Pool.Partitioned` says what all workers of a pool together leave.

* No index is given out twice, and a run stays inside one page of its own worker.
* The runs do not overlap, and every byte of every page is in one of them.
* Every run still has what was written into it last, zeros if nothing was, in its arena as
  well as in the table of all pages.

It holds after any steps (`Pool.partitioned_run`), since each of its fields can be read off
the invariant.
-/

namespace PagedGraph

theorem addUp_perm {ms ns : List Nat} (h : ms.Perm ns) : addUp ms = addUp ns :=
  h.foldr_eq 0

theorem addUp_map_flatMap {α β : Type} (f : α → List β) (g : β → Nat) (items : List α) :
    addUp ((items.flatMap f).map g) = addUp (items.map fun item => addUp ((f item).map g)) := by
  induction items with
  | nil => rfl
  | cons item rest ih =>
    rw [List.flatMap_cons, List.map_append, addUp_append, ih, List.map_cons, addUp_cons]

namespace Pool

variable {n : Nat} {s : Pool n}

/-- What holds of a pool at any time. -/
structure Partitioned (s : Pool n) : Prop where
  /-- No index is given out twice, to two workers or to a worker and a claim. -/
  nodup : s.indices.Nodup
  /-- The indices given out are those from 1 to the page count. -/
  mem_indices : ∀ index, index ∈ s.indices ↔ 1 ≤ index ∧ index < s.counter.pageCount
  addressed : ∀ h ∈ s.handles, 1 ≤ pageOf h.offset ∧ pageOf h.offset < s.counter.pageCount
  /-- A run is inside one page of its worker, and is all of it if it is longer than a page. -/
  inside : ∀ h ∈ s.handles, ∃ page ∈ (s.arenas h.worker).pages, page.index = pageOf h.offset ∧
    placeOf h.offset + h.bytes.length ≤ page.bytes.size ∧
    (pageSize < h.bytes.length → placeOf h.offset = 0 ∧ page.bytes.size = h.bytes.length)
  /-- Two runs have no byte in common. -/
  apart : s.handles.Pairwise fun h h' => ∀ index place, ¬(h.Owns index place ∧ h'.Owns index place)
  /-- Every byte of a page is in one run. -/
  owned : ∀ page ∈ s.pages, ∀ place < page.bytes.size,
    ∃! h, h ∈ s.handles ∧ h.Owns page.index place
  lengths : addUp (s.pages.map fun page => page.bytes.size) =
    addUp (s.handles.map fun h => h.bytes.length)
  /-- A new run is of zeros. -/
  zeroed : ∀ worker len pos, ∃ h, (s.step (.reserve worker len pos)).handles = s.handles ++ [h] ∧
    h.worker = worker ∧ h.bytes = List.replicate len 0
  /-- A run has the bytes written last. -/
  kept : ∀ h ∈ s.handles, (s.arenas h.worker).read h.offset h.bytes.length = h.bytes
  /-- When the pages are put into a table, each finds its slot empty. -/
  fresh : ∀ before page after, (before ++ page :: after).Perm s.pages →
    (PageTable.ofPages s.counter.pageCount before).pages[page.index]? = some #[]
  /-- A table of the pages has the bytes written last. -/
  stored : ∀ pages, pages.Perm s.pages → ∀ h ∈ s.handles,
    PageTable.slice ((PageTable.ofPages s.counter.pageCount pages).page h.offset)
      (placeOf h.offset) h.bytes.length = h.bytes

/-! ## What the invariant says -/

/-- Where the bytes of a handle are in its page. -/
theorem Inv.exists_around (hs : s.Inv) {h : Handle n} (hmem : h ∈ s.handles) :
    ∃ page ∈ (s.arenas h.worker).pages, page.index = pageOf h.offset ∧ page ∈ s.pages ∧
      ∃ below above, page.bytes.toList = below ++ (h.bytes ++ above) ∧
        placeOf h.offset = below.length := by
  obtain ⟨page, hpage, hindex, hall⟩ := hs.exists_page hmem
  have hof : h ∈ handlesOf s.handles page.index :=
    List.mem_filter.mpr ⟨hmem, decide_eq_true hindex.symm⟩
  obtain ⟨front, back, hsplit⟩ := List.append_of_mem hof
  obtain ⟨below, above, hbytes, hplace, -⟩ := (hsplit ▸ hs.stacked page hall).exists_around
  exact ⟨page, hpage, hindex, hall, below, above, hbytes, hplace.trans (Nat.zero_add _)⟩

theorem Inv.runAt (hs : s.Inv) {h : Handle n} (hmem : h ∈ s.handles) :
    RunAt (s.arenas h.worker).pages h.offset h.bytes := by
  obtain ⟨page, hpage, hindex, -, below, above, hbytes, hplace⟩ := hs.exists_around hmem
  refine ⟨page, hpage, hindex, ?_⟩
  rw [hbytes, hplace, List.drop_left]
  exact List.prefix_append ..

/-- A run that is longer than a page is all of its page. -/
theorem Inv.eq_of_long (hs : s.Inv) {h : Handle n} {page : Page} (hmem : h ∈ s.handles)
    (hpage : page ∈ s.pages) (hindex : page.index = pageOf h.offset)
    (hlong : pageSize < page.bytes.size) :
    placeOf h.offset = 0 ∧ page.bytes.size = h.bytes.length := by
  have hof : h ∈ handlesOf s.handles page.index :=
    List.mem_filter.mpr ⟨hmem, decide_eq_true hindex.symm⟩
  have hone := (hs.short page hpage).resolve_left (Nat.not_le.mpr hlong)
  obtain ⟨first, hfirst⟩ := List.length_eq_one_iff.mp hone
  rw [hfirst, List.mem_singleton] at hof
  subst hof
  obtain ⟨hplace, hbytes⟩ := (hfirst ▸ hs.stacked page hpage).of_singleton
  exact ⟨hplace, by rw [← Array.length_toList, hbytes]⟩

theorem Inv.inside (hs : s.Inv) {h : Handle n} (hmem : h ∈ s.handles) :
    ∃ page ∈ (s.arenas h.worker).pages, page.index = pageOf h.offset ∧
      placeOf h.offset + h.bytes.length ≤ page.bytes.size ∧
      (pageSize < h.bytes.length → placeOf h.offset = 0 ∧ page.bytes.size = h.bytes.length) := by
  obtain ⟨page, hpage, hindex, hall, below, above, hbytes, hplace⟩ := hs.exists_around hmem
  have hle : placeOf h.offset + h.bytes.length ≤ page.bytes.size := by
    rw [← Array.length_toList, hbytes, List.length_append, List.length_append, hplace]
    omega
  exact ⟨page, hpage, hindex, hle, fun hlong => hs.eq_of_long hmem hall hindex (by omega)⟩

/-- Two handles of one page stand one after the other in it. -/
theorem Inv.apart (hs : s.Inv) :
    s.handles.Pairwise fun h h' => ∀ index place, ¬(h.Owns index place ∧ h'.Owns index place) := by
  refine List.pairwise_iff_forall_sublist.mpr fun {h h'} hsub => ?_
  rintro index place ⟨⟨hindex, hle, hlt⟩, hindex', hle', hlt'⟩
  obtain ⟨page, -, hpage, hall⟩ := hs.exists_page (hsub.subset List.mem_cons_self)
  have hpair : [h, h'].Sublist (handlesOf s.handles page.index) := by
    have hfilter := hsub.filter fun h => pageOf h.offset = page.index
    simpa [handlesOf, hpage, hindex, hindex'] using hfilter
  have hend := List.pairwise_iff_forall_sublist.mp (hs.stacked page hall).pairwise hpair
  omega

/-- Every byte of a page belongs to one handle. -/
theorem Inv.existsUnique_owner (hs : s.Inv) {page : Page} (hpage : page ∈ s.pages) {place : Nat}
    (hlt : place < page.bytes.size) : ∃! h, h ∈ s.handles ∧ h.Owns page.index place := by
  rw [← Array.length_toList] at hlt
  obtain ⟨h, hmem, howns⟩ :=
    (hs.stacked page hpage).exists_owner place (Nat.zero_le _) (by omega)
  obtain ⟨hmem, hindex⟩ := List.mem_filter.mp hmem
  refine ⟨h, ⟨hmem, of_decide_eq_true hindex, howns⟩, fun h' ⟨hmem', howns'⟩ => ?_⟩
  by_contra hne
  have hsymm : Std.Symm fun h h' : Handle n =>
      ∀ index place, ¬(h.Owns index place ∧ h'.Owns index place) :=
    ⟨fun _ _ hapart index place hboth => hapart index place hboth.symm⟩
  exact hs.apart.forall hmem' hmem hne _ _ ⟨howns', of_decide_eq_true hindex, howns⟩

/-- Page by page, the handles are all handles. -/
theorem flatMap_handlesOf_perm {indices : List Nat} (hnodup : indices.Nodup)
    (handles : List (Handle n)) (hcovered : ∀ h ∈ handles, pageOf h.offset ∈ indices) :
    (indices.flatMap (handlesOf handles)).Perm handles := by
  induction indices generalizing handles with
  | nil =>
    have hnone : handles = [] := List.eq_nil_iff_forall_not_mem.mpr fun h hmem =>
      List.not_mem_nil (hcovered h hmem)
    exact .of_eq hnone.symm
  | cons index rest ih =>
    obtain ⟨hnew, hrest⟩ := List.nodup_cons.mp hnodup
    -- the pages behind the first have the same handles without those of the first
    let others := handles.filter fun h => !decide (pageOf h.offset = index)
    have hothers : rest.flatMap (handlesOf handles) = rest.flatMap (handlesOf others) := by
      refine List.flatMap_congr fun other hother => ?_
      have hne : other ≠ index := fun heq => hnew (heq ▸ hother)
      rw [handlesOf, handlesOf, List.filter_filter]
      refine List.filter_congr fun h _ => ?_
      by_cases hpage : pageOf h.offset = other <;> simp [hpage, hne]
    have hperm := ih hrest others fun h hmem => by
      obtain ⟨hmem, hne⟩ := List.mem_filter.mp hmem
      exact (List.mem_cons.mp (hcovered h hmem)).resolve_left fun heq => by simp [heq] at hne
    rw [List.flatMap_cons, hothers]
    exact (hperm.append_left _).trans (List.filter_append_perm _ handles)

theorem Inv.lengths (hs : s.Inv) : addUp (s.pages.map fun page => page.bytes.size) =
    addUp (s.handles.map fun h => h.bytes.length) := by
  have hsizes : (s.pages.map fun page => page.bytes.size) = (s.pages.map Page.index).map
      fun index => addUp ((handlesOf s.handles index).map fun h => h.bytes.length) := by
    rw [List.map_map]
    refine List.map_congr_left fun page hpage => ?_
    rw [← Array.length_toList, (hs.stacked page hpage).length_eq]
    rfl
  have hcovered : ∀ h ∈ s.handles, pageOf h.offset ∈ s.pages.map Page.index := fun h hmem => by
    obtain ⟨page, -, hindex, hpage⟩ := hs.exists_page hmem
    exact List.mem_map.mpr ⟨page, hpage, hindex⟩
  rw [hsizes, ← addUp_map_flatMap]
  exact addUp_perm ((flatMap_handlesOf_perm (List.nodup_append.mp hs.nodup).2.1 s.handles
    hcovered).map _)

/-- A page finds its slot empty. -/
theorem Inv.fresh (hs : s.Inv) {before after : List Page} {page : Page}
    (hperm : (before ++ page :: after).Perm s.pages) :
    (PageTable.ofPages s.counter.pageCount before).pages[page.index]? = some #[] := by
  have hnodup := (hperm.map Page.index).nodup_iff.mpr (List.nodup_append.mp hs.nodup).2.1
  rw [List.map_append] at hnodup
  have hnew : page.index ∉ before.map Page.index := fun hmem =>
    (List.nodup_append.mp hnodup).2.2 _ hmem _ List.mem_cons_self rfl
  have hlt : page.index < s.counter.pageCount :=
    hs.index_lt (hperm.mem_iff.mp (List.mem_append_right _ List.mem_cons_self))
  exact PageTable.getElem?_ofPages_of_not_mem hnew hlt

theorem Inv.stored (hs : s.Inv) {pages : List Page} (hperm : pages.Perm s.pages) {h : Handle n}
    (hmem : h ∈ s.handles) :
    PageTable.slice ((PageTable.ofPages s.counter.pageCount pages).page h.offset)
      (placeOf h.offset) h.bytes.length = h.bytes := by
  have hindices := hperm.map Page.index
  have hrun : RunAt pages h.offset h.bytes := (hs.runAt hmem).mono fun page hpage =>
    hperm.mem_iff.mpr (mem_pages.mpr ⟨_, hpage⟩)
  have hholds := PageTable.holds_ofPages
    (hindices.nodup_iff.mpr (List.nodup_append.mp hs.nodup).2.1)
    (fun index hindex => ((hs.mem_indices index).mp
      (List.mem_append_right _ (hindices.mem_iff.mp hindex))).2) hrun
  exact PageTable.slice_of_holds [] h.bytes [] (by rwa [List.append_nil])

/-- Whatever the workers did, their runs share no byte, fill the pages and keep what was
written. -/
theorem partitioned_run (steps : List (PoolStep n)) : (run steps).Partitioned := by
  have hs := inv_run steps
  exact {
    nodup := hs.nodup
    mem_indices := hs.mem_indices
    addressed := fun h hmem => by
      obtain ⟨page, -, hindex, hpage⟩ := hs.exists_page hmem
      rw [← hindex]
      exact (hs.mem_indices _).mp (List.mem_append_right _ (List.mem_map_of_mem hpage))
    inside := fun _ => hs.inside
    apart := hs.apart
    owned := fun _ hpage _ => hs.existsUnique_owner hpage
    lengths := hs.lengths
    zeroed := fun worker _ pos => (hs.reserve worker pos).2
    kept := fun h hmem => PageArena.read_of_runAt (hs.indices_nodup h.worker) (hs.runAt hmem)
    fresh := fun _ _ _ => hs.fresh
    stored := fun _ hperm _ => hs.stored hperm }

end Pool

end PagedGraph
