import PagedGraph.Page.Table

/-!
# Runs in an arena

Putting a run into an arena does one of three things.  It opens a page for this run
alone, it adds the run behind the bytes of the open page, or it opens a new page with
the run in front.  `PageArena.put_cases` says so, and all else follows from it.

* `PageArena.Sound` is the invariant of an arena and the counter of its pages: the
  indices are positive, below the counter and all different.
* `RunAt pages offset run` says that `run` is written at an offset of some pages.
* `PageArena.put_runAt` finds the new run, and `PageArena.put_keeps` the old ones.
-/

namespace PagedGraph

/-! ## Bytes -/

/-- Overwriting replaces a piece of the bytes by one of the same length. -/
theorem Page.toList_overwrite (back run : List UInt8) :
    ∀ (front old : List UInt8) (bytes : Array UInt8), bytes.toList = front ++ (old ++ back) →
      old.length = run.length →
      (Page.overwrite bytes front.length run).toList = front ++ (run ++ back) := by
  induction run with
  | nil =>
    intro front old bytes hbytes hlen
    rw [List.length_nil, List.length_eq_zero_iff] at hlen
    subst hlen
    rw [Page.overwrite, hbytes]
  | cons b rest ih =>
    intro front old bytes hbytes hlen
    cases old with
    | nil => cases hlen
    | cons o old =>
      have hset : (bytes.setIfInBounds front.length b).toList =
          (front ++ [b]) ++ (old ++ back) := by
        rw [Array.toList_setIfInBounds, hbytes]
        simp
      have hrest := ih (front ++ [b]) old _ hset (Nat.succ.inj hlen)
      rw [List.length_append, List.length_singleton] at hrest
      rw [Page.overwrite, hrest]
      simp

/-- Growing adds zeros. -/
theorem Page.toList_grow (n : Nat) :
    ∀ page : Page, (page.grow n).index = page.index ∧
      (page.grow n).bytes.toList = page.bytes.toList ++ List.replicate n 0 := by
  induction n with
  | zero =>
    intro page
    simp [Page.grow]
  | succ n ih =>
    intro page
    obtain ⟨hindex, hbytes⟩ := ih ⟨page.index, page.bytes.push 0⟩
    refine ⟨hindex, ?_⟩
    rw [Page.grow, hbytes]
    simp [List.replicate_succ]

/-- A run written over zeros of its length, which stand behind some bytes. -/
theorem Page.write_grow (page : Page) (run : List UInt8) :
    (page.grow run.length).write page.bytes.size run =
      ⟨page.index, page.bytes ++ run.toArray⟩ := by
  obtain ⟨hindex, hbytes⟩ := Page.toList_grow run.length page
  have hrun := Page.toList_overwrite [] run page.bytes.toList
    (List.replicate run.length 0) _ (by rw [List.append_nil, hbytes]) (List.length_replicate ..)
  rw [@Array.length_toList _ page.bytes, List.append_nil] at hrun
  rw [Page.write, hindex]
  congr 1
  apply Array.toList_inj.mp
  rw [hrun, Array.toList_append]

/-- A run written over a page of zeros of its length. -/
theorem Page.write_replicate (index : Nat) (run : List UInt8) :
    (Page.mk index (Array.replicate run.length 0)).write 0 run = ⟨index, run.toArray⟩ := by
  have hrun := Page.toList_overwrite [] run [] (List.replicate run.length 0)
    (Array.replicate run.length 0) (by simp) (List.length_replicate ..)
  rw [List.length_nil, List.nil_append, List.append_nil] at hrun
  rw [Page.write]
  congr 1
  exact Array.toList_inj.mp hrun

/-! ## Runs in pages -/

/-- A run is written at an offset: in the page of the offset, from its place on. -/
def RunAt (pages : List Page) (offset : Nat) (run : List UInt8) : Prop :=
  ∃ page ∈ pages, page.index = pageOf offset ∧ run <+: page.bytes.toList.drop (placeOf offset)

theorem RunAt.mono {pages more : List Page} {offset : Nat} {run : List UInt8}
    (h : RunAt pages offset run) (hsub : ∀ page ∈ pages, page ∈ more) : RunAt more offset run := by
  obtain ⟨page, hpage, hindex, hrun⟩ := h
  exact ⟨page, hsub page hpage, hindex, hrun⟩

theorem RunAt.front {pages : List Page} {index : Nat} {run : List UInt8}
    (h : ⟨index, run.toArray⟩ ∈ pages) : RunAt pages (joinOffset index 0) run := by
  refine ⟨_, h, (pageOf_joinOffset pageSize_pos).symm, ?_⟩
  rw [placeOf_joinOffset pageSize_pos]
  exact List.prefix_refl run

theorem RunAt.behind {pages : List Page} {index : Nat} {bytes : Array UInt8} {run : List UInt8}
    (h : ⟨index, bytes ++ run.toArray⟩ ∈ pages) (hplace : bytes.size < pageSize) :
    RunAt pages (joinOffset index bytes.size) run := by
  refine ⟨_, h, (pageOf_joinOffset hplace).symm, ?_⟩
  rw [placeOf_joinOffset hplace]
  have hdrop : (bytes ++ run.toArray).toList.drop bytes.size = run := by
    rw [Array.toList_append, ← Array.length_toList, List.drop_left]
  exact ⟨[], by rw [hdrop, List.append_nil]⟩

namespace PageArena

/-- The indices of the pages of an arena. -/
def indices (a : PageArena) : List Nat := a.pages.map Page.index

/-- The pages of an arena have positive indices below the counter, all different. -/
structure Sound (c : PageCounter) (a : PageArena) : Prop where
  pos : 0 < c.next
  bounds : ∀ i ∈ a.indices, 0 < i ∧ i < c.next
  nodup : a.indices.Nodup

theorem pages_eq (a : PageArena) : a.pages = a.full.toList ++ a.filling.toList := by
  obtain ⟨filling, full⟩ := a
  cases filling with
  | none => simp [pages, sealOpen]
  | some page => simp [pages, sealOpen]

/-- An arena with no pages. -/
theorem sound_empty {c : PageCounter} (h : 0 < c.next) : Sound c {} :=
  ⟨h, by simp [indices, pages_eq], by simp [indices, pages_eq]⟩

variable {c : PageCounter} {a : PageArena} {run : List UInt8}

/-- No page of an arena has the index its counter gives next. -/
theorem Sound.index_ne (h : Sound c a) {page : Page} (hpage : page ∈ a.pages) :
    page.index ≠ c.next :=
  Nat.ne_of_lt (h.bounds page.index (List.mem_map_of_mem hpage)).2

/-- A write to a page that is not open leaves the open page as it is. -/
theorem write_of_ne {offset : Nat} (h : ∀ page ∈ a.filling, page.index ≠ pageOf offset) :
    a.write offset run = ⟨a.filling, a.full.map fun page =>
      if page.index = pageOf offset then page.write (placeOf offset) run else page⟩ := by
  obtain ⟨filling, full⟩ := a
  cases filling with
  | none => simp [write, isFilling]
  | some page =>
    have hne := h page rfl
    simp [write, isFilling, hne]

theorem write_filling {page : Page} {full : Array Page} {offset : Nat}
    (h : page.index = pageOf offset) :
    write ⟨some page, full⟩ offset run = ⟨some (page.write (placeOf offset) run), full⟩ := by
  simp [write, isFilling, h]

/-- A run longer than a page gets a page of its own. -/
theorem put_long (h : Sound c a) (hrun : pageSize < run.length) :
    a.put c run = (joinOffset c.next 0, ⟨c.next + 1⟩,
      ⟨a.filling, a.full.push ⟨c.next, run.toArray⟩⟩) := by
  have hpage : pageOf (joinOffset c.next 0) = c.next := pageOf_joinOffset pageSize_pos
  have hplace : placeOf (joinOffset c.next 0) = 0 := placeOf_joinOffset pageSize_pos
  have hfilling : ∀ page ∈ a.filling, page.index ≠ c.next := fun page hmem =>
    h.index_ne (by rw [pages_eq]; exact List.mem_append_right _ (by simpa using hmem))
  have hfull : ∀ page ∈ a.full, page.index ≠ c.next := fun page hmem =>
    h.index_ne (by rw [pages_eq]; exact List.mem_append_left _ (by simpa using hmem))
  rw [put, reserve, if_pos hrun]
  simp only [PageCounter.take]
  rw [write_of_ne (by rw [hpage]; exact hfilling), hpage, hplace]
  congr 3
  rw [Array.map_push, if_pos rfl, Page.write_replicate]
  congr 1
  apply Array.toList_inj.mp
  rw [Array.toList_map]
  refine (List.map_congr_left fun page hmem => ?_).trans (List.map_id _)
  rw [if_neg (hfull page (by simpa using hmem)), id]

/-- A run that fits goes behind the bytes of the open page. -/
theorem put_fitting {page : Page} {full : Array Page} (hpos : run ≠ [])
    (hrun : page.bytes.size + run.length ≤ pageSize) :
    put c ⟨some page, full⟩ run = (joinOffset page.index page.bytes.size, c,
      ⟨some ⟨page.index, page.bytes ++ run.toArray⟩, full⟩) := by
  have hlen := List.length_pos_iff.mpr hpos
  have hlt : page.bytes.size < pageSize := by omega
  have hfits : fits ⟨some page, full⟩ run.length = true := by simpa [fits] using hrun
  rw [put, reserve, if_neg (by omega), if_pos hfits]
  simp only [extend]
  rw [write_filling (by rw [pageOf_joinOffset hlt]; exact (Page.toList_grow ..).1),
    placeOf_joinOffset hlt, Page.write_grow]

/-- A run that does not fit opens a new page. -/
theorem put_opening (hrun : run.length ≤ pageSize) (hfits : a.fits run.length = false) :
    a.put c run = (joinOffset c.next 0, ⟨c.next + 1⟩,
      ⟨some ⟨c.next, run.toArray⟩, a.sealOpen.full⟩) := by
  have hpage : pageOf (joinOffset c.next 0) = c.next := pageOf_joinOffset pageSize_pos
  have hplace : placeOf (joinOffset c.next 0) = 0 := placeOf_joinOffset pageSize_pos
  have hwrite := Page.write_grow ⟨c.next, #[]⟩ run
  rw [put, reserve, if_neg (by omega), if_neg (by simp [hfits])]
  simp only [PageCounter.take, extend]
  rw [write_filling (by rw [Array.size_empty, hpage]; exact (Page.toList_grow ..).1)]
  rw [Array.size_empty] at hwrite ⊢
  rw [hplace, hwrite, Array.empty_append]

/-- What putting a run can do. -/
theorem put_cases (h : Sound c a) (hpos : run ≠ []) :
    (a.put c run = (joinOffset c.next 0, ⟨c.next + 1⟩,
        ⟨a.filling, a.full.push ⟨c.next, run.toArray⟩⟩)) ∨
      (∃ page, a.filling = some page ∧ page.bytes.size < pageSize ∧
        a.put c run = (joinOffset page.index page.bytes.size, c,
          ⟨some ⟨page.index, page.bytes ++ run.toArray⟩, a.full⟩)) ∨
      (a.put c run = (joinOffset c.next 0, ⟨c.next + 1⟩,
        ⟨some ⟨c.next, run.toArray⟩, a.sealOpen.full⟩)) := by
  have hlen := List.length_pos_iff.mpr hpos
  by_cases hlong : pageSize < run.length
  · exact .inl (put_long h hlong)
  · cases hfits : a.fits run.length with
    | false => exact .inr (.inr (put_opening (by omega) hfits))
    | true =>
      obtain ⟨filling, full⟩ := a
      cases filling with
      | none => cases hfits
      | some page =>
        have hroom : page.bytes.size + run.length ≤ pageSize := of_decide_eq_true hfits
        exact .inr (.inl ⟨page, rfl, by omega, put_fitting hpos hroom⟩)

/-- An offset in a page is not the offset that stands for no run. -/
theorem joinOffset_ne_zero {page place : Nat} (hpage : 0 < page) (hplace : place < pageSize) :
    joinOffset page place ≠ 0 := by
  rw [joinOffset_eq hplace]
  have := Nat.mul_pos hpage pageSize_pos
  omega

theorem put_ne_zero (h : Sound c a) (hpos : run ≠ []) : (a.put c run).1 ≠ 0 := by
  rcases put_cases h hpos with heq | ⟨page, hfilling, hlt, heq⟩ | heq
  · rw [heq]
    exact joinOffset_ne_zero h.pos pageSize_pos
  · rw [heq]
    have hmem : page.index ∈ a.indices := by
      rw [indices, pages_eq, hfilling]
      simp
    exact joinOffset_ne_zero (h.bounds _ hmem).1 hlt
  · rw [heq]
    exact joinOffset_ne_zero h.pos pageSize_pos

/-- The run that was put can be found. -/
theorem put_runAt (h : Sound c a) (hpos : run ≠ []) :
    RunAt (a.put c run).2.2.pages (a.put c run).1 run := by
  rcases put_cases h hpos with heq | ⟨page, hfilling, hlt, heq⟩ | heq
  · rw [heq, pages_eq]
    exact RunAt.front (by simp)
  · rw [heq, pages_eq]
    exact RunAt.behind (by simp) hlt
  · rw [heq, pages_eq]
    exact RunAt.front (by simp)

/-- The runs that were there can still be found. -/
theorem put_keeps (h : Sound c a) (hpos : run ≠ []) {offset : Nat} {old : List UInt8}
    (hold : RunAt a.pages offset old) : RunAt (a.put c run).2.2.pages offset old := by
  rcases put_cases h hpos with heq | ⟨page, hfilling, hlt, heq⟩ | heq
  · rw [heq]
    refine hold.mono fun p hp => ?_
    rw [pages_eq] at hp ⊢
    simp only [List.mem_append, Array.toList_push, List.mem_singleton] at hp ⊢
    exact hp.imp_left .inl
  · rw [heq]
    obtain ⟨p, hp, hindex, hprefix⟩ := hold
    rw [pages_eq, List.mem_append, hfilling] at hp
    rcases hp with hp | hp
    · refine ⟨p, ?_, hindex, hprefix⟩
      rw [pages_eq]
      exact List.mem_append_left _ hp
    · -- the open page has grown, and the old run lies in front of the new bytes
      have hpage : p = page := by simpa using hp
      subst hpage
      refine ⟨⟨p.index, p.bytes ++ run.toArray⟩, by simp [pages_eq], hindex, ?_⟩
      rw [Array.toList_append, List.drop_append]
      exact hprefix.trans (List.prefix_append ..)
  · rw [heq]
    refine hold.mono fun p hp => ?_
    rw [pages_eq] at ⊢
    exact List.mem_append_left _ hp

/-- A page after a put has an old index or the one the counter gave. -/
theorem put_indices (h : Sound c a) (hpos : run ≠ []) :
    (a.put c run).2.2.indices = a.indices ∧ (a.put c run).2.1 = c ∨
      (a.put c run).2.2.indices.Perm (c.next :: a.indices) ∧ (a.put c run).2.1 = ⟨c.next + 1⟩ := by
  rcases put_cases h hpos with heq | ⟨page, hfilling, hlt, heq⟩ | heq
  · refine .inr ⟨?_, by rw [heq]⟩
    simp only [heq, indices, pages_eq, Array.toList_push, List.map_append, List.map_cons,
      List.append_assoc, List.singleton_append]
    exact List.perm_middle
  · refine .inl ⟨?_, by rw [heq]⟩
    simp [heq, indices, pages_eq, hfilling]
  · refine .inr ⟨?_, by rw [heq]⟩
    simp only [heq, indices]
    rw [pages_eq]
    simp only [Option.toList_some, List.map_append, List.map_cons, List.map_nil]
    exact List.perm_append_comm

/-- Putting a run keeps the invariant. -/
theorem put_sound (h : Sound c a) (hpos : run ≠ []) :
    Sound (a.put c run).2.1 (a.put c run).2.2 := by
  rcases put_indices h hpos with ⟨hindices, hcounter⟩ | ⟨hindices, hcounter⟩
  · rw [hcounter]
    exact ⟨h.pos, by rw [hindices]; exact h.bounds, by rw [hindices]; exact h.nodup⟩
  · refine ⟨by rw [hcounter]; exact Nat.succ_pos _, fun i hi => ?_, ?_⟩
    · rw [hcounter]
      rcases List.mem_cons.mp (hindices.mem_iff.mp hi) with rfl | hi
      · exact ⟨h.pos, Nat.lt_succ_self _⟩
      · exact ⟨(h.bounds i hi).1, Nat.lt_succ_of_lt (h.bounds i hi).2⟩
    · refine hindices.nodup_iff.mpr (List.nodup_cons.mpr ⟨fun hmem => ?_, h.nodup⟩)
      exact Nat.lt_irrefl _ (h.bounds _ hmem).2

end PageArena

end PagedGraph
