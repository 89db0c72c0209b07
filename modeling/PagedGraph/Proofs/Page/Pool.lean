import Mathlib.Data.List.FinRange
import Mathlib.Data.List.Pairwise
import Mathlib.Logic.Function.Basic
import PagedGraph.Proofs.Page.Reserve
import PagedGraph.Proofs.Page.Stack
import PagedGraph.Proofs.Page.Table

/-!
# Workers that share a counter

A `Pool` is any number of workers, each with an arena, that take page indices from one
counter.  Its steps come in any order: an index is claimed outside the arenas, a worker
reserves a run, or the bytes of a run reserved earlier are written.

`Pool.Inv` is what a step preserves, so it holds after every run (`Pool.inv_run`).  It knows
the handles of a page by their stack, so everything about the bytes of a page is a fact
about `Stacked`.
-/

namespace PagedGraph

/-- Workers with a common counter. -/
structure Pool (n : Nat) where
  counter : PageCounter := {}
  arenas : Fin n → PageArena := fun _ => {}
  /-- The indices that were claimed for no arena. -/
  claims : List Nat := []
  /-- All runs reserved so far, in order. -/
  handles : List (Handle n) := []

/-- What can be done with a pool. -/
inductive PoolStep (n : Nat) where
  /-- Take an index for no arena. -/
  | claim
  /-- Reserve a run of at least one byte. -/
  | reserve (worker : Fin n) (len : Nat) (pos : 0 < len)
  /-- Write all bytes of a run reserved earlier.  Nothing is done if there is no such run, or
  the bytes are not as many as it has. -/
  | fill (handle : Nat) (bytes : List UInt8)

namespace Pool

variable {n : Nat}

/-- The pages of some arenas. -/
def pagesOf (arenas : Fin n → PageArena) : List Page :=
  (List.finRange n).flatMap fun worker => (arenas worker).pages

/-- The pages of all workers. -/
def pages (s : Pool n) : List Page := pagesOf s.arenas

/-- All indices that were given out. -/
def indices (s : Pool n) : List Nat := s.claims ++ s.pages.map Page.index

/-- The handles of a page. -/
def handlesOf (handles : List (Handle n)) (index : Nat) : List (Handle n) :=
  handles.filter fun h => pageOf h.offset = index

/-- What one step of a worker does to the pool. -/
def step (s : Pool n) : PoolStep n → Pool n
  | .claim =>
    let (index, counter) := s.counter.take
    { s with counter, claims := s.claims ++ [index] }
  | .reserve worker len _ =>
    let (offset, counter, arena) := (s.arenas worker).reserve s.counter len
    { s with
      counter
      arenas := Function.update s.arenas worker arena
      handles := s.handles ++ [⟨worker, offset, arena.read offset len⟩] }
  | .fill handle bytes =>
    match s.handles[handle]? with
    | none => s
    | some h =>
      if bytes.length = h.bytes.length then
        { s with
          arenas := Function.update s.arenas h.worker ((s.arenas h.worker).write h.offset bytes)
          handles := s.handles.set handle { h with bytes } }
      else s

/-- A new pool after some steps. -/
def run (steps : List (PoolStep n)) : Pool n := steps.foldl step {}

/-! ## The invariant -/

/-- What every step preserves. -/
structure Inv (s : Pool n) : Prop where
  pos : 0 < s.counter.next
  nodup : s.indices.Nodup
  mem_indices : ∀ index, index ∈ s.indices ↔ 1 ≤ index ∧ index < s.counter.next
  home : ∀ h ∈ s.handles, pageOf h.offset ∈ (s.arenas h.worker).indices
  nonempty : ∀ h ∈ s.handles, h.bytes ≠ []
  /-- The bytes of a page are those of its handles. -/
  stacked : ∀ page ∈ s.pages, Stacked 0 (handlesOf s.handles page.index) page.bytes.toList
  /-- A page that is too long has one handle. -/
  short : ∀ page ∈ s.pages, page.bytes.size ≤ pageSize ∨ (handlesOf s.handles page.index).length = 1

variable {s : Pool n}

theorem mem_pages {page : Page} : page ∈ s.pages ↔ ∃ worker, page ∈ (s.arenas worker).pages := by
  simp [pages, pagesOf]

/-- The pages of one worker among all pages. -/
theorem exists_pagesOf_perm (arenas : Fin n → PageArena) (worker : Fin n) :
    ∃ others, (pagesOf arenas).Perm ((arenas worker).pages ++ others) ∧
      ∀ arena, (pagesOf (Function.update arenas worker arena)).Perm (arena.pages ++ others) := by
  obtain ⟨before, after, hsplit⟩ := List.append_of_mem (List.mem_finRange worker)
  have hnodup : (before ++ worker :: after).Nodup := hsplit ▸ List.nodup_finRange n
  have hperm : (List.finRange n).Perm (worker :: (before ++ after)) := by
    rw [hsplit]
    exact List.perm_middle
  have hne : ∀ other ∈ before ++ after, other ≠ worker := by
    rintro other hother rfl
    exact (List.nodup_cons.mp (List.perm_middle.nodup_iff.mp hnodup)).1 hother
  refine ⟨(before ++ after).flatMap fun other => (arenas other).pages,
    hperm.flatMap_right _, fun arena => (hperm.flatMap_right _).trans ?_⟩
  rw [List.flatMap_cons, Function.update_self]
  refine .append_left _ (.of_eq (List.flatMap_congr fun other hother => ?_))
  rw [Function.update_of_ne (hne other hother)]

/-- The pages of an arena have different indices. -/
theorem Inv.indices_nodup (hs : s.Inv) (worker : Fin n) : (s.arenas worker).indices.Nodup := by
  obtain ⟨others, hperm, _⟩ := exists_pagesOf_perm s.arenas worker
  have hall : (s.pages.map Page.index).Nodup := (List.nodup_append.mp hs.nodup).2.1
  have happ := (hperm.map Page.index).nodup_iff.mp hall
  rw [List.map_append] at happ
  exact (List.nodup_append.mp happ).1

theorem Inv.index_lt (hs : s.Inv) {page : Page} (hpage : page ∈ s.pages) :
    page.index < s.counter.next :=
  ((hs.mem_indices _).mp (List.mem_append_right _ (List.mem_map_of_mem hpage))).2

/-- The page of a handle. -/
theorem Inv.exists_page (hs : s.Inv) {h : Handle n} (hmem : h ∈ s.handles) :
    ∃ page ∈ (s.arenas h.worker).pages, page.index = pageOf h.offset ∧ page ∈ s.pages := by
  obtain ⟨page, hpage, hindex⟩ := List.mem_map.mp (hs.home h hmem)
  exact ⟨page, hpage, hindex, mem_pages.mpr ⟨_, hpage⟩⟩

/-- The indices given out when the next one is taken. -/
theorem Inv.take (hs : s.Inv) {indices : List Nat}
    (hperm : indices.Perm (s.counter.next :: s.indices)) :
    indices.Nodup ∧ ∀ index, index ∈ indices ↔ 1 ≤ index ∧ index < s.counter.next + 1 := by
  refine ⟨hperm.nodup_iff.mpr (List.nodup_cons.mpr ⟨fun hmem => ?_, hs.nodup⟩), fun index => ?_⟩
  · exact Nat.lt_irrefl _ ((hs.mem_indices _).mp hmem).2
  · have hpos := hs.pos
    rw [hperm.mem_iff, List.mem_cons, hs.mem_indices]
    omega

theorem handlesOf_concat_self (handles : List (Handle n)) (h : Handle n) :
    handlesOf (handles ++ [h]) (pageOf h.offset) = handlesOf handles (pageOf h.offset) ++ [h] := by
  simp [handlesOf, List.filter_append]

theorem handlesOf_concat_of_ne (handles : List (Handle n)) {h : Handle n} {index : Nat}
    (hne : pageOf h.offset ≠ index) :
    handlesOf (handles ++ [h]) index = handlesOf handles index := by
  simp [handlesOf, List.filter_append, hne]

/-- An index that is not given out yet has no handles. -/
theorem Inv.handlesOf_next (hs : s.Inv) : handlesOf s.handles s.counter.next = [] := by
  refine List.filter_eq_nil_iff.mpr fun h hmem heq => ?_
  obtain ⟨page, -, hindex, hpage⟩ := hs.exists_page hmem
  exact Nat.ne_of_lt (hs.index_lt hpage) (hindex.trans (of_decide_eq_true heq))

/-- Handles keep their homes if the arena of a new one keeps its indices. -/
theorem Inv.home_concat (hs : s.Inv) {h : Handle n} {arena : PageArena}
    (hsub : ∀ index ∈ (s.arenas h.worker).indices, index ∈ arena.indices)
    (hhome : pageOf h.offset ∈ arena.indices) :
    ∀ h' ∈ s.handles ++ [h],
      pageOf h'.offset ∈ (Function.update s.arenas h.worker arena h'.worker).indices := by
  refine List.forall_mem_append.mpr ⟨fun h' hmem => ?_, ?_⟩
  · by_cases hworker : h'.worker = h.worker
    · rw [hworker, Function.update_self]
      exact hsub _ (hworker ▸ hs.home h' hmem)
    · rw [Function.update_of_ne hworker]
      exact hs.home h' hmem
  · rw [List.forall_mem_singleton, Function.update_self]
    exact hhome

theorem Inv.nonempty_concat (hs : s.Inv) {h : Handle n} (hbytes : h.bytes ≠ []) :
    ∀ h' ∈ s.handles ++ [h], h'.bytes ≠ [] :=
  List.forall_mem_append.mpr ⟨hs.nonempty, List.forall_mem_singleton.mpr hbytes⟩

/-! ## Steps -/

/-- Claiming an index keeps the invariant. -/
theorem Inv.claim (hs : s.Inv) : (s.step .claim).Inv := by
  have hperm : (s.step .claim).indices.Perm (s.counter.next :: s.indices) := by
    change ((s.claims ++ [s.counter.next]) ++ _).Perm _
    rw [List.append_assoc]
    exact List.perm_middle
  exact {
    pos := Nat.succ_pos _
    nodup := (hs.take hperm).1
    mem_indices := (hs.take hperm).2
    home := hs.home
    nonempty := hs.nonempty
    stacked := hs.stacked
    short := hs.short }

/-- A handle in a page of its own keeps the invariant. -/
theorem Inv.opening (hs : s.Inv) {h : Handle n} {opened : PageArena} (hbytes : h.bytes ≠ [])
    (hindex : pageOf h.offset = s.counter.next) (hplace : placeOf h.offset = 0)
    (hperm : opened.pages.Perm
      (⟨s.counter.next, h.bytes.toArray⟩ :: (s.arenas h.worker).pages)) :
    Inv ⟨⟨s.counter.next + 1⟩, Function.update s.arenas h.worker opened, s.claims,
      s.handles ++ [h]⟩ := by
  obtain ⟨others, hpages, hupdate⟩ := exists_pagesOf_perm s.arenas h.worker
  have hall : (pagesOf (Function.update s.arenas h.worker opened)).Perm
      (⟨s.counter.next, h.bytes.toArray⟩ :: s.pages) :=
    (hupdate opened).trans ((hperm.append_right others).trans (hpages.symm.cons _))
  have htake := hs.take (((hall.map Page.index).append_left s.claims).trans List.perm_middle)
  have hindices := fun index => (hperm.map Page.index).mem_iff (a := index)
  -- the new page has the new handle, the others keep theirs
  have hnew : handlesOf (s.handles ++ [h]) s.counter.next = [h] := by
    have hself := handlesOf_concat_self s.handles h
    rwa [hindex, hs.handlesOf_next, List.nil_append] at hself
  have hold : ∀ page ∈ s.pages,
      handlesOf (s.handles ++ [h]) page.index = handlesOf s.handles page.index := fun page hmem =>
    handlesOf_concat_of_ne _ (by rw [hindex]; exact (Nat.ne_of_lt (hs.index_lt hmem)).symm)
  exact {
    pos := Nat.succ_pos _
    nodup := htake.1
    mem_indices := htake.2
    home := hs.home_concat (fun index hmem => (hindices index).mpr (List.mem_cons_of_mem _ hmem))
      ((hindices _).mpr (by rw [hindex]; exact List.mem_cons_self))
    nonempty := hs.nonempty_concat hbytes
    stacked := fun page hmem => by
      rcases List.mem_cons.mp (hall.mem_iff.mp hmem) with rfl | hmem
      · rw [hnew, ← hplace]
        exact Stacked.singleton h
      · rw [hold page hmem]
        exact hs.stacked page hmem
    short := fun page hmem => by
      rcases List.mem_cons.mp (hall.mem_iff.mp hmem) with rfl | hmem
      · exact .inr (by rw [hnew, List.length_singleton])
      · rw [hold page hmem]
        exact hs.short page hmem }

/-- A handle behind the bytes of a page keeps the invariant. -/
theorem Inv.growing (hs : s.Inv) {h : Handle n} {page : Page} {rest : List Page}
    {grown : PageArena} (hbytes : h.bytes ≠ []) (hindex : pageOf h.offset = page.index)
    (hplace : placeOf h.offset = page.bytes.size)
    (hroom : page.bytes.size + h.bytes.length ≤ pageSize)
    (hbefore : (s.arenas h.worker).pages.Perm (page :: rest))
    (hafter : grown.pages.Perm (⟨page.index, page.bytes ++ h.bytes.toArray⟩ :: rest)) :
    Inv ⟨s.counter, Function.update s.arenas h.worker grown, s.claims, s.handles ++ [h]⟩ := by
  obtain ⟨others, hpages, hupdate⟩ := exists_pagesOf_perm s.arenas h.worker
  have hold : s.pages.Perm (page :: (rest ++ others)) := hpages.trans (hbefore.append_right others)
  have hall : (pagesOf (Function.update s.arenas h.worker grown)).Perm
      (⟨page.index, page.bytes ++ h.bytes.toArray⟩ :: (rest ++ others)) :=
    (hupdate grown).trans (hafter.append_right others)
  have hindices : (s.claims ++ (pagesOf (Function.update s.arenas h.worker grown)).map
      Page.index).Perm s.indices :=
    ((hall.map Page.index).trans (hold.map Page.index).symm).append_left _
  have hhome : ∀ index, index ∈ (s.arenas h.worker).indices ↔ index ∈ grown.indices := fun index =>
    ((hbefore.map Page.index).trans (hafter.map Page.index).symm).mem_iff
  have hpage : page ∈ s.pages := hold.mem_iff.mpr List.mem_cons_self
  have hrest : ∀ other ∈ rest ++ others, other ∈ s.pages ∧ page.index ≠ other.index := by
    intro other hmem
    have hnodup := (hold.map Page.index).nodup_iff.mp (List.nodup_append.mp hs.nodup).2.1
    refine ⟨hold.mem_iff.mpr (List.mem_cons_of_mem _ hmem), fun heq => ?_⟩
    exact (List.nodup_cons.mp hnodup).1 (heq ▸ List.mem_map_of_mem hmem)
  -- the page has the new handle on top, the others keep theirs
  have hnew : handlesOf (s.handles ++ [h]) page.index = handlesOf s.handles page.index ++ [h] :=
    hindex ▸ handlesOf_concat_self s.handles h
  have hkeep : ∀ other ∈ rest ++ others,
      handlesOf (s.handles ++ [h]) other.index = handlesOf s.handles other.index :=
    fun other hmem => handlesOf_concat_of_ne _ (by rw [hindex]; exact (hrest other hmem).2)
  exact {
    pos := hs.pos
    nodup := hindices.nodup_iff.mpr hs.nodup
    mem_indices := fun index => hindices.mem_iff.trans (hs.mem_indices index)
    home := hs.home_concat (fun index => (hhome index).mp)
      (List.mem_map.mpr ⟨_, hafter.mem_iff.mpr List.mem_cons_self, hindex.symm⟩)
    nonempty := hs.nonempty_concat hbytes
    stacked := fun other hmem => by
      rcases List.mem_cons.mp (hall.mem_iff.mp hmem) with rfl | hmem
      · rw [hnew, Array.toList_append]
        refine (hs.stacked page hpage).append ?_
        rw [Nat.zero_add, Array.length_toList, ← hplace]
        exact Stacked.singleton h
      · rw [hkeep other hmem]
        exact hs.stacked other (hrest other hmem).1
    short := fun other hmem => by
      rcases List.mem_cons.mp (hall.mem_iff.mp hmem) with rfl | hmem
      · exact .inl (by rw [Array.size_append, List.size_toArray]; exact hroom)
      · rw [hkeep other hmem]
        exact hs.short other (hrest other hmem).1 }

/-- Reserving keeps the invariant, and gives a handle of zeros. -/
theorem Inv.reserve (hs : s.Inv) (worker : Fin n) {len : Nat} (pos : 0 < len) :
    (s.step (.reserve worker len pos)).Inv ∧
      ∃ h, (s.step (.reserve worker len pos)).handles = s.handles ++ [h] ∧ h.worker = worker ∧
        h.bytes = List.replicate len 0 := by
  have hzeros : List.replicate len (0 : UInt8) ≠ [] := by
    rw [Ne, List.replicate_eq_nil_iff]
    exact Nat.ne_of_gt pos
  rcases PageArena.reserve_cases s.counter (s.arenas worker) len with
    ⟨opened, heq, hperm⟩ | ⟨page, rest, grown, hroom, heq, hbefore, hafter⟩
  · have hinv := hs.opening (h := ⟨worker, joinOffset s.counter.next 0, List.replicate len 0⟩)
      hzeros (pageOf_joinOffset pageSize_pos) (placeOf_joinOffset pageSize_pos) hperm
    have hnodup := hinv.indices_nodup worker
    simp only [Function.update_self] at hnodup
    have hread := PageArena.read_of_runAt hnodup
      (RunAt.front (hperm.mem_iff.mpr List.mem_cons_self))
    rw [List.length_replicate] at hread
    simp only [step, heq, hread]
    exact ⟨hinv, _, rfl, rfl, rfl⟩
  · have hlt : page.bytes.size < pageSize := by omega
    have hinv := hs.growing
      (h := ⟨worker, joinOffset page.index page.bytes.size, List.replicate len 0⟩)
      hzeros (pageOf_joinOffset hlt) (placeOf_joinOffset hlt)
      (by rw [List.length_replicate]; exact hroom) hbefore hafter
    have hnodup := hinv.indices_nodup worker
    simp only [Function.update_self] at hnodup
    have hread := PageArena.read_of_runAt hnodup
      (RunAt.behind (hafter.mem_iff.mpr List.mem_cons_self) hlt)
    rw [List.length_replicate] at hread
    simp only [step, heq, hread]
    exact ⟨hinv, _, rfl, rfl, rfl⟩

section Fill

variable {front back : List (Handle n)} {h h' : Handle n}

/-- A write through a handle changes the page of the handle and no other. -/
theorem Inv.pagesOf_write (hs : s.Inv) (hmem : h ∈ s.handles) (bytes : List UInt8) :
    (pagesOf (Function.update s.arenas h.worker
      ((s.arenas h.worker).write h.offset bytes))).Perm
        (s.pages.map (Page.writeAt h.offset bytes)) := by
  obtain ⟨others, hpages, hupdate⟩ := exists_pagesOf_perm s.arenas h.worker
  -- the page is in the arena of the handle's worker, so no page of another has its index
  have hothers : others.map (Page.writeAt h.offset bytes) = others := by
    refine (List.map_congr_left fun other hother => ?_).trans (List.map_id _)
    refine Page.writeAt_of_ne _ fun heq => ?_
    have hall := (hpages.map Page.index).nodup_iff.mp (List.nodup_append.mp hs.nodup).2.1
    rw [List.map_append] at hall
    exact (List.nodup_append.mp hall).2.2 _ (hs.home h hmem) _ (List.mem_map_of_mem hother)
      heq.symm
  have hmap := (hpages.map (Page.writeAt h.offset bytes)).symm
  rw [List.map_append, hothers] at hmap
  refine (hupdate _).trans ?_
  rwa [PageArena.pages_write (hs.indices_nodup h.worker)]

/-- A write leaves the indices of every arena as they are. -/
theorem Inv.indices_update_write (hs : s.Inv) (h : Handle n) (bytes : List UInt8)
    (worker : Fin n) :
    (Function.update s.arenas h.worker ((s.arenas h.worker).write h.offset bytes) worker).indices =
      (s.arenas worker).indices := by
  by_cases hsame : worker = h.worker
  · rw [hsame, Function.update_self, PageArena.indices_write (hs.indices_nodup h.worker)]
  · rw [Function.update_of_ne hsame]

/-- A handle after one was replaced is the new one or an old one. -/
theorem mem_replace {other : Handle n} (hother : other ∈ front ++ h' :: back) :
    other = h' ∨ other ∈ front ++ h :: back := by
  rcases List.mem_append.mp hother with hfront | hback
  · exact .inr (List.mem_append_left _ hfront)
  · rcases List.mem_cons.mp hback with rfl | hback
    · exact .inl rfl
    · exact .inr (List.mem_append_right _ (List.mem_cons_of_mem _ hback))

theorem handlesOf_replace_self (hoffset : h'.offset = h.offset) :
    handlesOf (front ++ h' :: back) (pageOf h.offset) =
      handlesOf front (pageOf h.offset) ++ h' :: handlesOf back (pageOf h.offset) := by
  simp [handlesOf, hoffset]

theorem handlesOf_replace_of_ne {index : Nat} (hne : pageOf h.offset ≠ index)
    (bytes : List UInt8) :
    handlesOf (front ++ { h with bytes } :: back) index =
      handlesOf (front ++ h :: back) index := by
  simp [handlesOf, hne]

/-- New bytes for a handle keep the invariant. -/
theorem Inv.filling (hs : s.Inv) (hsplit : s.handles = front ++ h :: back) {bytes : List UInt8}
    (hlength : bytes.length = h.bytes.length) :
    Inv ⟨s.counter, Function.update s.arenas h.worker ((s.arenas h.worker).write h.offset bytes),
      s.claims, front ++ { h with bytes } :: back⟩ := by
  have hmem : h ∈ s.handles := hsplit ▸ List.mem_append_right _ List.mem_cons_self
  have hall := hs.pagesOf_write hmem bytes
  have hindices : (s.claims ++ (pagesOf (Function.update s.arenas h.worker
      ((s.arenas h.worker).write h.offset bytes))).map Page.index).Perm s.indices := by
    refine .append_left _ ((hall.map Page.index).trans (.of_eq ?_))
    rw [List.map_map]
    exact List.map_congr_left fun page _ => Page.index_writeAt ..
  have hreplaced : ∀ other ∈ front ++ { h with bytes } :: back,
      other = { h with bytes } ∨ other ∈ s.handles :=
    fun other hother => hsplit ▸ mem_replace hother
  exact {
    pos := hs.pos
    nodup := hindices.nodup_iff.mpr hs.nodup
    mem_indices := fun index => hindices.mem_iff.trans (hs.mem_indices index)
    home := fun other hother => by
      rw [hs.indices_update_write h]
      rcases hreplaced other hother with rfl | hold
      · exact hs.home h hmem
      · exact hs.home other hold
    nonempty := fun other hother => by
      rcases hreplaced other hother with rfl | hold
      · exact List.length_pos_iff.mp (hlength ▸ List.length_pos_iff.mpr (hs.nonempty h hmem))
      · exact hs.nonempty other hold
    stacked := fun page hpage => by
      obtain ⟨old, hold, rfl⟩ := List.mem_map.mp (hall.mem_iff.mp hpage)
      have hstack := hs.stacked old hold
      rw [hsplit] at hstack
      rw [Page.index_writeAt]
      by_cases hindex : pageOf h.offset = old.index
      · rw [← hindex, handlesOf_replace_self rfl] at hstack ⊢
        exact hstack.writeAt hindex.symm rfl hlength
      · rw [handlesOf_replace_of_ne hindex, Page.writeAt_of_ne _ (Ne.symm hindex)]
        exact hstack
    short := fun page hpage => by
      obtain ⟨old, hold, rfl⟩ := List.mem_map.mp (hall.mem_iff.mp hpage)
      have hshort := hs.short old hold
      rw [hsplit] at hshort
      rw [Page.index_writeAt, Page.size_writeAt]
      by_cases hindex : pageOf h.offset = old.index
      · rw [← hindex, handlesOf_replace_self rfl, List.length_append] at hshort ⊢
        exact hshort
      · rw [handlesOf_replace_of_ne hindex]
        exact hshort }

end Fill

theorem Inv.fill (hs : s.Inv) (handle : Nat) (bytes : List UInt8) :
    (s.step (.fill handle bytes)).Inv := by
  simp only [step]
  cases hget : s.handles[handle]? with
  | none => exact hs
  | some h =>
    by_cases hlength : bytes.length = h.bytes.length
    · obtain ⟨hlt, hh⟩ := List.getElem?_eq_some_iff.mp hget
      obtain ⟨front, back, hsplit, _, hset⟩ :=
        @List.exists_of_set _ handle { h with bytes } s.handles hlt
      rw [hh] at hsplit
      simp only [if_pos hlength, hset]
      exact hs.filling hsplit hlength
    · simp only [if_neg hlength]
      exact hs

theorem Inv.step (hs : s.Inv) (step : PoolStep n) : (s.step step).Inv := by
  cases step with
  | claim => exact hs.claim
  | reserve worker len pos => exact (hs.reserve worker pos).1
  | fill handle bytes => exact hs.fill handle bytes

theorem inv_run (steps : List (PoolStep n)) : (run steps).Inv := by
  have hpages : ({} : Pool n).pages = [] :=
    List.flatMap_eq_nil_iff.mpr fun _ _ => by rw [PageArena.pages_eq]; rfl
  have hstart : Inv ({} : Pool n) := {
    pos := Nat.one_pos
    nodup := by simp [indices, hpages]
    mem_indices := fun index => by
      rw [indices, hpages]
      exact iff_of_false (by simp) (by change ¬(1 ≤ index ∧ index < 1); omega)
    home := by simp
    nonempty := by simp
    stacked := by simp [hpages]
    short := by simp [hpages] }
  exact List.foldlRecOn steps Pool.step hstart fun s hs step _ => hs.step step

end Pool

end PagedGraph
