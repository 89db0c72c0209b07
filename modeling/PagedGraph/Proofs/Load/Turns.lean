import PagedGraph.Proofs.Load.Sizes
import PagedGraph.Proofs.Page.Partition

/-!
# Shards that are written at the same time

Workers write the shards of a table at the same time, and the counter of pages is all that
they share.  So one table differs from another only by the order in which the shards wrote
their runs.  In a `SharedWriter` every shard has runs to write, and at a turn one of
them writes its next run.  `RunTable.Written t shards` says that some order of turns
leaves the table `t`.

* A table whose shards are written one after another is one of them
  (`RunTable.written_ofShards`).
* A turn is a reservation and a write of one worker of a pool (`Pool.exists_put`), so what a
  writer has is what a pool has after some steps (`SharedWriter.exists_follows`).
* Then the invariant of pools tells where the runs are, and every table that is written lays
  its runs (`RunTable.Written.lays`).
-/

namespace PagedGraph

/-! ## Turns -/

/-- A shard that is being written. -/
structure ShardWriter where
  /-- The pages of the shard. -/
  arena : PageArena := {}
  /-- The offsets of the shard's nodes so far. -/
  offsets : Array Nat := #[]
  /-- The runs that are not yet written. -/
  pending : List (List UInt8)

/-- Shards that are written at the same time. -/
structure SharedWriter where
  /-- The counter of pages. -/
  counter : PageCounter
  shards : List ShardWriter

namespace SharedWriter

/-- Nothing is written yet. -/
def start (shards : List (List (List UInt8))) : SharedWriter :=
  ⟨{}, shards.map fun runs => { pending := runs }⟩

/-- The shard at an index writes its next run.  Nothing is done if there is no such shard or it
has written all its runs. -/
def turn (w : SharedWriter) (index : Nat) : SharedWriter :=
  match w.shards[index]? with
  | some ⟨arena, offsets, run :: pending⟩ =>
    match RunWriter.write ⟨w.counter, arena, offsets⟩ run with
    | ⟨counter, arena, offsets⟩ => ⟨counter, w.shards.set index ⟨arena, offsets, pending⟩⟩
  | _ => w

/-- Some turns, one after another. -/
def turns (w : SharedWriter) (indices : List Nat) : SharedWriter := indices.foldl turn w

/-- All runs are written. -/
def Finished (w : SharedWriter) : Prop := ∀ shard ∈ w.shards, shard.pending = []

/-- The pages of all shards. -/
def pages (w : SharedWriter) : List Page := w.shards.flatMap fun shard => shard.arena.pages

/-- The offsets of all shards. -/
def offsets (w : SharedWriter) : List Nat := w.shards.flatMap fun shard => shard.offsets.toList

/-- The table of what is written. -/
def table (w : SharedWriter) : RunTable :=
  ⟨w.offsets.toArray, .ofPages w.counter.pageCount w.pages⟩

/-- What a turn can do. -/
theorem turn_cases (w : SharedWriter) (index : Nat) :
    w.turn index = w ∨ ∃ arena offsets run pending,
      w.shards[index]? = some ⟨arena, offsets, run :: pending⟩ ∧
      w.turn index =
        let written := RunWriter.write ⟨w.counter, arena, offsets⟩ run
        ⟨written.counter, w.shards.set index ⟨written.arena, written.offsets, pending⟩⟩ := by
  rw [turn]
  split
  · next arena offsets run pending hshard => exact .inr ⟨arena, offsets, run, pending, hshard, rfl⟩
  · exact .inl rfl

end SharedWriter

/-- A table that shards leave when they take turns in some order, until all is written. -/
def RunTable.Written (t : RunTable) (shards : List (List (List UInt8))) : Prop :=
  ∃ indices : List Nat, ((SharedWriter.start shards).turns indices).Finished ∧
    t = ((SharedWriter.start shards).turns indices).table

/-! ## One after another -/

namespace SharedWriter

/-- Offsets are written behind those that are there, whatever these are. -/
theorem foldl_write_offsets (runs : List (List UInt8)) (before : Array Nat) :
    ∀ (counter : PageCounter) (arena : PageArena) (offsets : Array Nat),
      runs.foldl RunWriter.write ⟨counter, arena, before ++ offsets⟩ =
        let w := runs.foldl RunWriter.write ⟨counter, arena, offsets⟩
        ⟨w.counter, w.arena, before ++ w.offsets⟩ := by
  induction runs with
  | nil => exact fun _ _ _ => rfl
  | cons run runs ih =>
    intro counter arena offsets
    have hwrite : RunWriter.write ⟨counter, arena, before ++ offsets⟩ run =
        let w := RunWriter.write ⟨counter, arena, offsets⟩ run
        ⟨w.counter, w.arena, before ++ w.offsets⟩ := by
      simp only [RunWriter.write]
      split <;> rw [Array.append_push]
    rw [List.foldl_cons, List.foldl_cons, hwrite]
    exact ih ..

variable {before rest : List ShardWriter}

/-- A shard that takes all turns writes all its runs. -/
theorem turns_replicate (runs : List (List UInt8)) :
    ∀ (counter : PageCounter) (arena : PageArena) (offsets : Array Nat),
      turns ⟨counter, before ++ ⟨arena, offsets, runs⟩ :: rest⟩
          (List.replicate runs.length before.length) =
        let w := runs.foldl RunWriter.write ⟨counter, arena, offsets⟩
        ⟨w.counter, before ++ ⟨w.arena, w.offsets, []⟩ :: rest⟩ := by
  induction runs with
  | nil => exact fun _ _ _ => rfl
  | cons run runs ih =>
    intro counter arena offsets
    have hturn : turn ⟨counter, before ++ ⟨arena, offsets, run :: runs⟩ :: rest⟩ before.length =
        let w := RunWriter.write ⟨counter, arena, offsets⟩ run
        ⟨w.counter, before ++ ⟨w.arena, w.offsets, runs⟩ :: rest⟩ := by
      simp [turn]
    rw [List.length_cons, List.replicate_succ, turns, List.foldl_cons, hturn]
    exact ih ..

/-- The shards written so far, as one writer that goes on with the next shard. -/
def single (w : SharedWriter) : RunWriter := ⟨w.counter, {}, w.offsets.toArray⟩

/-- A shard that is written behind others. -/
theorem writeShards_cons (counter : PageCounter) (before : List ShardWriter)
    (runs : List (List UInt8)) (rest : List (List (List UInt8))) :
    let w := runs.foldl RunWriter.write ⟨counter, {}, #[]⟩
    let after : SharedWriter := ⟨w.counter, before ++ [⟨w.arena, w.offsets, []⟩]⟩
    RunWriter.writeShards (pages ⟨counter, before⟩) (single ⟨counter, before⟩) (runs :: rest) =
      RunWriter.writeShards after.pages after.single rest := by
  intro w after
  have hwrite : runs.foldl RunWriter.write (single ⟨counter, before⟩) =
      ⟨w.counter, w.arena, (offsets ⟨counter, before⟩).toArray ++ w.offsets⟩ := by
    have hoffsets := foldl_write_offsets runs (offsets ⟨counter, before⟩).toArray counter {} #[]
    rwa [Array.append_empty] at hoffsets
  have hpages : after.pages = pages ⟨counter, before⟩ ++ w.arena.pages := by
    simp [after, pages]
  have hsingle : after.single =
      ⟨w.counter, {}, (offsets ⟨counter, before⟩).toArray ++ w.offsets⟩ := by
    simp [after, single, offsets]
  rw [RunWriter.writeShards, hwrite, hpages, hsingle]
  rfl

/-- Shards that are written one after another take turns one after another. -/
theorem exists_turns (shards : List (List (List UInt8))) :
    ∀ (counter : PageCounter) (before : List ShardWriter),
      (∀ shard ∈ before, shard.pending = []) →
      ∃ indices, let w := turns ⟨counter, before ++ (start shards).shards⟩ indices
        w.Finished ∧ RunWriter.writeShards (pages ⟨counter, before⟩) (single ⟨counter, before⟩)
          shards = (w.pages, w.single) := by
  induction shards with
  | nil =>
    intro counter before hbefore
    refine ⟨[], ?_, ?_⟩
    · rwa [start, List.map_nil, List.append_nil]
    · rw [start, List.map_nil, List.append_nil]
      rfl
  | cons runs rest ih =>
    intro counter before hbefore
    let w := runs.foldl RunWriter.write ⟨counter, {}, #[]⟩
    obtain ⟨indices, hfinished, hrest⟩ :=
      ih w.counter (before ++ [⟨w.arena, w.offsets, []⟩]) fun shard hshard => by
        rcases List.mem_append.mp hshard with hshard | hshard
        · exact hbefore shard hshard
        · rw [List.mem_singleton.mp hshard]
    have hturns : turns ⟨counter, before ++ (start (runs :: rest)).shards⟩
        (List.replicate runs.length before.length ++ indices) =
          turns ⟨w.counter, (before ++ [⟨w.arena, w.offsets, []⟩]) ++ (start rest).shards⟩
            indices := by
      rw [List.append_assoc, turns, List.foldl_append]
      exact congrArg (fun w => turns w indices) (turns_replicate runs counter {} #[])
    refine ⟨List.replicate runs.length before.length ++ indices, ?_⟩
    rw [hturns, writeShards_cons]
    exact ⟨hfinished, hrest⟩

end SharedWriter

/-- A table whose shards are written one after another. -/
theorem RunTable.written_ofShards (shards : List (List (List UInt8))) :
    (ofShards shards).Written shards := by
  obtain ⟨indices, hfinished, hwritten⟩ := SharedWriter.exists_turns shards {} [] (by simp)
  refine ⟨indices, hfinished, ?_⟩
  have hstart : RunWriter.writeShards [] {} shards = _ := hwritten
  rw [ofShards, hstart]
  rfl

/-! ## Turns in a pool -/

namespace Pool

variable {n : Nat} {s : Pool n}

/-- The pool after a worker has put a run. -/
def put (s : Pool n) (worker : Fin n) (run : List UInt8) : Pool n :=
  let (offset, counter, arena) := (s.arenas worker).put s.counter run
  ⟨counter, Function.update s.arenas worker arena, s.claims,
    s.handles ++ [⟨worker, offset, run⟩]⟩

/-- A worker puts a run by a reservation and a write. -/
theorem exists_put (hs : s.Inv) (worker : Fin n) {run : List UInt8} (hrun : run ≠ []) :
    ∃ steps : List (PoolStep n), steps.foldl step s = s.put worker run := by
  have pos := List.length_pos_iff.mpr hrun
  refine ⟨[.reserve worker run.length pos, .fill s.handles.length run], ?_⟩
  obtain ⟨h, hhandles, -, hbytes⟩ := (hs.reserve worker pos).2
  simp only [step, List.append_cancel_left_eq, List.cons.injEq, and_true] at hhandles
  have hlength : run.length = h.bytes.length := by rw [hbytes, List.length_replicate]
  rw [← hhandles] at hlength
  simp only [List.foldl_cons, List.foldl_nil, step, List.getElem?_concat_length,
    if_pos hlength, Function.update_self, Function.update_idem, put, PageArena.put]
  rw [List.set_append_right _ _ (Nat.le_refl _), Nat.sub_self, List.set_cons_zero]

/-- An offset leads to a run of a worker, and is zero for no run. -/
def Keeps (s : Pool n) (worker : Fin n) (offset : Nat) (run : List UInt8) : Prop :=
  if run = [] then offset = 0 else ⟨worker, offset, run⟩ ∈ s.handles

/-- What is kept stays when a run is put. -/
theorem Keeps.put {worker : Fin n} {offset : Nat} {run : List UInt8}
    (h : s.Keeps worker offset run) (other : Fin n) (more : List UInt8) :
    (s.put other more).Keeps worker offset run := by
  unfold Keeps at h ⊢
  split
  · next hrun => rwa [if_pos hrun] at h
  · next hrun =>
    rw [if_neg hrun] at h
    exact List.mem_append_left _ h

/-- What is put is kept. -/
theorem keeps_put (s : Pool n) (worker : Fin n) {run : List UInt8} (hrun : run ≠ []) :
    (s.put worker run).Keeps worker ((s.arenas worker).put s.counter run).1 run := by
  unfold Keeps
  rw [if_neg hrun]
  exact List.mem_append_right _ List.mem_cons_self

/-- What a worker keeps is in the pages of the pool. -/
theorem Keeps.placed {worker : Fin n} {offset : Nat} {run : List UInt8}
    (h : s.Keeps worker offset run) (hs : s.Inv) : Placed s.pages offset run := by
  unfold Keeps at h
  unfold Placed
  split
  · next hrun => rwa [if_pos hrun] at h
  · next hrun =>
    rw [if_neg hrun] at h
    obtain ⟨page, -, hindex, hpage⟩ := hs.exists_page h
    have hpos := ((hs.mem_indices page.index).mp
      (List.mem_append_right _ (List.mem_map_of_mem hpage))).1
    refine ⟨fun hzero => ?_, (hs.runAt h).mono fun page hpage => mem_pages.mpr ⟨worker, hpage⟩⟩
    have hfirst : page.index = pageOf 0 := hindex.trans (congrArg pageOf hzero)
    rw [hfirst] at hpos
    exact absurd hpos (by decide)

theorem Inv.sound (hs : s.Inv) (worker : Fin n) :
    PageArena.Sound s.counter (s.arenas worker) where
  pos := hs.pos
  bounds index hmem := by
    obtain ⟨page, hpage, rfl⟩ := List.mem_map.mp hmem
    have hall := (hs.mem_indices page.index).mp
      (List.mem_append_right _ (List.mem_map_of_mem (mem_pages.mpr ⟨worker, hpage⟩)))
    exact ⟨hall.1, hall.2⟩
  nodup := hs.indices_nodup worker

/-- If no index was claimed for no arena, the counter has counted the pages. -/
theorem Inv.next_eq (hs : s.Inv) (hclaims : s.claims = []) :
    s.counter.next = 1 + s.pages.length := by
  have hpos := hs.pos
  have hperm : (s.pages.map Page.index).Perm (List.range' 1 (s.counter.next - 1)) := by
    have hindices : s.indices = s.pages.map Page.index := by
      rw [indices, hclaims, List.nil_append]
    refine (List.perm_ext_iff_of_nodup (hindices ▸ hs.nodup) List.nodup_range').mpr fun index => ?_
    rw [← hindices, hs.mem_indices, List.mem_range'_1]
    omega
  have hlength := hperm.length_eq
  rw [List.length_map, List.length_range'] at hlength
  omega

end Pool

/-- A shard is written by a worker of a pool. -/
structure ShardWriter.Follows {n : Nat} (shard : ShardWriter) (s : Pool n) (worker : Fin n)
    (runs : List (List UInt8)) : Prop where
  arena : shard.arena = s.arenas worker
  /-- What is written is kept. -/
  kept : ∃ written, runs = written ++ shard.pending ∧
    List.Forall₂ (s.Keeps worker) shard.offsets.toList written
  filling : shard.arena.Filling
  /-- The pages it will have are those its runs fill. -/
  sizes : shard.arena.fullSizes ++ packed shard.arena.opened (shard.pending.map List.length) =
    packed 0 (runs.map List.length)

/-- Shards are written by the workers of a pool. -/
structure SharedWriter.Follows (w : SharedWriter) (shards : List (List (List UInt8)))
    (s : Pool shards.length) : Prop where
  /-- The pool has taken some steps. -/
  steps : ∃ steps, s = Pool.run steps
  claims : s.claims = []
  counter : w.counter = s.counter
  length_eq : w.shards.length = shards.length
  shard : ∀ (worker : Fin shards.length) {shard : ShardWriter},
    w.shards[worker.val]? = some shard → shard.Follows s worker shards[worker]

namespace ShardWriter

variable {n : Nat} {s : Pool n} {worker : Fin n} {runs : List (List UInt8)} {arena : PageArena}
  {offsets : Array Nat} {run : List UInt8} {pending : List (List UInt8)}

/-- A run of no bytes is written by no step. -/
theorem Follows.write_nil
    (h : Follows ⟨arena, offsets, [] :: pending⟩ s worker runs) :
    Follows ⟨arena, offsets.push 0, pending⟩ s worker runs where
  arena := h.arena
  kept := by
    obtain ⟨written, hruns, hkept⟩ := h.kept
    refine ⟨written ++ [[]], by simpa using hruns, ?_⟩
    rw [Array.toList_push]
    exact List.rel_append hkept (.cons (by simp [Pool.Keeps]) .nil)
  filling := h.filling
  sizes := by
    have hopened : arena.opened ≤ pageSize := by
      obtain ⟨filling, full⟩ := arena
      cases filling with
      | none => exact Nat.zero_le _
      | some page => exact (h.filling page rfl).2
    rw [← h.sizes, List.map_cons, List.length_nil, packed_zero_cons hopened]

/-- A run with bytes is put by its worker. -/
theorem Follows.write_put (hs : s.Inv) (hrun : run ≠ [])
    (h : Follows ⟨s.arenas worker, offsets, run :: pending⟩ s worker runs) :
    Follows ⟨((s.arenas worker).put s.counter run).2.2,
      offsets.push ((s.arenas worker).put s.counter run).1, pending⟩
      (s.put worker run) worker runs := by
  obtain ⟨hfilling, hpacked⟩ := PageArena.packed_put (hs.sound worker) h.filling hrun
  constructor
  case arena => exact (Function.update_self worker _ s.arenas).symm
  case kept =>
    obtain ⟨written, hruns, hkept⟩ := h.kept
    refine ⟨written ++ [run], by simpa using hruns, ?_⟩
    rw [Array.toList_push]
    exact List.rel_append (hkept.imp fun _ _ hold => hold.put worker run)
      (.cons (s.keeps_put worker hrun) .nil)
  case filling => exact hfilling
  case sizes => exact (hpacked _).trans h.sizes

/-- A shard does not see what another worker puts. -/
theorem Follows.put_of_ne {shard : ShardWriter} (h : shard.Follows s worker runs) {other : Fin n}
    (hne : worker ≠ other) (more : List UInt8) :
    shard.Follows (s.put other more) worker runs where
  arena := h.arena.trans (Function.update_of_ne hne ..).symm
  kept := by
    obtain ⟨written, hruns, hkept⟩ := h.kept
    exact ⟨written, hruns, hkept.imp fun _ _ hold => hold.put other more⟩
  filling := h.filling
  sizes := h.sizes

end ShardWriter

namespace SharedWriter

variable {w : SharedWriter} {shards : List (List (List UInt8))} {s : Pool shards.length}

theorem Follows.inv (h : w.Follows shards s) : s.Inv := by
  obtain ⟨steps, rfl⟩ := h.steps
  exact Pool.inv_run steps

/-- A turn is some steps of the pool. -/
theorem Follows.turn (h : w.Follows shards s) (index : Nat) :
    ∃ s', (w.turn index).Follows shards s' := by
  rcases w.turn_cases index with heq | ⟨arena, offsets, run, pending, hshard, heq⟩
  · exact ⟨s, heq.symm ▸ h⟩
  obtain ⟨hlt, -⟩ := List.getElem?_eq_some_iff.mp hshard
  let worker : Fin shards.length := ⟨index, h.length_eq ▸ hlt⟩
  have hself : ShardWriter.Follows ⟨arena, offsets, run :: pending⟩ s worker shards[worker] :=
    h.shard worker hshard
  -- the shards after the turn: the one that wrote, and the others
  have hset : ∀ {new shard : ShardWriter} {other : Fin shards.length},
      (w.shards.set index new)[other.val]? = some shard →
      (other = worker ∧ shard = new) ∨ other ≠ worker ∧ w.shards[other.val]? = some shard := by
    intro new shard other hother
    by_cases hsame : other = worker
    · subst hsame
      rw [List.getElem?_set_self hlt] at hother
      exact .inl ⟨rfl, (Option.some.inj hother).symm⟩
    · rw [List.getElem?_set_ne fun heq => hsame (Fin.ext heq.symm)] at hother
      exact .inr ⟨hsame, hother⟩
  by_cases hrun : run = []
  · subst hrun
    rw [heq]
    refine ⟨s, h.steps, h.claims, h.counter, ?_, fun other _ hother => ?_⟩
    · exact (List.length_set ..).trans h.length_eq
    · rcases hset hother with ⟨rfl, rfl⟩ | ⟨-, hold⟩
      · exact hself.write_nil
      · exact h.shard other hold
  · obtain ⟨steps, hsteps⟩ := h.steps
    obtain ⟨more, hmore⟩ := Pool.exists_put h.inv worker hrun
    obtain rfl : arena = s.arenas worker := hself.arena
    have hwrite : RunWriter.write ⟨w.counter, s.arenas worker, offsets⟩ run =
        ⟨((s.arenas worker).put s.counter run).2.1, ((s.arenas worker).put s.counter run).2.2,
          offsets.push ((s.arenas worker).put s.counter run).1⟩ := by
      rw [RunWriter.write, if_neg (by simpa using hrun), h.counter]
    rw [heq, hwrite]
    refine ⟨s.put worker run, ⟨steps ++ more, ?_⟩, h.claims, rfl, ?_, fun other _ hother => ?_⟩
    · rw [Pool.run, List.foldl_append, ← Pool.run, ← hsteps, hmore]
    · exact (List.length_set ..).trans h.length_eq
    · rcases hset hother with ⟨rfl, rfl⟩ | ⟨hne, hold⟩
      · exact hself.write_put h.inv hrun
      · exact (h.shard other hold).put_of_ne hne run

/-- What shards write in some turns is what a pool has after some steps. -/
theorem exists_follows (shards : List (List (List UInt8))) (indices : List Nat) :
    ∃ s, ((start shards).turns indices).Follows shards s := by
  have hstart : (start shards).Follows shards {} := by
    refine ⟨⟨[], rfl⟩, rfl, rfl, List.length_map .., fun worker _ hshard => ?_⟩
    rw [start, List.getElem?_map, List.getElem?_eq_getElem worker.isLt] at hshard
    obtain rfl := Option.some.inj hshard
    exact ⟨rfl, ⟨[], rfl, .nil⟩, PageArena.filling_empty, rfl⟩
  refine List.foldlRecOn (motive := fun w => ∃ s, Follows w shards s) indices turn
    ⟨_, hstart⟩ ?_
  rintro w ⟨s, h⟩ index -
  exact h.turn index

/-! ## The table that is left -/

/-- The shards have the pages of the workers. -/
theorem Follows.pages_eq (h : w.Follows shards s) : w.pages = s.pages := by
  have harenas : w.shards.map ShardWriter.arena = (List.finRange shards.length).map s.arenas := by
    refine List.ext_getElem (by simp [h.length_eq]) fun index hlt hlt' => ?_
    have hworker : index < shards.length := by simpa using hlt'
    rw [List.getElem_map, List.getElem_map, List.getElem_finRange]
    exact (h.shard ⟨index, hworker⟩ (List.getElem?_eq_getElem _)).arena
  rw [pages, Pool.pages, Pool.pagesOf, List.flatMap_def, List.flatMap_def]
  have hmap := congrArg (List.map PageArena.pages) harenas
  rw [List.map_map, List.map_map] at hmap
  exact congrArg List.flatten hmap

/-- A shard that has written all its runs. -/
theorem Follows.shard_finished (h : w.Follows shards s) (hall : w.Finished) (index : Nat)
    (hlt : index < w.shards.length) (hlt' : index < shards.length) :
    w.shards[index].Follows s ⟨index, hlt'⟩ shards[index] ∧ w.shards[index].pending = [] :=
  ⟨h.shard ⟨index, hlt'⟩ (List.getElem?_eq_getElem _), hall _ (List.getElem_mem _)⟩

/-- The offsets of all shards lead to all runs. -/
theorem Follows.placed (h : w.Follows shards s) (hall : w.Finished) :
    List.Forall₂ (Placed w.pages) w.offsets shards.flatten := by
  rw [offsets, List.flatMap_def]
  refine List.rel_flatten (List.forall₂_iff_get.mpr ⟨by simp [h.length_eq], ?_⟩)
  intro index hlt hlt'
  have hshard : index < w.shards.length := by simpa using hlt
  obtain ⟨hfollows, hpending⟩ := h.shard_finished hall index hshard hlt'
  obtain ⟨written, hruns, hkept⟩ := hfollows.kept
  rw [hpending, List.append_nil] at hruns
  rw [List.get_eq_getElem, List.get_eq_getElem, List.getElem_map, hruns, h.pages_eq]
  exact hkept.imp fun _ _ hkeeps => hkeeps.placed h.inv

/-- The pages of all shards are those that the runs fill. -/
theorem Follows.map_size_pages (h : w.Follows shards s) (hall : w.Finished) :
    w.pages.map (fun page => page.bytes.size) =
      pageSizes (shards.map fun runs => runs.map List.length) := by
  rw [pages, List.map_flatMap, pageSizes, List.flatMap_map, List.flatMap_def, List.flatMap_def]
  refine congrArg List.flatten (List.ext_getElem (by simp [h.length_eq]) fun index hlt hlt' => ?_)
  obtain ⟨hfollows, hpending⟩ :=
    h.shard_finished hall index (by simpa using hlt) (by simpa using hlt')
  have hsizes := hfollows.sizes
  rw [hpending] at hsizes
  rw [List.getElem_map, List.getElem_map, PageArena.sizes_pages hfollows.filling]
  exact hsizes

end SharedWriter

/-- A table lays the runs of its shards, in whatever order these took turns. -/
theorem RunTable.Written.lays {shards : List (List (List UInt8))} {t : RunTable}
    (h : t.Written shards) : t.Lays shards := by
  obtain ⟨indices, hall, rfl⟩ := h
  obtain ⟨s, hs⟩ := SharedWriter.exists_follows shards indices
  have hplaced := hs.placed hall
  have hsizes := hs.map_size_pages hall
  have hnext := hs.inv.next_eq hs.claims
  rw [← hs.counter, ← hs.pages_eq] at hnext
  have hnodup : (((SharedWriter.start shards).turns indices).pages.map Page.index).Nodup := by
    rw [hs.pages_eq]
    exact (List.nodup_append.mp hs.inv.nodup).2.1
  have hbounds : ∀ i ∈ ((SharedWriter.start shards).turns indices).pages.map Page.index,
      i < ((SharedWriter.start shards).turns indices).counter.pageCount := by
    intro i hi
    rw [hs.pages_eq] at hi
    rw [hs.counter]
    exact ((hs.inv.mem_indices i).mp (List.mem_append_right _ hi)).2
  constructor
  case size_offsets => exact hplaced.length_eq
  case holds => exact fun hrun => holds_of_placed hplaced hnodup hbounds hrun
  case byteSize =>
    refine (PageTable.byteSize_ofPages hnodup hbounds).trans ?_
    rw [hsizes, addUp_pageSizes, List.map_flatten]
  case pageCount =>
    refine (PageTable.pageCount_ofPages ..).trans (hnext.trans ?_)
    rw [← hsizes, List.length_map]

end PagedGraph
