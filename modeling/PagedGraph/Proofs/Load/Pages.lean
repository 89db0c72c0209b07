import Mathlib.Data.List.Forall2
import PagedGraph.Load.Pages
import PagedGraph.Proofs.Page.Table

/-!
# Every run is in its table

The runs of a table are written one after another, shard by shard, and each shard fills
an arena of its own.  `RunWriter.Inv` is what holds throughout: every run written so
far is found at its offset, among the pages of earlier shards and those of the present
one, and all these pages have different indices.

`RunTable.holds_ofShards` is the result.  In a finished table every node has its own
run, and the node of an empty run has offset zero.
-/

namespace PagedGraph

/-- An offset leads to a run, and is zero for no run. -/
def Placed (pages : List Page) (offset : Nat) (run : List UInt8) : Prop :=
  if run = [] then offset = 0 else offset ≠ 0 ∧ RunAt pages offset run

theorem Placed.imp {pages more : List Page} {offset : Nat} {run : List UInt8}
    (h : Placed pages offset run)
    (hmore : ∀ {offset run}, RunAt pages offset run → RunAt more offset run) :
    Placed more offset run := by
  unfold Placed at h ⊢
  split
  · next hrun => simpa [hrun] using h
  · next hrun =>
    rw [if_neg hrun] at h
    exact ⟨h.1, hmore h.2⟩

/-- A run is among the pages of two groups if it is in one of them. -/
theorem runAt_append {pages more : List Page} {offset : Nat} {run : List UInt8} :
    RunAt (pages ++ more) offset run ↔ RunAt pages offset run ∨ RunAt more offset run := by
  constructor
  · rintro ⟨page, hmem, hpage⟩
    rcases List.mem_append.mp hmem with hmem | hmem
    · exact .inl ⟨page, hmem, hpage⟩
    · exact .inr ⟨page, hmem, hpage⟩
  · rintro (h | h)
    · exact h.mono fun _ => List.mem_append_left _
    · exact h.mono fun _ => List.mem_append_right _

namespace RunWriter

/-- The invariant of writing, with the pages of earlier shards and the runs so far. -/
structure Inv (before : List Page) (w : RunWriter) (runs : List (List UInt8)) : Prop where
  sound : PageArena.Sound w.counter w.arena
  bounds : ∀ i ∈ before.map Page.index, i < w.counter.next
  nodup : (before.map Page.index ++ w.arena.indices).Nodup
  placed : List.Forall₂ (Placed (before ++ w.arena.pages)) w.offsets.toList runs

variable {before : List Page} {w : RunWriter} {runs : List (List UInt8)}

/-- Nothing is written yet. -/
theorem inv_start : Inv [] {} [] where
  sound := PageArena.sound_empty Nat.one_pos
  bounds := by simp
  nodup := by simp [PageArena.indices, PageArena.pages_eq]
  placed := .nil

/-- Indices stay different when a run is put, since a new one comes from the counter. -/
theorem Inv.nodup_put {run : List UInt8} (h : Inv before w runs) (hrun : run ≠ []) :
    (before.map Page.index ++ (w.arena.put w.counter run).2.2.indices).Nodup ∧
      w.counter.next ≤ (w.arena.put w.counter run).2.1.next := by
  rcases PageArena.put_indices h.sound hrun with ⟨hindices, hcounter⟩ | ⟨hindices, hcounter⟩
  · rw [hindices, hcounter]
    exact ⟨h.nodup, Nat.le_refl _⟩
  · rw [hcounter]
    refine ⟨?_, Nat.le_succ _⟩
    have hperm := (hindices.append_left (before.map Page.index)).trans List.perm_middle
    refine hperm.nodup_iff.mpr (List.nodup_cons.mpr ⟨fun hmem => ?_, h.nodup⟩)
    rcases List.mem_append.mp hmem with hmem | hmem
    · exact Nat.lt_irrefl _ (h.bounds _ hmem)
    · exact Nat.lt_irrefl _ (h.sound.bounds _ hmem).2

theorem Inv.write (h : Inv before w runs) (run : List UInt8) :
    Inv before (w.write run) (runs ++ [run]) := by
  obtain ⟨counter, arena, offsets⟩ := w
  by_cases hrun : run = []
  · subst hrun
    refine ⟨h.sound, h.bounds, h.nodup, ?_⟩
    have hlast : List.Forall₂ (Placed (before ++ arena.pages)) [0] [[]] :=
      .cons (by simp [Placed]) .nil
    simpa [RunWriter.write] using List.rel_append h.placed hlast
  · have hempty : run.isEmpty = false := by simpa using hrun
    have hput := h.nodup_put hrun
    have hkeeps : ∀ {offset old}, RunAt (before ++ arena.pages) offset old →
        RunAt (before ++ (arena.put counter run).2.2.pages) offset old := by
      intro offset old hold
      rw [runAt_append] at hold ⊢
      exact hold.imp_right (PageArena.put_keeps h.sound hrun)
    have hnew : Placed (before ++ (arena.put counter run).2.2.pages)
        (arena.put counter run).1 run := by
      rw [Placed, if_neg hrun, runAt_append]
      exact ⟨PageArena.put_ne_zero h.sound hrun, .inr (PageArena.put_runAt h.sound hrun)⟩
    simp only [RunWriter.write, hempty]
    refine ⟨PageArena.put_sound h.sound hrun, fun i hi => ?_, hput.1, ?_⟩
    · exact Nat.lt_of_lt_of_le (h.bounds i hi) hput.2
    · have hold := h.placed.imp fun _ _ hplaced => hplaced.imp hkeeps
      simpa using List.rel_append hold (.cons hnew .nil)

/-- Writing the runs of a shard. -/
theorem Inv.foldl_write (more : List (List UInt8)) :
    ∀ {w : RunWriter} {runs : List (List UInt8)}, Inv before w runs →
      Inv before (more.foldl RunWriter.write w) (runs ++ more) := by
  induction more with
  | nil =>
    intro w runs h
    simpa using h
  | cons run more ih =>
    intro w runs h
    simpa using ih (h.write run)

/-- The pages of a shard join those of earlier shards. -/
theorem Inv.closeShard (h : Inv before w runs) :
    Inv (before ++ w.closeShard.1) w.closeShard.2 runs := by
  obtain ⟨counter, arena, offsets⟩ := w
  simp only [RunWriter.closeShard]
  have hnone : (PageArena.pages {}) = [] := by simp [PageArena.pages_eq]
  refine ⟨PageArena.sound_empty h.sound.pos, fun i hi => ?_, ?_, ?_⟩
  · rw [List.map_append, List.mem_append] at hi
    rcases hi with hi | hi
    · exact h.bounds i hi
    · exact (h.sound.bounds i hi).2
  · rw [PageArena.indices, hnone, List.map_append, List.map_nil, List.append_nil]
    exact h.nodup
  · rw [hnone, List.append_nil]
    exact h.placed

/-- Writing the runs of all shards. -/
theorem Inv.writeShards (shards : List (List (List UInt8))) :
    ∀ {before : List Page} {w : RunWriter} {runs : List (List UInt8)}, Inv before w runs →
      Inv (writeShards before w shards).1 (writeShards before w shards).2
        (runs ++ shards.flatten) := by
  induction shards with
  | nil =>
    intro before w runs h
    simpa [RunWriter.writeShards] using h
  | cons shard rest ih =>
    intro before w runs h
    simpa [RunWriter.writeShards] using ih (h.foldl_write shard).closeShard

/-- After the last shard no page is in the arena. -/
theorem arena_writeShards (shards : List (List (List UInt8))) :
    ∀ (before : List Page) (w : RunWriter), w.arena = {} →
      (writeShards before w shards).2.arena = {} := by
  induction shards with
  | nil =>
    intro before w h
    exact h
  | cons shard rest ih =>
    intro before w _
    exact ih _ _ rfl

end RunWriter

namespace RunTable

/-- A node has a run in a table: its offset leads there, and is zero for no run. -/
def Holds (t : RunTable) (node : Nat) (run : List UInt8) : Prop :=
  (run = [] ∧ t.offset node = 0) ∨
    (run ≠ [] ∧ t.offset node ≠ 0 ∧ t.pages.Holds (t.offset node) run)

/-- The table of some runs has one node for each of them. -/
theorem size_offsets_ofShards (shards : List (List (List UInt8))) :
    (ofShards shards).offsets.size = shards.flatten.length := by
  have h := (RunWriter.inv_start.writeShards shards).placed.length_eq
  simpa [ofShards] using h

/-- Runs that are placed in pages are in the table of these. -/
theorem holds_of_placed {offsets : Array Nat} {pages : List Page} {count : Nat}
    {runs : List (List UInt8)} (hplaced : List.Forall₂ (Placed pages) offsets.toList runs)
    (hnodup : (pages.map Page.index).Nodup) (hbounds : ∀ i ∈ pages.map Page.index, i < count)
    {node : Nat} {run : List UInt8} (hrun : runs[node]? = some run) :
    Holds ⟨offsets, .ofPages count pages⟩ node run := by
  have hget := List.forall₂_iff_get.mp hplaced
  obtain ⟨hnode, heq⟩ := List.getElem?_eq_some_iff.mp hrun
  have hlt : node < offsets.size := by
    rw [← Array.length_toList, hget.1]
    exact hnode
  have hoffset : offset ⟨offsets, .ofPages count pages⟩ node = offsets.toList[node] := by
    simp [offset, Array.getD, hlt]
  have hnodeRun := hget.2 node hlt hnode
  rw [List.get_eq_getElem, List.get_eq_getElem, heq, Placed] at hnodeRun
  rw [Holds, hoffset]
  by_cases hempty : run = []
  · rw [if_pos hempty] at hnodeRun
    exact Or.inl ⟨hempty, hnodeRun⟩
  · rw [if_neg hempty] at hnodeRun
    exact Or.inr ⟨hempty, hnodeRun.1, PageTable.holds_ofPages hnodup hbounds hnodeRun.2⟩

/-- In the table of some runs every node has its own. -/
theorem holds_ofShards {shards : List (List (List UInt8))} {node : Nat} {run : List UInt8}
    (hrun : shards.flatten[node]? = some run) : (ofShards shards).Holds node run := by
  have h := RunWriter.inv_start.writeShards shards
  have hpages : (RunWriter.writeShards [] {} shards).1 ++
      (RunWriter.writeShards [] {} shards).2.arena.pages =
        (RunWriter.writeShards [] {} shards).1 := by
    rw [RunWriter.arena_writeShards shards [] {} rfl]
    simp [PageArena.pages_eq]
  have hplaced := h.placed
  rw [hpages, List.nil_append] at hplaced
  exact holds_of_placed hplaced (List.nodup_append.mp h.nodup).1 h.bounds hrun

end RunTable

end PagedGraph
