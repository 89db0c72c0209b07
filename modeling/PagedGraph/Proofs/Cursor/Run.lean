import PagedGraph.Cursor.Run
import PagedGraph.Load.Pages
import PagedGraph.Proofs.Codec.Buffer
import PagedGraph.Proofs.Cursor.Basic
import PagedGraph.Proofs.Page.Table

/-!
# Reading runs back

`RunCursor.Reads c ts` says that the bytes in front of a cursor are those of the
ascending targets `ts`, as differences from the target read last.  Such a cursor
walks along `ts` (`walks_runCursor`).

A run of targets that a page table holds is opened as a cursor that reads these targets
(`PageTable.reads_openRun`), and a run of values as one that gives these values
(`PageTable.toList_openValues`).
-/

namespace PagedGraph

/-! ## Targets -/

namespace Leb128

theorem deltas_cons (last t : Nat) (ts : List Nat) :
    deltas last (t :: ts) = (t - last) :: deltas t ts := rfl

end Leb128

namespace RunCursor

/-- What lies in front of a cursor are the differences of some ascending targets. -/
structure Reads (c : RunCursor) (ts : List Nat) : Prop where
  remaining : c.remaining = ts.length
  ascending : (c.lastTarget :: ts).Pairwise (· ≤ ·)
  bytes : (Leb128.deltas c.lastTarget ts).flatMap Leb128.encode <+:
    c.bytes.toList.drop (c.body + c.position)

/-- The difference in front of a cursor is read, and the bytes behind it are left. -/
theorem delta?_eq {c : RunCursor} {d : Nat} {rest : List UInt8}
    (h : c.bytes.toList.drop (c.body + c.position) = Leb128.encode d ++ rest) :
    c.delta? = some (d, c.position + (Leb128.encode d).length) ∧
      c.bytes.toList.drop (c.body + (c.position + (Leb128.encode d).length)) = rest := by
  obtain ⟨hread, hrest⟩ := Leb128.readAt_of_drop h
  rw [Leb128.length_encode, ← Nat.add_assoc]
  refine ⟨?_, hrest⟩
  rw [delta?, hread, Option.map_some]
  exact congrArg (fun position => some (d, position)) (by omega)

variable {c : RunCursor} {ts : List Nat}

/-- A cursor with targets left has the first difference in front of it. -/
theorem Reads.delta? {t : Nat} (h : c.Reads (t :: ts)) :
    ∃ position, c.delta? = some (t - c.lastTarget, position) ∧
      (Leb128.deltas t ts).flatMap Leb128.encode <+: c.bytes.toList.drop (c.body + position) := by
  obtain ⟨rest, hrest⟩ := h.bytes
  rw [Leb128.deltas_cons, List.flatMap_cons, List.append_assoc] at hrest
  obtain ⟨hdelta, hdrop⟩ := delta?_eq hrest.symm
  exact ⟨_, hdelta, rest, hdrop.symm⟩

/-- The first target is at least the one read last. -/
theorem Reads.add_sub {t : Nat} (h : c.Reads (t :: ts)) :
    c.lastTarget + (t - c.lastTarget) = t := by
  have hle := (List.pairwise_cons.mp h.ascending).1 t (List.mem_cons_self ..)
  omega

theorem Reads.next (h : c.Reads ts) : c.next.1 = ts.head? ∧ c.next.2.Reads ts.tail := by
  cases ts with
  | nil =>
    have hzero : c.remaining = 0 := h.remaining
    rw [RunCursor.next, if_pos hzero]
    exact ⟨rfl, h⟩
  | cons t ts =>
    have hne : c.remaining ≠ 0 := by
      rw [h.remaining]
      exact Nat.succ_ne_zero _
    obtain ⟨position, hdelta, hbytes⟩ := h.delta?
    rw [RunCursor.next, if_neg hne, hdelta]
    simp only [h.add_sub]
    refine ⟨rfl, ?_, (List.pairwise_cons.mp h.ascending).2, hbytes⟩
    simp [h.remaining]

theorem Reads.peek (h : c.Reads ts) : c.peek = ts.head? := by
  cases ts with
  | nil =>
    have hzero : c.remaining = 0 := h.remaining
    rw [RunCursor.peek, if_pos hzero]
    rfl
  | cons t ts =>
    have hne : c.remaining ≠ 0 := by
      rw [h.remaining]
      exact Nat.succ_ne_zero _
    obtain ⟨position, hdelta, -⟩ := h.delta?
    rw [RunCursor.peek, if_neg hne, hdelta, Option.map_some, List.head?_cons]
    exact congrArg some h.add_sub

end RunCursor

/-- The cursor on runs walks along the targets it reads. -/
theorem walks_runCursor : runCursor.Walks RunCursor.Reads :=
  Cursor.walks_ofSteps (fun h => (List.pairwise_cons.mp h.ascending).2) RunCursor.Reads.next
    RunCursor.Reads.peek RunCursor.Reads.remaining

namespace ValueCursor

/-- Stepping gives the values of a list one after another, and then none. -/
def Yields : ValueCursor → List Double → Prop
  | c, [] => c.next.1 = none
  | c, x :: xs => c.next.1 = some x ∧ c.next.2.Yields xs

theorem valuesFrom_succ (bytes : Array UInt8) (place count : Nat) :
    valuesFrom bytes place (count + 1) =
      .ofBytes (PageTable.slice bytes place 8) :: valuesFrom bytes (place + 8) count := by
  rw [valuesFrom, valuesFrom, List.range_succ_eq_map, List.map_cons, List.map_map]
  refine congrArg (List.cons _) (List.map_congr_left fun i _ => ?_)
  have hplace : place + 8 * (i + 1) = place + 8 + 8 * i := by omega
  simp only [Function.comp_apply, hplace]

/-- Stepping gives the values that a cursor gives at once. -/
theorem yields_toList (c : ValueCursor) : c.Yields c.toList := by
  obtain ⟨bytes, place, remaining⟩ := c
  simp only [toList, take, Nat.min_self]
  induction remaining generalizing place with
  | zero => rfl
  | succ left ih =>
    rw [valuesFrom_succ]
    exact ⟨rfl, ih (place + 8)⟩

end ValueCursor

namespace PageTable

variable {s : PageTable} {offset : Nat}

/-- A node without a run has no targets. -/
theorem reads_openRun_zero : (s.openRun 0).Reads [] :=
  ⟨rfl, List.pairwise_singleton .., List.nil_prefix⟩

theorem targetRun_eq {targets : List Nat} (h : targets ≠ []) :
    targetRun targets =
      littleEndian degreeHeader targets.length ++ Leb128.encodeDeltas targets := by
  rw [targetRun, if_neg (by simpa using h)]

theorem degree_targetRun {targets : List Nat} (hoffset : offset ≠ 0) (htargets : targets ≠ [])
    (h : s.Holds offset (targetRun targets)) (hfit : targets.length < UInt32.size) :
    s.degree offset = targets.length := by
  rw [targetRun_eq htargets] at h
  exact degree_of_holds hoffset h hfit

/-- A held run of ascending targets is opened in front of them. -/
theorem reads_openRun {targets : List Nat} (hoffset : offset ≠ 0) (htargets : targets ≠ [])
    (h : s.Holds offset (targetRun targets)) (hfit : targets.length < UInt32.size)
    (hascending : targets.Pairwise (· ≤ ·)) : (s.openRun offset).Reads targets := by
  rw [openRun, if_neg hoffset]
  refine ⟨degree_targetRun hoffset htargets h hfit,
    List.pairwise_cons.mpr ⟨fun _ _ => Nat.zero_le _, hascending⟩, ?_⟩
  rw [targetRun_eq htargets] at h
  obtain ⟨rest, hrest⟩ := h
  simp only [RunCursor.start]
  rw [Nat.add_zero, ← List.drop_drop, ← hrest, List.append_assoc,
    List.drop_left' (length_littleEndian ..)]
  exact List.prefix_append ..

/-! ## Values -/

/-- The run of some values holds each of them in its eight bytes. -/
theorem valueRun_append (before : List Double) (x : Double) (after : List Double) :
    valueRun (before ++ x :: after) = valueRun before ++ (x.toBytes ++ valueRun after) := by
  simp [valueRun]

theorem length_valueRun (values : List Double) : (valueRun values).length = 8 * values.length := by
  induction values with
  | nil => rfl
  | cons x rest ih =>
    have hcons := valueRun_append [] x rest
    rw [List.nil_append] at hcons
    rw [hcons, List.length_append, List.length_append, Double.length_toBytes, ih,
      List.length_cons]
    simp [valueRun]
    omega

/-- A held run of values gives them back. -/
theorem valuesFrom_of_holds {values : List Double} (h : s.Holds offset (valueRun values)) :
    ValueCursor.valuesFrom (s.page offset) (placeOf offset) values.length = values := by
  refine List.ext_getElem (by simp [ValueCursor.valuesFrom]) fun i hi hvalues => ?_
  have hsplit : values = values.take i ++ values[i] :: values.drop (i + 1) := by
    rw [← List.drop_eq_getElem_cons hvalues, List.take_append_drop]
  have hpiece : s.Holds offset (valueRun (values.take i) ++
      (values[i].toBytes ++ valueRun (values.drop (i + 1)))) := by
    rw [← valueRun_append, ← hsplit]
    exact h
  have hslice := slice_of_holds _ _ _ hpiece
  rw [Double.length_toBytes, length_valueRun, List.length_take,
    Nat.min_eq_left (Nat.le_of_lt hvalues)] at hslice
  simp [ValueCursor.valuesFrom, hslice]

/-- A node without targets has no values. -/
theorem openValues_zero (offset : Nat) : s.openValues offset 0 = .empty := if_pos (Or.inr rfl)

/-- A held run of values is opened as a cursor that gives them. -/
theorem toList_openValues {values : List Double} (hoffset : offset ≠ 0) (hvalues : values ≠ [])
    (h : s.Holds offset (valueRun values)) :
    (s.openValues offset values.length).toList = values := by
  have hlen : ¬ (offset = 0 ∨ values.length = 0) := by
    simp [hoffset, hvalues]
  rw [openValues, if_neg hlen]
  simp only [ValueCursor.toList, ValueCursor.take, Nat.min_self]
  exact valuesFrom_of_holds h

end PageTable

end PagedGraph
