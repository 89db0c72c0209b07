import PagedGraph.Proofs.Cursor.Merge
import PagedGraph.Proofs.Cursor.Script

/-!
# Scripts on encoded runs

An `EncodedRun` is ascending targets as they lie in a page, with other bytes in front and
behind.  A cursor on one run, and a merging cursor on any number of them, answers every
script as a list cursor does: that on the targets of the run, or on the targets of all runs
in ascending order (`readsLists_encodedRuns`).

The targets of one run can be counted in 32 bits, those of several runs perhaps not.  In any
case a merging cursor is a list cursor that counts in 32 bits.  If the targets of all runs can
be counted so, it is the list cursor.

`Cursor.ReadsLists` says all this of a bank of cursors.  It follows from what holds of one
call, since both cursors walk along their lists and count what is left.
-/

namespace PagedGraph

/-- Ascending targets as they lie in a page. -/
structure EncodedRun where
  /-- The bytes of the page in front of the targets, the degree of the run included. -/
  front : List UInt8
  targets : List Nat
  /-- The bytes behind the targets. -/
  back : List UInt8
  ascending : targets.Pairwise (· ≤ ·)
  /-- The degree of a run is a word. -/
  counted : targets.length < UInt32.size

namespace EncodedRun

/-- The page a run lies in. -/
def page (r : EncodedRun) : Array UInt8 :=
  (r.front ++ (Leb128.encodeDeltas r.targets ++ r.back)).toArray

/-- The cursor in front of a run. -/
def cursor (r : EncodedRun) : RunCursor := .start r.page r.front.length r.targets.length

theorem reads_cursor (r : EncodedRun) : r.cursor.Reads r.targets where
  remaining := rfl
  ascending := List.pairwise_cons.mpr ⟨fun _ _ => Nat.zero_le _, r.ascending⟩
  bytes := by
    have hdrop : r.page.toList.drop (r.front.length + 0) =
        Leb128.encodeDeltas r.targets ++ r.back := List.drop_left
    exact ⟨r.back, hdrop.symm⟩

/-- The targets of some runs together, in ascending order. -/
def merged (family : List EncodedRun) : List Nat :=
  (family.flatMap targets).mergeSort (· ≤ ·)

/-- The merging cursor in front of some runs. -/
def mergeCursorOf (family : List EncodedRun) : MergeCursor := .ofRuns (family.map cursor)

theorem reads_mergeCursorOf (family : List EncodedRun) :
    (mergeCursorOf family).Reads (merged family) := by
  have hruns : List.Forall₂ RunCursor.Reads (family.map cursor) (family.map targets) := by
    rw [List.forall₂_map_left_iff, List.forall₂_map_right_iff, List.forall₂_same]
    exact fun r _ => r.reads_cursor
  exact MergeCursor.reads_ofRuns hruns (pairwise_mergeSort _) (List.mergeSort_perm ..)

end EncodedRun

/-- What runs say remains is the number of their targets. -/
theorem exact_runCursor : runCursor.Exact RunCursor.Reads := fun h => h.remaining

/-- On short lists counting in 32 bits is exact. -/
theorem exact_mergeCursor : mergeCursor.Exact (Cursor.Short MergeCursor.Reads) := fun h =>
  h.1.remaining.trans (Nat.mod_eq_of_lt h.2)

/-- The cursor on several runs follows their targets, if these can be counted in 32 bits. -/
theorem follows_mergeCursor : mergeCursor.Follows (Cursor.Short MergeCursor.Reads) :=
  walks_mergeCursor.short.follows exact_mergeCursor fun _ => rfl

/-- The cursor on runs follows the targets it reads. -/
theorem follows_runCursor : runCursor.Follows RunCursor.Reads :=
  walks_runCursor.follows exact_runCursor fun _ => rfl

/-- Cursors in slots are those on lists that `spec` describes, for everything that scripts can
ask. -/
structure Cursor.ReadsLists {σ : Type} (c : Cursor σ) (spec : Cursor (List Nat)) (bank : Nat → σ)
    (lists : Nat → List Nat) : Prop where
  /-- Every answer is that of the list cursors. -/
  answers : ∀ script, c.answers script bank = spec.answers script lists
  /-- What a cursor gives from then on is the rear of a list: that behind the targets which the
  script has taken or passed. -/
  left : ∀ script slot, c.toList (c.after script bank slot) = listCursor.after script lists slot ∧
    ∃ origin, listCursor.after script lists slot <:+ lists origin
  /-- A cursor counts what it gives from then on. -/
  remaining : ∀ script slot,
    c.remaining (c.after script bank slot) = spec.remaining (c.toList (c.after script bank slot))
  /-- After a fork all other slots answer as if neither the fork nor its calls had been made. -/
  fork : ∀ before source twin rest, (∀ step ∈ rest, ¬ ScriptStep.CopiesFrom twin step) →
    (c.answers (.copy source twin :: rest) (c.after before bank)).filter (·.1 ≠ twin) =
      c.answers (rest.filter (·.slot ≠ twin)) (c.after before bank)

/-- Cursors that walk along lists, and answer and count as `spec` does, read them. -/
theorem Cursor.Walks.readsLists {σ : Type} {c : Cursor σ} {spec : Cursor (List Nat)}
    {R : σ → List Nat → Prop} (h : c.Walks R) {bank : Nat → σ} {lists : Nat → List Nat}
    (hbank : ∀ slot, R (bank slot) (lists slot))
    (hanswers : ∀ script, c.answers script bank = spec.answers script lists)
    (hcount : ∀ {s ts}, R s ts → c.remaining s = spec.remaining ts) :
    c.ReadsLists spec bank lists where
  answers := hanswers
  left script slot :=
    ⟨h.toList_eq (h.after hbank script slot),
      listCursor_after_suffix (fun slot => h.ascending (hbank slot)) script slot⟩
  remaining script slot := by
    have hafter := h.after hbank script slot
    rw [hcount hafter, h.toList_eq hafter]
  fork _ _ _ _ hcopies := c.answers_copy hcopies _

/-- Cursors that follow lists and count them exactly are list cursors. -/
theorem Cursor.Follows.readsLists {σ : Type} {c : Cursor σ} {R : σ → List Nat → Prop}
    (h : c.Follows R) (hexact : c.Exact R) {bank : Nat → σ} {lists : Nat → List Nat}
    (hbank : ∀ slot, R (bank slot) (lists slot)) : c.ReadsLists listCursor bank lists :=
  h.toWalks.readsLists hbank (hexact.answers_eq h hbank) hexact

/-- Merging cursors on any families of runs are list cursors on their merged targets that count
in 32 bits, and list cursors if all targets can be counted so.  Cursors on runs are list cursors
on the targets of these. -/
theorem readsLists_encodedRuns :
    (∀ families : Nat → List EncodedRun,
      mergeCursor.ReadsLists Cursor.wordListCursor
          (fun slot => EncodedRun.mergeCursorOf (families slot))
          (fun slot => EncodedRun.merged (families slot)) ∧
        ((∀ slot, (EncodedRun.merged (families slot)).length < UInt32.size) →
          mergeCursor.ReadsLists listCursor
            (fun slot => EncodedRun.mergeCursorOf (families slot))
            fun slot => EncodedRun.merged (families slot))) ∧
      ∀ runs : Nat → EncodedRun, runCursor.ReadsLists listCursor
        (fun slot => (runs slot).cursor) fun slot => (runs slot).targets := by
  refine ⟨fun families => ?_, fun runs => ?_⟩
  · have hreads := fun slot => EncodedRun.reads_mergeCursorOf (families slot)
    refine ⟨walks_mergeCursor.readsLists hreads ?_ MergeCursor.Reads.remaining, fun hshort => ?_⟩
    · exact walks_mergeCursor.answers_eq MergeCursor.Reads.remaining (fun _ => rfl) hreads
    · exact follows_mergeCursor.readsLists exact_mergeCursor fun slot =>
        ⟨hreads slot, hshort slot⟩
  · exact follows_runCursor.readsLists exact_runCursor fun slot => (runs slot).reads_cursor

/-- Two runs of three targets each, read as one. -/
theorem readsLists_encodedRuns_twoRuns :
    (EncodedRun.merged [⟨[], [0, 1, 2], [], by decide, by decide⟩,
        ⟨[7], [1, 2, 2], [5], by decide, by decide⟩]).length < UInt32.size ∧
      mergeCursor.ReadsLists listCursor
        (fun _ => EncodedRun.mergeCursorOf [⟨[], [0, 1, 2], [], by decide, by decide⟩,
          ⟨[7], [1, 2, 2], [5], by decide, by decide⟩])
        fun _ => EncodedRun.merged [⟨[], [0, 1, 2], [], by decide, by decide⟩,
          ⟨[7], [1, 2, 2], [5], by decide, by decide⟩] := by
  have hshort : (EncodedRun.merged [⟨[], [0, 1, 2], [], by decide, by decide⟩,
      ⟨[7], [1, 2, 2], [5], by decide, by decide⟩]).length < UInt32.size := by
    rw [EncodedRun.merged, List.length_mergeSort]
    decide
  exact ⟨hshort, (readsLists_encodedRuns.1 fun _ => _).2 fun _ => hshort⟩

end PagedGraph
