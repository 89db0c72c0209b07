import PagedGraph.Proofs.Cursor.Encoded
import PagedGraph.Proofs.Cursor.Through
import PagedGraph.Proofs.Numbering.Select

/-!
# Cursors that end for good

A cursor is faithful to lists if it follows them, and a call that moves it and finds no
target leaves nothing to count (`Cursor.Faithful`).  Such a cursor has come to its end: it
gives no target any more, whatever it is asked (`Cursor.Faithful.isEnd_answers`).

* A cursor with an exact count is faithful (`Cursor.Exact.faithful`), so the cursors on what
  graphs store are.
* Read through a node filter, a faithful cursor is faithful to the new ids of the targets that
  pass (`Cursor.Faithful.through`).  Its count is too large while there are targets left that
  will be dropped.  So `remaining` cannot tell whether a target is left, and `hasNext` looks
  for one.

`Cursor.Faithful.readsPassing` puts together what scripts see of a filtered cursor.
-/

namespace PagedGraph

/-- Whether a call moves the cursor on. -/
def CursorCall.Moves : CursorCall → Prop
  | next | seekAbove _ | seekFrom _ => True
  | peek | hasNext | remaining => False

/-- What is said of no targets. -/
def CursorAnswer.IsEnd : CursorAnswer → Prop
  | target t => t = none
  | flag isLeft => isLeft = false
  | count n => n = 0

/-- Whether a step copies over the cursor in a slot. -/
def ScriptStep.CopiesTo (slot : Nat) : ScriptStep → Prop
  | ask _ _ => False
  | copy _ changed => changed = slot

namespace Cursor

variable {σ : Type} {c : Cursor σ} {R : σ → List Nat → Prop}

/-- A cursor follows lists, and counts nothing once a call that moved it found no target. -/
structure Faithful (c : Cursor σ) (R : σ → List Nat → Prop) : Prop extends c.Follows R where
  ends : ∀ (call : CursorCall) {s ts}, call.Moves → R s ts → c.answer call s = .target none →
    c.remaining (c.afterCall call s) = 0

/-! ## At the end -/

/-- A call that moves the list cursor and finds no target leaves no list. -/
theorem listCursor_afterCall_eq_nil {call : CursorCall} (hmoves : call.Moves) {ts : List Nat}
    (hts : ts.Pairwise (· ≤ ·)) (hnone : listCursor.answer call ts = .target none) :
    listCursor.afterCall call ts = [] := by
  have hself : ts = ts ∧ ts.Pairwise (· ≤ ·) := ⟨rfl, hts⟩
  cases call with
  | next =>
    have hnil : ts = [] := List.head?_eq_none_iff.mp (CursorAnswer.target.inj hnone)
    rw [hnil]
    rfl
  | seekAbove bound =>
    obtain ⟨hhead, hrest, -⟩ := walks_listCursor.seekAbove bound hself
    rw [answer, CursorAnswer.target.injEq, hhead, List.head?_eq_none_iff] at hnone
    rw [Cursor.afterCall, hrest, hnone]
    rfl
  | seekFrom bound =>
    obtain ⟨hhead, hrest, -⟩ := walks_listCursor.seekFrom bound hself
    rw [answer, CursorAnswer.target.injEq, hhead, List.head?_eq_none_iff] at hnone
    rw [Cursor.afterCall, hrest, hnone]
    rfl
  | peek => exact hmoves.elim
  | hasNext => exact hmoves.elim
  | remaining => exact hmoves.elim

/-- No targets are left, and none are counted. -/
def Spent (c : Cursor σ) (R : σ → List Nat → Prop) (s : σ) : Prop := R s [] ∧ c.remaining s = 0

/-- A call that moved a cursor and found no target has spent it. -/
theorem Faithful.spent_of_none (h : c.Faithful R) (call : CursorCall) (hmoves : call.Moves) {s : σ}
    {ts : List Nat} (hs : R s ts) (hnone : c.answer call s = .target none) :
    c.Spent R (c.afterCall call s) := by
  have hne : call ≠ .remaining := by
    rintro rfl
    exact hmoves
  have hafter := h.afterCall call hs
  rw [listCursor_afterCall_eq_nil hmoves (h.ascending hs)
    ((h.answer_eq call hne hs).symm.trans hnone)] at hafter
  exact ⟨hafter, h.ends call hmoves hs hnone⟩

/-- A spent cursor says so. -/
theorem Faithful.isEnd_answer (h : c.Faithful R) {s : σ} (hs : c.Spent R s) (call : CursorCall) :
    (c.answer call s).IsEnd := by
  cases call with
  | next => exact (h.next hs.1).1
  | peek => exact h.peek hs.1
  | hasNext => exact h.hasNext hs.1
  | remaining => exact hs.2
  | seekAbove bound => exact (h.seekAbove bound hs.1).1
  | seekFrom bound => exact (h.seekFrom bound hs.1).1

/-- A spent cursor stays spent. -/
theorem Faithful.spent_afterCall (h : c.Faithful R) {s : σ} (hs : c.Spent R s)
    (call : CursorCall) : c.Spent R (c.afterCall call s) := by
  have hend := h.isEnd_answer hs call
  cases call with
  | peek => exact hs
  | hasNext => exact hs
  | remaining => exact hs
  | next => exact h.spent_of_none .next trivial hs.1 (congrArg CursorAnswer.target hend)
  | seekAbove bound =>
    exact h.spent_of_none (.seekAbove bound) trivial hs.1 (congrArg CursorAnswer.target hend)
  | seekFrom bound =>
    exact h.spent_of_none (.seekFrom bound) trivial hs.1 (congrArg CursorAnswer.target hend)

/-- A step that does not copy over a spent cursor leaves it spent. -/
theorem Faithful.spent_afterStep (h : c.Faithful R) {slot : Nat} {bank : Nat → σ}
    (hs : c.Spent R (bank slot)) {step : ScriptStep} (hcopies : ¬ step.CopiesTo slot) :
    c.Spent R (c.afterStep step bank slot) := by
  by_cases hslot : slot = step.slot
  · cases step with
    | ask changed call =>
      obtain rfl : slot = changed := hslot
      rw [afterStep, Function.update_self]
      exact h.spent_afterCall hs call
    | copy source changed => exact absurd hslot.symm hcopies
  · rw [c.afterStep_of_ne hslot]
    exact hs

/-- A spent cursor is at its end for every script that does not copy over it. -/
theorem Faithful.isEnd_answers (h : c.Faithful R) {slot : Nat} (script : List ScriptStep) :
    ∀ {bank : Nat → σ}, c.Spent R (bank slot) → (∀ step ∈ script, ¬ step.CopiesTo slot) →
      (∀ a, (slot, a) ∈ c.answers script bank → a.IsEnd) ∧
        c.remaining (c.after script bank slot) = 0 := by
  induction script with
  | nil => exact fun hs _ => ⟨by simp [answers], hs.2⟩
  | cons step rest ih =>
    intro bank hs hcopies
    have hrest := ih (h.spent_afterStep hs (hcopies step (List.mem_cons_self ..))) fun step hstep =>
      hcopies step (List.mem_cons_of_mem _ hstep)
    refine ⟨fun a ha => ?_, hrest.2⟩
    cases step with
    | ask changed call =>
      rcases List.mem_cons.mp ha with heq | ha
      · obtain ⟨rfl, rfl⟩ := Prod.mk.inj heq
        exact h.isEnd_answer hs call
      · exact hrest.1 a ha
    | copy source changed => exact hrest.1 a ha

/-! ## Faithful cursors -/

/-- A following cursor with an exact count is faithful. -/
theorem Exact.faithful (hexact : c.Exact R) (h : c.Follows R) : c.Faithful R where
  toFollows := h
  ends call s ts hmoves hs hnone := by
    have hafter := h.afterCall call hs
    rw [listCursor_afterCall_eq_nil hmoves (h.ascending hs)
      ((hexact.answer_eq h call hs).symm.trans hnone)] at hafter
    exact hexact hafter

variable (filter : NodeFilter)

/-- Stepping on to the first target that passes counts nothing if there is none. -/
theorem Faithful.firstPassing_ends (h : c.Faithful R) (olds : List Nat) :
    ∀ (fuel : Nat) (found : Option Nat × σ), olds.length ≤ fuel → found.1 = olds.head? →
      R found.2 olds.tail → (found.1 = none → c.remaining found.2 = 0) →
      (c.firstPassing filter fuel found).1 = none →
        c.remaining (c.firstPassing filter fuel found).2 = 0 := by
  induction olds with
  | nil =>
    rintro fuel ⟨found, s⟩ - hfound - hend -
    cases hfound
    rw [firstPassing]
    exact hend rfl
  | cons old olds ih =>
    rintro fuel ⟨found, s⟩ hfuel hfound hs - hnone
    cases hfound
    cases fuel with
    | zero => cases hfuel
    | succ fuel =>
      cases hnew : filter.newOf? old with
      | some new =>
        rw [firstPassing.eq_2 _ _ _ _ _ _ hnew] at hnone
        cases hnone
      | none =>
        obtain ⟨hhead, hrest⟩ := h.next hs
        simp only [firstPassing, hnew] at hnone ⊢
        refine ih fuel _ (Nat.le_of_succ_le_succ hfuel) hhead hrest (fun hend => ?_) hnone
        exact h.ends .next trivial hs (congrArg CursorAnswer.target hend)

/-- A search below that is continued to the first target that passes counts nothing if there is
none. -/
theorem Faithful.passing_ends (h : c.Faithful R) {olds : List Nat} {found : Option Nat × σ}
    (hfound : found.1 = olds.head?) (hs : R found.2 olds.tail)
    (hend : found.1 = none → c.remaining found.2 = 0)
    (hnone : (c.passing filter found).1 = none) : c.remaining (c.passing filter found).2 = 0 := by
  refine h.firstPassing_ends filter olds _ found ?_ hfound hs hend hnone
  have hle := h.left hs
  rw [List.length_tail] at hle
  omega

/-- Gathering all targets leaves nothing to count. -/
theorem Faithful.gather_ends (h : c.Faithful R) (ts : List Nat) :
    ∀ (fuel : Nat) (s : σ) (before : List Nat), R s ts → ts.length < fuel →
      c.remaining (c.gather fuel s before).2 = 0 := by
  induction ts with
  | nil =>
    intro fuel s before hs hfuel
    cases fuel with
    | zero => cases hfuel
    | succ fuel =>
      have hnone : (c.next s).1 = none := (h.next hs).1
      have hend := h.ends .next trivial hs (congrArg CursorAnswer.target hnone)
      rw [gather]
      split
      · next t s' heq =>
        rw [heq] at hnone
        cases hnone
      · next s' heq =>
        rw [afterCall, heq] at hend
        exact hend
  | cons t ts ih =>
    intro fuel s before hs hfuel
    cases fuel with
    | zero => cases hfuel
    | succ fuel =>
      obtain ⟨hhead, hrest⟩ := h.next hs
      rw [gather]
      split
      · next u s' heq =>
        rw [heq] at hrest
        exact ih fuel s' _ hrest (Nat.lt_of_succ_lt_succ hfuel)
      · next s' heq =>
        rw [heq] at hhead
        cases hhead

theorem Faithful.drain_ends (h : c.Faithful R) {s : σ} {ts : List Nat} (hs : R s ts) :
    c.remaining (c.drain s).2 = 0 :=
  h.gather_ends ts _ s [] hs (Nat.lt_succ_of_le (h.left hs))

/-- A faithful cursor read through a filter is faithful to the new ids of what passes. -/
theorem Faithful.through (h : c.Faithful R) : (c.through filter).Faithful (PassedBy filter R) where
  toFollows := h.toFollows.through filter
  ends call s ts hmoves hs hnone := by
    obtain ⟨olds, holds, rfl⟩ := hs
    cases call with
    | next =>
      obtain ⟨hhead, hrest⟩ := h.next holds
      exact h.passing_ends filter hhead hrest
        (fun hend => h.ends .next trivial holds (congrArg CursorAnswer.target hend))
        (CursorAnswer.target.inj hnone)
    | seekAbove bound =>
      simp only [answer, CursorAnswer.target.injEq, afterCall, Cursor.through] at hnone ⊢
      cases hroot : filter.oldOf? bound with
      | none => exact h.drain_ends holds
      | some root =>
        rw [hroot] at hnone
        obtain ⟨hhead, hrest⟩ := h.seekAbove root holds
        exact h.passing_ends filter hhead hrest (fun hend =>
          h.ends (.seekAbove root) trivial holds (congrArg CursorAnswer.target hend)) hnone
    | seekFrom bound =>
      simp only [answer, CursorAnswer.target.injEq, afterCall, Cursor.through] at hnone ⊢
      cases hroot : filter.oldOf? bound with
      | none => exact h.drain_ends holds
      | some root =>
        rw [hroot] at hnone
        obtain ⟨hhead, hrest⟩ := h.seekFrom root holds
        exact h.passing_ends filter hhead hrest (fun hend =>
          h.ends (.seekFrom root) trivial holds (congrArg CursorAnswer.target hend)) hnone
    | peek => exact hmoves.elim
    | hasNext => exact hmoves.elim
    | remaining => exact hmoves.elim

/-- Cursors in slots that drop targets are cursors on lists, for all that scripts can ask except
how much remains. -/
structure ReadsPassing (c : Cursor σ) (bank : Nat → σ) (lists : Nat → List Nat) : Prop where
  /-- Every answer is that of the list cursors. -/
  answers : ∀ script, (∀ step ∈ script, ScriptStep.Asks (· ≠ .remaining) step) →
    c.answers script bank = listCursor.answers script lists
  /-- A target is left if the next step gives one. -/
  hasNext : ∀ script slot,
    c.hasNext (c.after script bank slot) = (c.next (c.after script bank slot)).1.isSome
  /-- Peeking gives what the next step gives, and all that follows is as if it had not been done. -/
  peek : ∀ before slot rest, c.answers (.ask slot .peek :: rest) (c.after before bank) =
    (slot, .target (c.next (c.after before bank slot)).1) :: c.answers rest (c.after before bank)
  /-- At least the targets that are left remain. -/
  remaining : ∀ script slot,
    (listCursor.after script lists slot).length ≤ c.remaining (c.after script bank slot)
  /-- A call that moves a cursor and finds no target ends it for good. -/
  ended : ∀ before slot call, call.Moves →
    c.answer call (c.after before bank slot) = .target none →
      ∀ rest, (∀ step ∈ rest, ¬ ScriptStep.CopiesTo slot step) →
        (∀ a, (slot, a) ∈ c.answers rest (c.after (before ++ [.ask slot call]) bank) → a.IsEnd) ∧
          c.remaining (c.after (before ++ .ask slot call :: rest) bank slot) = 0

/-- Faithful cursors read through a filter are cursors on the new ids of the targets that pass. -/
theorem Faithful.readsPassing (h : c.Faithful R) (filter : NodeFilter) {bank : Nat → σ}
    {olds : Nat → List Nat} (hbank : ∀ slot, R (bank slot) (olds slot)) :
    (c.through filter).ReadsPassing bank fun slot => (olds slot).filterMap filter.newOf? := by
  have hthrough := h.through filter
  have hpassed : ∀ slot, PassedBy filter R (bank slot) ((olds slot).filterMap filter.newOf?) :=
    fun slot => ⟨olds slot, hbank slot, rfl⟩
  constructor
  case answers => exact fun script hasks => hthrough.answers_eq hpassed hasks
  case hasNext => exact fun _ _ => rfl
  case peek =>
    intro before slot rest
    rw [Cursor.answers, afterStep_peek]
    rfl
  case remaining => exact fun script slot => hthrough.remaining (hthrough.after hpassed script slot)
  case ended =>
    intro before slot call hmoves hnone rest hrest
    have hspent := hthrough.spent_of_none call hmoves (hthrough.after hpassed before slot) hnone
    have hslot : (c.through filter).Spent (PassedBy filter R)
        ((c.through filter).after (before ++ [.ask slot call]) bank slot) := by
      rw [after_append]
      simpa [Cursor.after, afterStep] using hspent
    have hend := hthrough.isEnd_answers rest hslot hrest
    rw [← after_append, List.append_assoc, List.singleton_append] at hend
    exact hend

end Cursor

/-! ## What graphs store -/

theorem exact_baseCursor : baseCursor.Exact (Cursor.Short BaseCursor.Reads) := fun {s _} h => by
  cases s with
  | run c => exact exact_runCursor h.1
  | union c => exact exact_mergeCursor h

theorem follows_baseCursor : baseCursor.Follows (Cursor.Short BaseCursor.Reads) :=
  walks_baseCursor.short.follows exact_baseCursor fun s => by cases s <;> rfl

/-- The cursors on what graphs store, on one run or on several, are faithful while their targets
can be counted in 32 bits. -/
theorem faithful_baseCursor : baseCursor.Faithful (Cursor.Short BaseCursor.Reads) :=
  Cursor.Exact.faithful exact_baseCursor follows_baseCursor

/-- Two runs read as one, through the filter of the first and the third of three nodes. -/
theorem readsPassing_twoRuns :
    ∃ filter, (Numbering.ofAscending 0 [(1, ["A"]), (2, []), (3, ["A"])] (by decide)).filter 1 ["A"]
        = .ok filter ∧
      (baseCursor.through filter).ReadsPassing
        (fun _ => .union (EncodedRun.mergeCursorOf
          [⟨[], [0, 1, 2], [], by decide, by decide⟩, ⟨[7], [1, 2, 2], [5], by decide, by decide⟩]))
        fun _ => [0, 1, 1, 1] := by
  have hmerged : EncodedRun.merged
      [⟨[], [0, 1, 2], [], by decide, by decide⟩, ⟨[7], [1, 2, 2], [5], by decide, by decide⟩] =
        [0, 1, 1, 2, 2, 2] :=
    eq_of_perm (pairwise_mergeSort _) (by decide) ((List.mergeSort_perm ..).trans (by decide))
  have hreads : ∀ _ : Nat, Cursor.Short BaseCursor.Reads (.union (EncodedRun.mergeCursorOf
      [⟨[], [0, 1, 2], [], by decide, by decide⟩, ⟨[7], [1, 2, 2], [5], by decide, by decide⟩]))
        [0, 1, 1, 2, 2, 2] :=
    fun _ => ⟨hmerged ▸ EncodedRun.reads_mergeCursorOf _, by decide⟩
  have hselected : (Numbering.ofAscending 0 [(1, ["A"]), (2, []), (3, ["A"])]
      (by decide)).withSomeLabel ["A"] = [0, 2] :=
    (Numbering.withSomeLabel_ofAscending (by decide) ["A"]).trans (by decide)
  have hknown : ∀ label ∈ ["A"], (Numbering.ofAscending 0 [(1, ["A"]), (2, []), (3, ["A"])]
      (by decide)).knowsLabel label = true :=
    fun _ => Numbering.knowsLabel_ofAscending _ (@List.mem_cons_self _ (1, ["A"]) _)
  refine ⟨_, Numbering.filter_eq_ok hknown 1, ?_⟩
  have hpassing := faithful_baseCursor.readsPassing (Numbering.select
    (.ofAscending 0 [(1, ["A"]), (2, []), (3, ["A"])] (by decide)) 1 ["A"]) hreads
  rw [Numbering.newOf?_select, hselected] at hpassing
  exact hpassing

end PagedGraph
