import Mathlib.Logic.Function.Basic
import PagedGraph.Proofs.Cursor.Basic

/-!
# Scripts

Cursors stand in numbered slots, a *bank*.  A script calls them one after another, and
copies the state of one over another.  `Cursor.answers` are the answers to its calls,
each with the slot that gave it, and `Cursor.after` is the bank it leaves.

* If two cursors agree on some calls, they agree on every script of these calls
  (`Cursor.answers_eq_of_asks`).
* A cursor that follows lists agrees with `listCursor` on these lists, in all but how much it
  says remains (`Cursor.Follows.answers_eq`).  If that is exact it agrees in everything
  (`Cursor.Exact.answers_eq`).  One that only counts up to a multiple of two to the power of
  32 agrees with `wordListCursor`, which counts in the same way (`Cursor.Walks.answers_eq`).
* A fork does not reach back: without the steps of the slot that was copied into, all other
  slots answer the same (`Cursor.answers_copy`).
-/

namespace PagedGraph

/-- A call to one cursor. -/
inductive CursorCall where
  | next
  | peek
  | hasNext
  | remaining
  | seekAbove (bound : Nat)
  | seekFrom (bound : Nat)
deriving DecidableEq, Repr

/-- What a cursor says to a call. -/
inductive CursorAnswer where
  | target (t : Option Nat)
  | flag (isLeft : Bool)
  | count (n : Nat)
deriving DecidableEq, Repr

/-- A step of a script. -/
inductive ScriptStep where
  /-- Make a call to the cursor in a slot. -/
  | ask (slot : Nat) (call : CursorCall)
  /-- Copy the state of the cursor in `source` over that in `slot`. -/
  | copy (source slot : Nat)
deriving DecidableEq, Repr

namespace ScriptStep

/-- The slot of the cursor that a step may change. -/
def slot : ScriptStep → Nat
  | ask slot _ => slot
  | copy _ slot => slot

/-- Whether a step makes only calls of some kind. -/
def Asks (asked : CursorCall → Prop) : ScriptStep → Prop
  | ask _ call => asked call
  | copy _ _ => True

/-- Whether a step reads the cursor in a slot for another. -/
def CopiesFrom (twin : Nat) : ScriptStep → Prop
  | ask _ _ => False
  | copy source _ => source = twin

end ScriptStep

namespace Cursor

variable {σ τ : Type}

/-! ## Running scripts -/

/-- The answer to a call. -/
def answer (c : Cursor σ) : CursorCall → σ → CursorAnswer
  | .next, s => .target (c.next s).1
  | .peek, s => .target (c.peek s)
  | .hasNext, s => .flag (c.hasNext s)
  | .remaining, s => .count (c.remaining s)
  | .seekAbove bound, s => .target (c.seekAbove bound s).1
  | .seekFrom bound, s => .target (c.seekFrom bound s).1

/-- The state behind a call. -/
def afterCall (c : Cursor σ) : CursorCall → σ → σ
  | .next, s => (c.next s).2
  | .seekAbove bound, s => (c.seekAbove bound s).2
  | .seekFrom bound, s => (c.seekFrom bound s).2
  | .peek, s | .hasNext, s | .remaining, s => s

/-- The bank behind a step. -/
def afterStep (c : Cursor σ) : ScriptStep → (Nat → σ) → Nat → σ
  | .ask slot call, bank => Function.update bank slot (c.afterCall call (bank slot))
  | .copy source slot, bank => Function.update bank slot (bank source)

/-- The bank behind a script. -/
def after (c : Cursor σ) (script : List ScriptStep) (bank : Nat → σ) : Nat → σ :=
  script.foldl (fun bank step => c.afterStep step bank) bank

/-- The answers to a script, with the slots that give them. -/
def answers (c : Cursor σ) : List ScriptStep → (Nat → σ) → List (Nat × CursorAnswer)
  | [], _ => []
  | .ask slot call :: rest, bank =>
    (slot, c.answer call (bank slot)) :: c.answers rest (c.afterStep (.ask slot call) bank)
  | .copy source slot :: rest, bank => c.answers rest (c.afterStep (.copy source slot) bank)

theorem after_append (c : Cursor σ) (script more : List ScriptStep) (bank : Nat → σ) :
    c.after (script ++ more) bank = c.after more (c.after script bank) :=
  List.foldl_append

/-- Peeking leaves the bank as it is. -/
theorem afterStep_peek (c : Cursor σ) (slot : Nat) (bank : Nat → σ) :
    c.afterStep (.ask slot .peek) bank = bank :=
  Function.update_eq_self ..

/-! ## Agreement -/

/-- A step keeps related banks related. -/
theorem afterStep_related {c : Cursor σ} {d : Cursor τ} {R : σ → τ → Prop}
    (hcall : ∀ call {s t}, R s t → R (c.afterCall call s) (d.afterCall call t))
    (step : ScriptStep) {bank : Nat → σ} {bank' : Nat → τ} (h : ∀ slot, R (bank slot) (bank' slot))
    (slot : Nat) : R (c.afterStep step bank slot) (d.afterStep step bank' slot) := by
  cases step with
  | ask changed call =>
    by_cases hslot : slot = changed
    · subst hslot
      simpa [afterStep] using hcall call (h slot)
    · simpa [afterStep, hslot] using h slot
  | copy source changed =>
    by_cases hslot : slot = changed
    · subst hslot
      simpa [afterStep] using h source
    · simpa [afterStep, hslot] using h slot

/-- A script keeps related banks related. -/
theorem after_related {c : Cursor σ} {d : Cursor τ} {R : σ → τ → Prop}
    (hcall : ∀ call {s t}, R s t → R (c.afterCall call s) (d.afterCall call t))
    (script : List ScriptStep) :
    ∀ {bank : Nat → σ} {bank' : Nat → τ}, (∀ slot, R (bank slot) (bank' slot)) →
      ∀ slot, R (c.after script bank slot) (d.after script bank' slot) := by
  induction script with
  | nil => exact fun h => h
  | cons step rest ih => exact fun h => ih (afterStep_related hcall step h)

/-- What every call keeps, a script keeps in every slot. -/
theorem after_invariant {c : Cursor σ} {P : σ → Prop}
    (hcall : ∀ call s, P s → P (c.afterCall call s)) (script : List ScriptStep) {bank : Nat → σ}
    (h : ∀ slot, P (bank slot)) (slot : Nat) : P (c.after script bank slot) :=
  @after_related σ σ c c (fun s _ => P s) (fun call s _ hs => hcall call s hs) script bank bank h
    slot

/-- Cursors that give related states the same answers to some calls give the same answers to
every script of these calls. -/
theorem answers_eq_of_asks {c : Cursor σ} {d : Cursor τ} {R : σ → τ → Prop}
    {asked : CursorCall → Prop}
    (hcall : ∀ call {s t}, R s t → R (c.afterCall call s) (d.afterCall call t))
    (hanswer : ∀ call {s t}, asked call → R s t → c.answer call s = d.answer call t)
    (script : List ScriptStep) :
    ∀ {bank : Nat → σ} {bank' : Nat → τ}, (∀ slot, R (bank slot) (bank' slot)) →
      (∀ step ∈ script, step.Asks asked) → c.answers script bank = d.answers script bank' := by
  induction script with
  | nil => exact fun _ _ => rfl
  | cons step rest ih =>
    intro bank bank' h hasks
    have hrest := ih (afterStep_related hcall step h) fun step hstep =>
      hasks step (List.mem_cons_of_mem _ hstep)
    cases step with
    | ask slot call =>
      have hasked : asked call := hasks _ (List.mem_cons_self ..)
      rw [answers, answers, hanswer call hasked (h slot), hrest]
    | copy source slot => exact hrest

/-! ## Agreement with lists -/

/-- The list cursor walks along its list. -/
theorem walks_listCursor :
    listCursor.Walks fun ts us => ts = us ∧ us.Pairwise (· ≤ ·) :=
  walks_ofSteps (fun h => h.2) (by
      rintro ts us ⟨rfl, hts⟩
      exact ⟨rfl, rfl, hts.tail⟩)
    (fun h => h.1 ▸ rfl) fun h => h.1 ▸ rfl

variable {c : Cursor σ} {R : σ → List Nat → Prop}

/-- A call leaves a walking cursor the list that it leaves the list cursor. -/
theorem Walks.afterCall (h : c.Walks R) (call : CursorCall) {s : σ} {ts : List Nat}
    (hs : R s ts) : R (c.afterCall call s) (listCursor.afterCall call ts) := by
  have hts : ts = ts ∧ ts.Pairwise (· ≤ ·) := ⟨rfl, h.ascending hs⟩
  cases call with
  | next => exact (h.next hs).2
  | peek => exact hs
  | hasNext => exact hs
  | remaining => exact hs
  | seekAbove bound =>
    rw [Cursor.afterCall, Cursor.afterCall, (walks_listCursor.seekAbove bound hts).2.1]
    exact (h.seekAbove bound hs).2
  | seekFrom bound =>
    rw [Cursor.afterCall, Cursor.afterCall, (walks_listCursor.seekFrom bound hts).2.1]
    exact (h.seekFrom bound hs).2

/-- A following cursor answers as the list cursor does, in all but how much remains. -/
theorem Follows.answer_eq (h : c.Follows R) (call : CursorCall) {s : σ} {ts : List Nat}
    (hne : call ≠ .remaining) (hs : R s ts) : c.answer call s = listCursor.answer call ts := by
  have hts : ts = ts ∧ ts.Pairwise (· ≤ ·) := ⟨rfl, h.ascending hs⟩
  cases call with
  | next => exact congrArg CursorAnswer.target (h.next hs).1
  | peek => exact congrArg CursorAnswer.target (h.peek hs)
  | hasNext =>
    refine congrArg CursorAnswer.flag ((h.hasNext hs).trans ?_)
    cases ts <;> rfl
  | remaining => exact absurd rfl hne
  | seekAbove bound =>
    exact congrArg CursorAnswer.target
      ((h.seekAbove bound hs).1.trans (walks_listCursor.seekAbove bound hts).1.symm)
  | seekFrom bound =>
    exact congrArg CursorAnswer.target
      ((h.seekFrom bound hs).1.trans (walks_listCursor.seekFrom bound hts).1.symm)

/-- A following cursor with an exact count answers as the list cursor does. -/
theorem Exact.answer_eq (hexact : c.Exact R) (h : c.Follows R) (call : CursorCall) {s : σ}
    {ts : List Nat} (hs : R s ts) : c.answer call s = listCursor.answer call ts := by
  by_cases hcall : call = .remaining
  · rw [hcall]
    exact congrArg CursorAnswer.count (hexact hs)
  · exact h.answer_eq call hcall hs

variable {bank : Nat → σ} {lists : Nat → List Nat}

/-- A script leaves walking cursors the lists that it leaves the list cursors. -/
theorem Walks.after (h : c.Walks R) (hbank : ∀ slot, R (bank slot) (lists slot))
    (script : List ScriptStep) (slot : Nat) :
    R (c.after script bank slot) (listCursor.after script lists slot) :=
  after_related (fun call _ _ hs => h.afterCall call hs) script hbank slot

/-- Following cursors answer a script as the list cursors do, in all but how much remains. -/
theorem Follows.answers_eq (h : c.Follows R) (hbank : ∀ slot, R (bank slot) (lists slot))
    {script : List ScriptStep} (hasks : ∀ step ∈ script, step.Asks (· ≠ .remaining)) :
    c.answers script bank = listCursor.answers script lists :=
  answers_eq_of_asks (fun call _ _ hs => h.afterCall call hs)
    (fun call _ _ hne hs => h.answer_eq call hne hs) script hbank hasks

/-- Following cursors with an exact count answer a script as the list cursors do. -/
theorem Exact.answers_eq (hexact : c.Exact R) (h : c.Follows R)
    (hbank : ∀ slot, R (bank slot) (lists slot)) (script : List ScriptStep) :
    c.answers script bank = listCursor.answers script lists := by
  refine answers_eq_of_asks (fun call _ _ hs => h.afterCall call hs)
    (fun call _ _ (_ : True) hs => hexact.answer_eq h call hs) script hbank fun step _ => ?_
  cases step <;> trivial

/-! ## Agreement with lists that are counted in 32 bits -/

/-- The cursor on a list of targets that counts them in 32 bits. -/
def wordListCursor : Cursor (List Nat) :=
  { listCursor with
    remaining := fun ts => ts.length % UInt32.size
    hasNext := fun ts => ts.length % UInt32.size > 0 }

/-- How targets are counted does not matter for what a call leaves. -/
theorem afterCall_wordListCursor (call : CursorCall) (ts : List Nat) :
    wordListCursor.afterCall call ts = listCursor.afterCall call ts := by
  cases call <;> rfl

/-- A walking cursor that counts in 32 bits answers as the list cursor that does so. -/
theorem Walks.answer_eq (h : c.Walks R)
    (hcount : ∀ {s ts}, R s ts → c.remaining s = ts.length % UInt32.size)
    (hhasNext : ∀ s, c.hasNext s = decide (c.remaining s > 0)) (call : CursorCall) {s : σ}
    {ts : List Nat} (hs : R s ts) : c.answer call s = wordListCursor.answer call ts := by
  have hts : ts = ts ∧ ts.Pairwise (· ≤ ·) := ⟨rfl, h.ascending hs⟩
  cases call with
  | next => exact congrArg CursorAnswer.target (h.next hs).1
  | peek => exact congrArg CursorAnswer.target (h.peek hs)
  | hasNext =>
    refine congrArg CursorAnswer.flag ((hhasNext s).trans ?_)
    rw [hcount hs]
    rfl
  | remaining => exact congrArg CursorAnswer.count (hcount hs)
  | seekAbove bound =>
    exact congrArg CursorAnswer.target
      ((h.seekAbove bound hs).1.trans (walks_listCursor.seekAbove bound hts).1.symm)
  | seekFrom bound =>
    exact congrArg CursorAnswer.target
      ((h.seekFrom bound hs).1.trans (walks_listCursor.seekFrom bound hts).1.symm)

/-- Walking cursors that count in 32 bits answer a script as the list cursors that do so. -/
theorem Walks.answers_eq (h : c.Walks R)
    (hcount : ∀ {s ts}, R s ts → c.remaining s = ts.length % UInt32.size)
    (hhasNext : ∀ s, c.hasNext s = decide (c.remaining s > 0))
    (hbank : ∀ slot, R (bank slot) (lists slot)) (script : List ScriptStep) :
    c.answers script bank = wordListCursor.answers script lists := by
  refine answers_eq_of_asks (fun call s ts hs => ?_)
    (fun call _ _ (_ : True) hs => h.answer_eq hcount hhasNext call hs) script hbank
    fun step _ => ?_
  · rw [afterCall_wordListCursor]
    exact h.afterCall call hs
  · cases step <;> trivial

/-! ## What a script leaves of a list -/

/-- A call leaves the rear of the list. -/
theorem listCursor_afterCall_suffix (call : CursorCall) {ts : List Nat}
    (hts : ts.Pairwise (· ≤ ·)) : listCursor.afterCall call ts <:+ ts := by
  have hself : ts = ts ∧ ts.Pairwise (· ≤ ·) := ⟨rfl, hts⟩
  cases call with
  | next => exact List.tail_suffix ts
  | peek => exact List.suffix_refl ts
  | hasNext => exact List.suffix_refl ts
  | remaining => exact List.suffix_refl ts
  | seekAbove bound =>
    rw [Cursor.afterCall, (walks_listCursor.seekAbove bound hself).2.1]
    exact (List.tail_suffix _).trans (List.dropWhile_suffix _)
  | seekFrom bound =>
    rw [Cursor.afterCall, (walks_listCursor.seekFrom bound hself).2.1]
    exact (List.tail_suffix _).trans (List.dropWhile_suffix _)

/-- A script leaves in every slot the rear of a list that stood in some slot. -/
theorem listCursor_after_suffix (hlists : ∀ slot, (lists slot).Pairwise (· ≤ ·))
    (script : List ScriptStep) (slot : Nat) :
    ∃ origin, listCursor.after script lists slot <:+ lists origin := by
  refine @after_invariant _ listCursor (fun ts => ∃ origin, ts <:+ lists origin)
    (fun call ts hts => ?_) script lists (fun slot => ⟨slot, List.suffix_refl _⟩) slot
  obtain ⟨origin, hts⟩ := hts
  have hascending := (hlists origin).sublist hts.sublist
  exact ⟨origin, (listCursor_afterCall_suffix call hascending).trans hts⟩

/-! ## Forks -/

/-- A step of another slot than `twin`, which does not read `twin`, does the same to banks that
agree outside `twin`. -/
theorem afterStep_congr (c : Cursor σ) {twin : Nat} {step : ScriptStep}
    (hcopies : ¬ step.CopiesFrom twin) (hslot : step.slot ≠ twin) {bank bank' : Nat → σ}
    (hagree : ∀ slot, slot ≠ twin → bank slot = bank' slot) (slot : Nat) (hne : slot ≠ twin) :
    c.afterStep step bank slot = c.afterStep step bank' slot := by
  cases step with
  | ask changed call =>
    have hchanged : bank changed = bank' changed := hagree changed hslot
    by_cases heq : slot = changed
    · subst heq
      simp [afterStep, hchanged]
    · simp [afterStep, heq, hagree slot hne]
  | copy source changed =>
    have hsource : bank source = bank' source := hagree source hcopies
    by_cases heq : slot = changed
    · subst heq
      simp [afterStep, hsource]
    · simp [afterStep, heq, hagree slot hne]

/-- A step of `twin` changes no other slot. -/
theorem afterStep_of_ne (c : Cursor σ) {step : ScriptStep} {slot : Nat} (hne : slot ≠ step.slot)
    (bank : Nat → σ) : c.afterStep step bank slot = bank slot := by
  cases step with
  | ask changed call => exact Function.update_of_ne hne ..
  | copy source changed => exact Function.update_of_ne hne ..

/-- On banks that agree outside `twin`, the other slots answer the same, with or without the
steps of `twin`, as long as none of them is copied from it. -/
theorem answers_purge (c : Cursor σ) {twin : Nat} (script : List ScriptStep) :
    ∀ {bank bank' : Nat → σ}, (∀ step ∈ script, ¬ step.CopiesFrom twin) →
      (∀ slot, slot ≠ twin → bank slot = bank' slot) →
      (c.answers script bank).filter (·.1 ≠ twin) =
        c.answers (script.filter (·.slot ≠ twin)) bank' := by
  induction script with
  | nil => exact fun _ _ => rfl
  | cons step rest ih =>
    intro bank bank' hcopies hagree
    have hrest : ∀ step ∈ rest, ¬ step.CopiesFrom twin :=
      fun step hstep => hcopies step (List.mem_cons_of_mem _ hstep)
    by_cases hslot : step.slot = twin
    · have hkept : ∀ slot, slot ≠ twin → c.afterStep step bank slot = bank' slot :=
        fun slot hne => (c.afterStep_of_ne (hslot ▸ hne) bank).trans (hagree slot hne)
      rw [List.filter_cons_of_neg (by simpa using hslot), ← ih hrest hkept]
      cases step with
      | ask slot call => exact List.filter_cons_of_neg (by simpa [ScriptStep.slot] using hslot)
      | copy source slot => rfl
    · have hsame := c.afterStep_congr (hcopies step (List.mem_cons_self ..)) hslot hagree
      rw [List.filter_cons_of_pos (by simpa using hslot)]
      cases step with
      | ask slot call =>
        rw [answers, answers, List.filter_cons_of_pos (by simpa [ScriptStep.slot] using hslot),
          ih hrest hsame, hagree slot hslot]
      | copy source slot => exact ih hrest hsame

/-- Without the copy into `twin` and the steps of `twin` all other slots answer the same. -/
theorem answers_copy (c : Cursor σ) {source twin : Nat} {script : List ScriptStep}
    (hcopies : ∀ step ∈ script, ¬ step.CopiesFrom twin) (bank : Nat → σ) :
    (c.answers (.copy source twin :: script) bank).filter (·.1 ≠ twin) =
      c.answers (script.filter (·.slot ≠ twin)) bank :=
  c.answers_purge script hcopies fun _ hne => Function.update_of_ne hne ..

end Cursor

end PagedGraph
