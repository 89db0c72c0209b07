import PagedGraph.Proofs.View.Basic

/-!
# Relationships handed to a consumer

A consumer is called with one item after another until it declines one.  `Hands each xs` says that
an iteration calls every consumer with the items of `xs`, in this order, up to and with the first
that it declines.  So a consumer that declines at its k-th call is called k times.

An iteration knows no list.  It steps a cursor, or two side by side, it goes from member to member
of a union and keeps a flag for a consumer that has declined, and it wraps the consumer at every
filter.  Each of these is the visit of a list.

* Stepping visits what it gives (`Gives.visitSteps_eq`).
* The flag is up after a visit if the consumer has declined (`visit_append`).
* A consumer wrapped at a filter is called with what passes (`visit_filterMap`).
* The relationships of a node of a view are visited as its list of them
  (`View.visitEach?_eq`).
-/

namespace PagedGraph

variable {α β σ τ υ : Type}

/-! ## Calls -/

/-- A consumer accepts some items, one after another. -/
inductive Accepts (consumer : σ → α → σ × Bool) : σ → List α → σ → Prop where
  | nil {s : σ} : Accepts consumer s [] s
  | cons {s s' s'' : σ} {x : α} {xs : List α} (h : consumer s x = (s', true))
    (hxs : Accepts consumer s' xs s'') : Accepts consumer s (x :: xs) s''

/-- A consumer that writes down its calls. -/
def recorded (consumer : σ → α → σ × Bool) (s : σ × List α) (x : α) : (σ × List α) × Bool :=
  (((consumer s.1 x).1, s.2 ++ [x]), (consumer s.1 x).2)

/-- An iteration calls a consumer with the items of a list in their order, up to and with the first
that the consumer declines. -/
structure Hands (each : ∀ {σ : Type}, (σ → α → σ × Bool) → σ → Option σ) (xs : List α) :
    Prop where
  /-- That the calls are written down changes nothing. -/
  unseen : ∀ {σ : Type} (consumer : σ → α → σ × Bool) (s : σ),
    each consumer s = (each (recorded consumer) (s, [])).map Prod.fst
  all : ∀ {σ : Type} {consumer : σ → α → σ × Bool} {s s' : σ}, Accepts consumer s xs s' →
    each (recorded consumer) (s, []) = some (s', xs)
  stops : ∀ {σ : Type} {consumer : σ → α → σ × Bool} {s s' s'' : σ} {before after : List α} {x : α},
    xs = before ++ x :: after → Accepts consumer s before s' → consumer s' x = (s'', false) →
    each (recorded consumer) (s, []) = some (s'', before ++ [x])

namespace View

variable {consumer : σ → α → σ × Bool} {s s' : σ} {xs : List α}

/-- A visit goes on behind what the consumer accepts. -/
theorem visit_append_of_accepts (h : Accepts consumer s xs s') (ys : List α) :
    visit consumer (xs ++ ys) s = visit consumer ys s' := by
  induction h with
  | nil => rfl
  | cons h _ ih =>
    rw [List.cons_append, visit, h]
    exact ih

theorem accepts_recorded (h : Accepts consumer s xs s') (calls : List α) :
    Accepts (recorded consumer) (s, calls) xs (s', calls ++ xs) := by
  induction h generalizing calls with
  | nil =>
    rw [List.append_nil]
    exact .nil
  | @cons s s' s'' x xs h _ ih =>
    have hcall : recorded consumer (s, calls) x = ((s', calls ++ [x]), true) := by
      rw [recorded, h]
    rw [List.append_cons]
    exact .cons hcall (ih _)

theorem visit_recorded (consumer : σ → α → σ × Bool) (xs : List α) (s : σ) (calls : List α) :
    (visit (recorded consumer) xs (s, calls)).1 = visit consumer xs s := by
  induction xs generalizing s calls with
  | nil => rfl
  | cons x xs ih =>
    rw [visit, visit, recorded]
    cases h : consumer s x with
    | mk s' more =>
      cases more with
      | true => exact ih s' _
      | false => rfl

/-- An iteration that visits a list hands it to its consumer. -/
theorem hands_of_visit {each : ∀ {σ : Type}, (σ → α → σ × Bool) → σ → Option σ}
    (h : ∀ {σ : Type} (consumer : σ → α → σ × Bool) (s : σ),
      each consumer s = some (visit consumer xs s)) : Hands each xs where
  unseen consumer s := by
    rw [h, h, Option.map_some, visit_recorded]
  all haccepts := by
    have hvisit := visit_append_of_accepts (accepts_recorded haccepts []) []
    rw [List.append_nil] at hvisit
    rw [h, hvisit]
    rfl
  stops {σ consumer s s' s'' before after x} hxs haccepts hdeclines := by
    rw [h, hxs, visit_append_of_accepts (accepts_recorded haccepts []), visit, recorded, hdeclines]
    rfl

/-! ## Wrapped consumers -/

/-- A consumer that is called with an image visits the images. -/
theorem visit_map (consumer : σ → β → σ × Bool) (f : α → β) (xs : List α) (s : σ) :
    visit (fun s x => consumer s (f x)) xs s = visit consumer (xs.map f) s := by
  induction xs generalizing s with
  | nil => rfl
  | cons x xs ih =>
    rw [List.map_cons, visit, visit]
    split
    · exact ih _
    · rfl

/-- A consumer that is not called with what has no image visits the images there are. -/
theorem visit_filterMap (consumer : σ → β → σ × Bool) (f : α → Option β) (xs : List α) (s : σ) :
    visit (fun s x => ((f x).map (consumer s)).getD (s, true)) xs s =
      visit consumer (xs.filterMap f) s := by
  induction xs generalizing s with
  | nil => rfl
  | cons x xs ih =>
    cases hx : f x with
    | none =>
      rw [List.filterMap_cons_none hx, visit, hx]
      exact ih s
    | some y =>
      rw [List.filterMap_cons_some hx, visit, visit, hx, Option.map_some, Option.getD_some]
      split
      · exact ih _
      · rfl

/-- A consumer that keeps whether it has declined. -/
def flagged (consumer : σ → α → σ × Bool) (s : σ × Bool) (x : α) : (σ × Bool) × Bool :=
  (((consumer s.1 x).1, !(consumer s.1 x).2), (consumer s.1 x).2)

/-- A visit of two lists goes on to the second if the flag is down after the first. -/
theorem visit_append (consumer : σ → α → σ × Bool) (xs ys : List α) (s : σ) :
    visit consumer (xs ++ ys) s =
      if (visit (flagged consumer) xs (s, false)).2 then (visit (flagged consumer) xs (s, false)).1
      else visit consumer ys (visit (flagged consumer) xs (s, false)).1 := by
  induction xs generalizing s with
  | nil => rfl
  | cons x xs ih =>
    rw [List.cons_append, visit, visit, flagged]
    cases h : consumer s x with
    | mk s' more =>
      cases more with
      | true => exact ih s'
      | false => rfl

end View

/-! ## Stepping -/

/-- Stepping gives the items of a list one after another, and then none. -/
inductive Gives (next : τ → Option α × τ) : τ → List α → Prop where
  | done {t t' : τ} (h : next t = (none, t')) : Gives next t []
  | step {t t' : τ} {x : α} {xs : List α} (h : next t = (some x, t')) (hxs : Gives next t' xs) :
    Gives next t (x :: xs)

/-- Step, and call a consumer with what that gives, for at most `fuel` steps. -/
def visitSteps (next : τ → Option α × τ) (consumer : σ → α → σ × Bool) : Nat → τ → σ → σ
  | 0, _, s => s
  | fuel + 1, t, s =>
    match next t with
    | (some x, t) =>
      match consumer s x with
      | (s, true) => visitSteps next consumer fuel t s
      | (s, false) => s
    | (none, _) => s

/-- Step the first of two, and the second if the first gives an item. -/
def zipNext (next : τ → Option α × τ) (next' : υ → Option β × υ) (t : τ × υ) :
    Option (α × β) × τ × υ :=
  match next t.1 with
  | (some x, rest) => ((next' t.2).1.map (x, ·), rest, (next' t.2).2)
  | (none, rest) => (none, rest, t.2)

variable {next : τ → Option α × τ} {next' : υ → Option β × υ}

theorem Gives.visitSteps_eq {t : τ} {xs : List α} (h : Gives next t xs)
    (consumer : σ → α → σ × Bool) {fuel : Nat} (hfuel : xs.length < fuel) (s : σ) :
    visitSteps next consumer fuel t s = View.visit consumer xs s := by
  induction h generalizing fuel s with
  | done h =>
    cases fuel with
    | zero => rfl
    | succ fuel =>
      rw [visitSteps, h]
      rfl
  | step h _ ih =>
    cases fuel with
    | zero => cases hfuel
    | succ fuel =>
      simp only [visitSteps, h, View.visit]
      cases hcall : consumer s _ with
      | mk s' more =>
        cases more with
        | true => exact ih (Nat.lt_of_succ_lt_succ hfuel) s'
        | false => rfl

/-- Stepping two side by side gives pairs until one of them ends. -/
theorem Gives.zip {t : τ} {t' : υ} {xs : List α} {ys : List β} (h : Gives next t xs)
    (h' : Gives next' t' ys) : Gives (zipNext next next') (t, t') (xs.zip ys) := by
  induction h generalizing t' ys with
  | @done t rest h =>
    have hzip : zipNext next next' (t, t') = (none, rest, t') := by simp only [zipNext, h]
    exact .done hzip
  | @step t rest x xs h _ ih =>
    cases h' with
    | @done _ rest' h' =>
      have hzip : zipNext next next' (t, t') = (none, rest, rest') := by
        simp only [zipNext, h, h', Option.map_none]
      rw [List.zip_nil_right]
      exact .done hzip
    | @step _ rest' y ys h' hys =>
      have hzip : zipNext next next' (t, t') = (some (x, y), rest, rest') := by
        simp only [zipNext, h, h', Option.map_some]
      exact .step hzip (ih hys)

/-- A cursor that follows lists gives them. -/
theorem Cursor.Walks.gives {c : Cursor τ} {R : τ → List Nat → Prop} (h : c.Walks R) {t : τ}
    {ts : List Nat} (ht : R t ts) : Gives c.next t ts := by
  induction ts generalizing t with
  | nil => exact .done (Prod.ext (h.next ht).1 rfl)
  | cons u ts ih => exact .step (Prod.ext (h.next ht).1 rfl) (ih (h.next ht).2)

/-- The values left are what stepping gives. -/
theorem ValueCursor.gives_of_yields {c : ValueCursor} {xs : List Double} (h : c.Yields xs) :
    Gives ValueCursor.next c xs := by
  induction xs generalizing c with
  | nil => exact .done (Prod.ext h rfl)
  | cons x xs ih => exact .step (Prod.ext h.1 rfl) (ih h.2)

/-! ## Relationships -/

/-- A consumer of the relationships of a node: the node itself, a target and a value. -/
abbrev Consumer (σ : Type) : Type := σ → Nat × Nat × Double → σ × Bool

namespace SingleGraph

variable (g : SingleGraph) (fallback : Double) (node : Nat)

/-- Step through the targets of a node, side by side with their values if there are any. -/
def visitEach (consumer : Consumer σ) (s : σ) : σ :=
  let targets := g.adjacency.openRun node
  match g.openValues? node with
  | some values =>
    visitSteps (zipNext runCursor.next ValueCursor.next)
      (fun s (target, value) => consumer s (node, target, value))
      (targets.remaining + 1) (targets, values) s
  | none =>
    visitSteps runCursor.next (fun s target => consumer s (node, target, fallback))
      (targets.remaining + 1) targets s

variable {g node}

theorem Sound.visitEach_eq (h : g.Sound) (hnode : node < g.numbering.nodeCount)
    (consumer : Consumer σ) (s : σ) : g.visitEach fallback node consumer s =
      View.visit consumer ((g.weighted fallback node).map (node, ·)) s := by
  have hreads := h.stores.reads hnode
  have hgives := walks_runCursor.gives hreads
  have hfuel : (g.adjacency.targets node).length < (g.adjacency.openRun node).remaining + 1 :=
    Nat.lt_succ_of_le (walks_runCursor.left hreads)
  rw [visitEach, weighted]
  cases hvalues : g.openValues? node with
  | none =>
    show visitSteps runCursor.next _ _ _ _ = _
    rw [hgives.visitSteps_eq _ hfuel, ← View.visit_map, ← View.visit_map]
  | some values =>
    have hpairs := hgives.zip (ValueCursor.gives_of_yields values.yields_toList)
    have hle : ((g.adjacency.targets node).zip values.toList).length ≤
        (g.adjacency.targets node).length := by
      rw [List.length_zip]
      exact Nat.min_le_left ..
    show visitSteps (zipNext runCursor.next ValueCursor.next) _ _ _ _ = _
    rw [hpairs.visitSteps_eq _ (Nat.lt_of_le_of_lt hle hfuel), ← View.visit_map]

end SingleGraph

namespace BaseGraph

variable (b : BaseGraph) (fallback : Double) (node : Nat)

/-- Go from member to member until the flag is up. -/
def visitMembers (consumer : Consumer σ) : List SingleGraph → σ × Bool → σ × Bool
  | [], s => s
  | g :: gs, s =>
    let s := g.visitEach fallback node (View.flagged consumer) s
    if s.2 then s else visitMembers consumer gs s

/-- Visit the relationships of a node, member after member. -/
def visitEach (consumer : Consumer σ) (s : σ) : σ :=
  match b with
  | single g => g.visitEach fallback node consumer s
  | union g gs => (visitMembers fallback node consumer (g :: gs) (s, false)).1

variable {b node}

theorem visitMembers_eq {members : List SingleGraph}
    (h : ∀ member ∈ members, member.Sound ∧ node < member.numbering.nodeCount)
    (consumer : Consumer σ) (s : σ) :
    (visitMembers fallback node consumer members (s, false)).1 =
      View.visit consumer ((members.flatMap fun g => g.weighted fallback node).map (node, ·))
        s := by
  induction members generalizing s with
  | nil => rfl
  | cons g gs ih =>
    obtain ⟨⟨hsound, hnode⟩, hgs⟩ := List.forall_mem_cons.mp h
    rw [List.flatMap_cons, List.map_append, View.visit_append, visitMembers,
      hsound.visitEach_eq fallback hnode, ← ih hgs]
    rcases hvisit : View.visit (View.flagged consumer)
      ((g.weighted fallback node).map (node, ·)) (s, false) with ⟨s', flag⟩
    cases flag <;> rfl

theorem visitEach_eq
    (h : ∀ member ∈ b.members, member.Sound ∧ member.numbering = b.numbering)
    (hnode : node < b.numbering.nodeCount) (consumer : Consumer σ) (s : σ) :
    b.visitEach fallback node consumer s =
      View.visit consumer ((b.weighted fallback node).map (node, ·)) s := by
  have hmembers : ∀ member ∈ b.members, member.Sound ∧ node < member.numbering.nodeCount :=
    fun member hmember => ⟨(h member hmember).1, (h member hmember).2 ▸ hnode⟩
  cases b with
  | single g =>
    obtain ⟨hsound, hnode⟩ := hmembers g List.mem_cons_self
    rw [weighted, members, List.flatMap_singleton]
    exact hsound.visitEach_eq fallback hnode consumer s
  | union g gs => exact visitMembers_eq fallback hmembers consumer s

end BaseGraph

namespace View

/-- A consumer of what passes a filter, under new ids, for a node under its new id. -/
def renumbered (filter : NodeFilter) (node : Nat) (consumer : Consumer σ) : Consumer σ :=
  fun s (_, target, value) =>
    match filter.newOf? target with
    | some target => consumer s (node, target, value)
    | none => (s, true)

/-- Visit a node through some filters, each of which wraps the consumer. -/
def visitThrough? (b : BaseGraph) (fallback : Double) :
    List FilterLayer → Nat → Consumer σ → σ → Option σ
  | [], node, consumer, s =>
    if node < b.numbering.nodeCount then some (b.visitEach fallback node consumer s) else none
  | layer :: below, node, consumer, s =>
    match layer.filter.oldOf? node with
    | some old => visitThrough? b fallback below old (renumbered layer.filter node consumer) s
    | none => none

/-- Visit the relationships of a node with their values. -/
def visitEach? (v : View) (fallback : Double) (node : Nat) (consumer : Consumer σ) (s : σ) :
    Option σ :=
  visitThrough? v.base fallback v.layers node consumer s

/-- Visit the targets of a node, step by step. -/
def visitCursor? (v : View) (node : Nat) (consumer : σ → Nat × Nat → σ × Bool) (s : σ) :
    Option σ :=
  (v.openAt? node).map fun c =>
    visitSteps v.cursor.next (fun s target => consumer s (node, target)) (v.cursor.left c + 1)
      c s

/-- A consumer wrapped at a filter visits what passes. -/
theorem visit_renumbered (filter : NodeFilter) (node old : Nat) (consumer : Consumer σ)
    (pairs : List (Nat × Double)) (s : σ) :
    visit (renumbered filter node consumer) (pairs.map (old, ·)) s =
      visit consumer ((pairs.filterMap fun (target, value) =>
        (filter.newOf? target).map (·, value)).map (node, ·)) s := by
  rw [← visit_map, ← visit_map, ← visit_filterMap]
  refine congrArg (visit · pairs s) (funext fun s => funext fun (target, value) => ?_)
  cases h : filter.newOf? target <;> simp [renumbered, h]

theorem visitThrough?_eq {b : BaseGraph}
    (h : ∀ member ∈ b.members, member.Sound ∧ member.numbering = b.numbering) (fallback : Double)
    (layers : List FilterLayer) (node : Nat) (consumer : Consumer σ) (s : σ) :
    visitThrough? b fallback layers node consumer s =
      (rootThrough? b.numbering.nodeCount layers node).map fun root =>
        visit consumer ((weightedThrough layers (b.weighted fallback root)).map (node, ·)) s := by
  induction layers generalizing node consumer with
  | nil =>
    rw [visitThrough?, rootThrough?]
    split
    · next hnode => rw [BaseGraph.visitEach_eq fallback h hnode]; rfl
    · rfl
  | cons layer below ih =>
    rw [visitThrough?, rootThrough?]
    cases layer.filter.oldOf? node with
    | none => rfl
    | some old =>
      show visitThrough? .. = Option.map _ (rootThrough? ..)
      rw [ih]
      refine congrArg (Option.map · _) (funext fun root => ?_)
      exact visit_renumbered ..

variable {v : View}

/-- The relationships of a node are visited as the list of them. -/
theorem visitEach?_eq
    (h : ∀ member ∈ v.base.members, member.Sound ∧ member.numbering = v.base.numbering)
    (fallback : Double) (node : Nat) (consumer : Consumer σ) (s : σ) :
    v.visitEach? fallback node consumer s =
      v.visitWeighted? fallback node (fun s (target, value) => consumer s (node, target, value))
        s := by
  rw [visitEach?, visitThrough?_eq h, visitWeighted?, weighted?, Option.map_map]
  refine congrArg (Option.map · _) (funext fun root => ?_)
  exact (visit_map ..).symm

/-- The targets of a node are visited as the list of them. -/
theorem Sound.visitCursor?_eq (h : v.Sound) {node : Nat} (hnode : node < v.nodeCount)
    (consumer : σ → Nat × Nat → σ × Bool) (s : σ) :
    v.visitCursor? node consumer s =
      v.visitTargets? node (fun s target => consumer s (node, target)) s := by
  obtain ⟨c, hopen, hc⟩ := h.opens hnode
  have hfuel := Nat.lt_succ_of_le (v.walks_cursor.left hc)
  rw [visitCursor?, visitTargets?, h.targets?_eq hnode, hopen, Option.map_some, Option.map_some,
    (v.walks_cursor.gives hc).visitSteps_eq _ hfuel]

end View

end PagedGraph
