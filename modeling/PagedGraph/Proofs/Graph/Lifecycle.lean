import Mathlib.Data.List.Induction
import PagedGraph.Proofs.Graph.Release
import PagedGraph.Proofs.Work.InPlace

/-!
# The life of a graph

A `GraphCall` pins a graph or lets it go, releases it, or asks for a view or for metadata.
`GraphCall.Outcome` lists what a call can do to a graph.

* A call that fails leaves the graph as it was, and a request that does not fail does too.
* Once a graph is released, every call but one that pins it fails for that reason
  (`PropertyGraph.tablesOf_of_released` and what follows from it).
* After any calls a graph is what it was in the beginning, or that graph given up, pinned as it
  was pinned last (`PropertyGraph.Fresh.run_eq`).

The result is `PropertyGraph.lifecycle`.
-/

namespace PagedGraph

/-- A call on a graph. -/
inductive GraphCall where
  /-- Pin the graph, or let it go. -/
  | pin (pinned : Bool)
  /-- Release it while some views are live. -/
  | release (live : List View)
  | single (type : String) (direction : Direction) (key : Option String)
  /-- A union of at least one type. -/
  | union (type : String) (others : List String) (direction : Direction)
  | withLabels (view : View) (identity : Nat) (labels : List String) (workers : Nat)
  | propertyKeys (type : String)
  | hasInverse (type : String)

/-- What a call gives. -/
inductive GraphAnswer where
  | done
  | released (summary : ReleaseSummary)
  | single (side : SingleGraph)
  | union (base : BaseGraph)
  | view (view : View)
  | keys (keys : List String)
  | inverse (stored : Bool)

namespace PropertyGraph

variable {g : PropertyGraph}

/-! ## A graph that is released -/

theorem checkLive_of_released (h : g.released = true) : g.checkLive = .error .alreadyReleased :=
  if_pos h

theorem tablesOf_of_released (h : g.released = true) (type : String) :
    g.tablesOf type = .error .alreadyReleased := by
  rw [tablesOf, checkLive_of_released h]
  rfl

theorem single_of_released (h : g.released = true) (type : String) (direction : Direction)
    (key : Option String) : g.single type direction key = .error .alreadyReleased := by
  rw [single, tablesOf_of_released h]
  rfl

theorem unionMembers_of_released (h : g.released = true) (direction : Direction) (type : String) :
    g.unionMembers direction type = .error .alreadyReleased := by
  cases direction with
  | outgoing =>
    show (g.single type .outgoing none >>= _) = _
    rw [single_of_released h]
    rfl
  | incoming =>
    show (g.single type .incoming none >>= _) = _
    rw [single_of_released h]
    rfl
  | both =>
    rw [unionMembers, single_of_released h]
    rfl

/-- Of no types a union would fail for another reason. -/
theorem union_of_released (h : g.released = true) (type : String) (others : List String)
    (direction : Direction) : g.union (type :: others) direction = .error .alreadyReleased := by
  rw [union, List.mapM_cons, unionMembers_of_released h]
  rfl

theorem withLabels_of_released (h : g.released = true) (v : View) (identity : Nat)
    (labels : List String) (workers : Nat) :
    g.withLabels v identity labels workers = .error .alreadyReleased := by
  rw [withLabels, checkLive_of_released h]
  rfl

theorem propertyKeys_of_released (h : g.released = true) (type : String) :
    g.propertyKeys type = .error .alreadyReleased := by
  rw [propertyKeys, tablesOf_of_released h]
  rfl

theorem hasInverse_of_released (h : g.released = true) (type : String) :
    g.hasInverse type = .error .alreadyReleased := by
  rw [hasInverse, tablesOf_of_released h]
  rfl

theorem release_of_released (h : g.released = true) (live : List View) :
    g.release live = .error .alreadyReleased := by
  rw [release, checkLive_of_released h]
  rfl

/-! ## One call -/

/-- The graph without its tables and columns. -/
def givenUp (g : PropertyGraph) : PropertyGraph :=
  { g with columns := .empty, types := [], released := true }

theorem release_of_pinned (hlive : g.released = false) (hpinned : g.pinned = true)
    (live : List View) : g.release live = .error .stillRegistered := by
  rw [release, checkLive, hlive, hpinned]
  rfl

theorem release_of_free (hlive : g.released = false) (hfree : g.pinned = false)
    (live : List View) : g.release live = .ok (g.releaseSummary live, g.givenUp) :=
  release_eq_ok_iff.mpr ⟨hlive, hfree, rfl, rfl⟩

/-- Give up the tables and then the columns, if both checks pass. -/
def giveUp (live : List View) : InPlace PropertyGraph ReleaseSummary := do
  let g ← get
  ofExcept g.checkLive
  ofExcept (if g.pinned then .error .stillRegistered else .ok ())
  modify fun g => { g with types := [] }
  modify fun g => { g with columns := .empty }
  modify fun g => { g with released := true }
  pure (g.releaseSummary live)

/-- Giving up a graph in place is its release: what fails leaves the graph as it was. -/
theorem run_giveUp (live : List View) (g : PropertyGraph) :
    (giveUp live).run g = InPlace.settle g (g.release live) := by
  rw [giveUp, EStateM.run_bind, EStateM.run_get, release]
  dsimp only
  cases g.checkLive with
  | error e => exact InPlace.run_error_bind e _ g
  | ok _ =>
    rw [InPlace.run_ok_bind]
    split
    · exact InPlace.run_error_bind _ _ g
    · rfl

/-- Ask something of a graph. -/
def ask {α : Type} (request : PropertyGraph → Except GraphError α) (give : α → GraphAnswer) :
    InPlace PropertyGraph GraphAnswer := do
  let a ← ofExcept (request (← get))
  pure (give a)

theorem run_ask {α : Type} (request : PropertyGraph → Except GraphError α) (give : α → GraphAnswer)
    (g : PropertyGraph) :
    (ask request give).run g = InPlace.settle g ((request g).map fun a => (give a, g)) := by
  rw [ask, EStateM.run_bind, EStateM.run_get]
  dsimp only
  cases request g with
  | error e => exact InPlace.run_error_bind e _ g
  | ok a => rfl

end PropertyGraph

namespace GraphCall

open PropertyGraph

/-- Make a call. -/
def perform : GraphCall → InPlace PropertyGraph GraphAnswer
  | pin pinned => do
    modify (·.setPinned pinned)
    pure .done
  | release live => do
    let summary ← giveUp live
    pure (.released summary)
  | single type direction key => ask (·.single type direction key) .single
  | union type others direction => ask (·.union (type :: others) direction) .union
  | withLabels v identity labels workers => ask (·.withLabels v identity labels workers) .view
  | propertyKeys type => ask (·.propertyKeys type) .keys
  | hasInverse type => ask (·.hasInverse type) .inverse

/-- What a call that pins a graph says. -/
def pin? : GraphCall → Option Bool
  | pin pinned => some pinned
  | _ => none

/-- What a call can do to a graph. -/
inductive Outcome (g : PropertyGraph) :
    GraphCall → EStateM.Result GraphError PropertyGraph GraphAnswer → Prop where
  | pinned {pinned : Bool} : Outcome g (.pin pinned) (.ok .done (g.setPinned pinned))
  | released {live : List View} (hlive : g.released = false) (hfree : g.pinned = false) :
    Outcome g (.release live) (.ok (.released (g.releaseSummary live)) g.givenUp)
  | blocked {live : List View} (hlive : g.released = false) (hpinned : g.pinned = true) :
    Outcome g (.release live) (.error .stillRegistered g)
  /-- A released graph answers nothing. -/
  | ended {call : GraphCall} (hcall : call.pin? = none) (hreleased : g.released = true) :
    Outcome g call (.error .alreadyReleased g)
  | answered {call : GraphCall} {answer : GraphAnswer} (hcall : call.pin? = none)
    (hlive : g.released = false) (hrequest : ∀ live, call ≠ .release live)
    (hanswer : ∀ summary, answer ≠ .released summary) : Outcome g call (.ok answer g)
  | refused {call : GraphCall} {e : GraphError} (hcall : call.pin? = none)
    (hlive : g.released = false) (hrequest : ∀ live, call ≠ .release live) :
    Outcome g call (.error e g)

/-- A request is answered or refused, and a released graph refuses it. -/
theorem outcome_ask {α : Type} {request : PropertyGraph → Except GraphError α}
    {give : α → GraphAnswer} {call : GraphCall} {g : PropertyGraph} (hcall : call.pin? = none)
    (hrequest : ∀ live, call ≠ .release live) (hgive : ∀ a summary, give a ≠ .released summary)
    (hreleased : g.released = true → request g = .error .alreadyReleased) :
    Outcome g call ((ask request give).run g) := by
  rw [run_ask]
  cases hlive : g.released with
  | true =>
    rw [hreleased hlive]
    exact .ended hcall hlive
  | false =>
    cases request g with
    | error e => exact .refused hcall hlive hrequest
    | ok a => exact .answered hcall hlive hrequest (hgive a)

theorem outcome (g : PropertyGraph) (call : GraphCall) : Outcome g call (call.perform.run g) := by
  cases call with
  | pin pinned => exact .pinned
  | release live =>
    rw [perform, EStateM.run_bind, run_giveUp]
    cases hlive : g.released with
    | true =>
      rw [release_of_released hlive]
      exact .ended rfl hlive
    | false =>
      cases hpinned : g.pinned with
      | true =>
        rw [release_of_pinned hlive hpinned]
        exact .blocked hlive hpinned
      | false =>
        rw [release_of_free hlive hpinned]
        exact .released hlive hpinned
  | single type direction key =>
    exact outcome_ask rfl nofun nofun fun h => single_of_released h type direction key
  | union type others direction =>
    exact outcome_ask rfl nofun nofun fun h => union_of_released h type others direction
  | withLabels v identity labels workers =>
    exact outcome_ask rfl nofun nofun fun h => withLabels_of_released h v identity labels workers
  | propertyKeys type =>
    exact outcome_ask rfl nofun nofun fun h => propertyKeys_of_released h type
  | hasInverse type =>
    exact outcome_ask rfl nofun nofun fun h => hasInverse_of_released h type

end GraphCall

namespace PropertyGraph

/-! ## Calls one after another -/

/-- What a call gives, or why it fails. -/
def answer (g : PropertyGraph) (call : GraphCall) : Except GraphError GraphAnswer :=
  InPlace.answer (call.perform.run g)

/-- The graph that a call leaves. -/
def after (g : PropertyGraph) (call : GraphCall) : PropertyGraph :=
  InPlace.left (call.perform.run g)

/-- The graph that some calls leave, with failing ones among them. -/
def run (g : PropertyGraph) (calls : List GraphCall) : PropertyGraph := calls.foldl after g

/-- What each of some calls gives. -/
def answers (g : PropertyGraph) : List GraphCall → List (Except GraphError GraphAnswer)
  | [] => []
  | call :: rest => g.answer call :: (g.after call).answers rest

/-- Whether a call released a graph. -/
def isRelease : Except GraphError GraphAnswer → Bool
  | .ok (.released _) => true
  | _ => false

/-- How many of some calls release the graph. -/
def releases (g : PropertyGraph) (calls : List GraphCall) : Nat :=
  (g.answers calls).countP isRelease

/-- Whether a graph is pinned after some calls, which it was not before. -/
def lastPin (calls : List GraphCall) : Bool :=
  ((calls.filterMap GraphCall.pin?).getLast?).getD false

variable {g : PropertyGraph}

theorem run_concat (g : PropertyGraph) (calls : List GraphCall) (call : GraphCall) :
    g.run (calls ++ [call]) = (g.run calls).after call := List.foldl_concat ..

theorem answers_append (g : PropertyGraph) (calls rest : List GraphCall) :
    g.answers (calls ++ rest) = g.answers calls ++ (g.run calls).answers rest := by
  induction calls generalizing g with
  | nil => rfl
  | cons call calls ih => exact congrArg (g.answer call :: ·) (ih (g.after call))

theorem releases_concat (g : PropertyGraph) (calls : List GraphCall) (call : GraphCall) :
    g.releases (calls ++ [call]) =
      g.releases calls + if isRelease ((g.run calls).answer call) then 1 else 0 := by
  rw [releases, answers_append, List.countP_append, ← releases]
  exact congrArg _ (List.countP_singleton ..)

theorem lastPin_concat (calls : List GraphCall) (call : GraphCall) :
    lastPin (calls ++ [call]) = call.pin?.getD (lastPin calls) := by
  rw [lastPin, filterMap_concat, List.getLast?_append]
  cases call.pin? <;> rfl

/-- A call that fails leaves the graph as it was. -/
theorem after_of_answer_eq_error {call : GraphCall} {e : GraphError}
    (h : g.answer call = .error e) : g.after call = g := by
  have houtcome := call.outcome g
  rw [answer] at h
  rw [after]
  generalize call.perform.run g = result at houtcome h
  cases houtcome with
  | pinned | released | answered => cases h
  | blocked | ended | refused => rfl

/-- A released graph answers only the calls that pin it. -/
theorem answer_of_released (h : g.released = true) {call : GraphCall} (hcall : call.pin? = none) :
    g.answer call = .error .alreadyReleased := by
  have houtcome := call.outcome g
  rw [answer]
  generalize call.perform.run g = result at houtcome
  cases houtcome with
  | pinned => cases hcall
  | ended => rfl
  | released hlive | blocked hlive | answered _ hlive | refused _ hlive =>
    rw [h] at hlive
    cases hlive

/-- A graph as it comes from a build. -/
structure Fresh (g : PropertyGraph) : Prop where
  released : g.released = false
  pinned : g.pinned = false

/-- After any calls a graph is what it was, or that graph given up, pinned as it was pinned last.
Not more than one call has released it. -/
theorem Fresh.run_eq (h : g.Fresh) (calls : List GraphCall) :
    g.run calls = (if g.releases calls = 0 then g else g.givenUp).setPinned (lastPin calls) ∧
      g.releases calls ≤ 1 := by
  induction calls using List.reverseRecOn with
  | nil =>
    refine ⟨?_, Nat.zero_le 1⟩
    show g = { g with pinned := false }
    rw [← h.pinned]
  | append_singleton calls call ih =>
    obtain ⟨hrun, hle⟩ := ih
    have hflag : (g.run calls).released = false ↔ g.releases calls = 0 := by
      rw [hrun]
      split
      · next hzero => exact iff_of_true h.released hzero
      · next hsome => exact iff_of_false nofun hsome
    have houtcome := call.outcome (g.run calls)
    rw [run_concat, releases_concat, lastPin_concat, answer, after]
    generalize call.perform.run (g.run calls) = result at houtcome
    cases houtcome with
    | pinned =>
      refine ⟨?_, hle⟩
      rw [hrun]
      rfl
    | released hlive =>
      rw [hflag.mp hlive] at hrun ⊢
      refine ⟨?_, Nat.le_refl 1⟩
      show (g.run calls).givenUp = _
      rw [hrun]
      rfl
    | blocked => exact ⟨hrun, hle⟩
    | ended hcall =>
      rw [hcall]
      exact ⟨hrun, hle⟩
    | @answered _ answer hcall _ _ hanswer =>
      rw [hcall]
      cases answer with
      | released summary => exact absurd rfl (hanswer summary)
      | done | single | union | view | keys | inverse => exact ⟨hrun, hle⟩
    | refused hcall =>
      rw [hcall]
      exact ⟨hrun, hle⟩

/-- The call gives what a release gives. -/
theorem answer_release (g : PropertyGraph) (live : List View) :
    g.answer (.release live) = (g.release live).map fun result => .released result.1 := by
  rw [answer, GraphCall.perform, EStateM.run_bind, run_giveUp]
  cases g.release live <;> rfl

/-- A release succeeds on a live graph that is not pinned. -/
theorem exists_release_iff {live : List View} : (∃ result, g.release live = .ok result) ↔
    g.released = false ∧ g.pinned = false := by
  constructor
  · rintro ⟨⟨summary, after⟩, h⟩
    obtain ⟨hlive, hfree, -⟩ := release_eq_ok_iff.mp h
    exact ⟨hlive, hfree⟩
  · rintro ⟨hlive, hfree⟩
    exact ⟨_, release_of_free hlive hfree live⟩

/-- A graph is released once at most, and only while it is not pinned.  A failing call is not
noticed by those after it.  From the release on every request fails, whether or not the graph is
pinned again, and the numbering is the same throughout. -/
theorem lifecycle (h : g.Fresh) (before : List GraphCall) :
    (∀ live, (∃ result, (g.run before).release live = .ok result) ↔
      g.releases before = 0 ∧ lastPin before = false) ∧
    (∀ live, (g.run before).answer (.release live) =
      ((g.run before).release live).map fun result => .released result.1) ∧
    g.releases before ≤ 1 ∧
    (∀ {call e}, (g.run before).answer call = .error e →
      (g.run before).after call = g.run before ∧
      ∀ rest, (g.run before).answers (call :: rest) = .error e :: (g.run before).answers rest) ∧
    (0 < g.releases before → ∀ {call : GraphCall}, call.pin? = none →
      (g.run before).answer call = .error .alreadyReleased) ∧
    (g.run before).numbering = g.numbering := by
  obtain ⟨hrun, hle⟩ := h.run_eq before
  refine ⟨fun live => ?_, answer_release _, hle, fun {call e} he => ?_,
    fun hsome {call} hcall => ?_, ?_⟩
  · rw [exists_release_iff, hrun]
    split
    · next hzero => exact and_congr_left fun _ => iff_of_true h.released hzero
    · next hsome => exact and_congr_left fun _ => iff_of_false nofun hsome
  · have hafter := after_of_answer_eq_error he
    refine ⟨hafter, fun rest => ?_⟩
    rw [answers, he, hafter]
  · refine answer_of_released ?_ hcall
    rw [hrun, if_neg (Nat.ne_of_gt hsome)]
    rfl
  · rw [hrun]
    split <;> rfl

end PropertyGraph

/-- What is built is live and not pinned. -/
theorem GraphLoader.fresh_of_build {b : GraphLoader} {identity : Nat} {g : PropertyGraph}
    (h : b.build identity = .ok g) : g.Fresh := by
  rw [build] at h
  obtain ⟨m, -, h⟩ := bind_eq_ok h
  obtain ⟨columns, -, h⟩ := bind_eq_ok h
  obtain ⟨types, -, h⟩ := bind_eq_ok h
  cases h
  exact ⟨rfl, rfl⟩

/-- A graph that is pinned and let go is released, and pinning it again does not bring it back. -/
theorem PropertyGraph.lifecycle_pinnedAgain : ∃ g : PropertyGraph,
    (GraphLoader.run { workers := 1 } []).build 0 = .ok g ∧
    (∃ result, (g.run [.pin true, .pin false]).release [] = .ok result) ∧
    (g.run [.pin true, .pin false, .release [], .pin true]).answer (.hasInverse "T") =
      .error .alreadyReleased := by
  obtain ⟨g, hg⟩ := (GraphLoader.Reached.consistent ⟨⟨1⟩, _, [], rfl, rfl⟩).exists_build_of_bare
    List.nodup_nil nofun nofun nofun 0
  have hfresh := GraphLoader.fresh_of_build hg
  obtain ⟨hrelease, hanswer, -⟩ := lifecycle hfresh [.pin true, .pin false]
  obtain ⟨result, hresult⟩ := (hrelease []).mpr ⟨rfl, rfl⟩
  obtain ⟨-, -, -, -, hended, -⟩ := lifecycle hfresh
    (([.pin true, .pin false] ++ [.release []]) ++ [.pin true])
  refine ⟨g, hg, ⟨result, hresult⟩, hended ?_ rfl⟩
  rw [releases_concat, releases_concat, hanswer, hresult]
  exact Nat.one_pos

end PagedGraph
