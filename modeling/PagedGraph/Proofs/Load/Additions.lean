import PagedGraph.Proofs.Load.External
import PagedGraph.Proofs.Load.RoundTrip
import PagedGraph.Proofs.Load.RowByRow

/-!
# Additions that are refused

A `LoaderCall` adds a relationship, in internal or in external ids.  One in external ids can be
refused.  `LoaderCall.kept?` is the addition in internal ids that does the same, none for a call
that is refused.

* A call does what the kept one does, or nothing (`LoaderCall.left?_eq`).
* So do calls one after another (`LoaderCall.foldlM_left?_eq`).
* `AddsExternal` says when an addition in external ids is refused and why.  It says so of every
  loader that calls leave (`additions_kept`).
-/

namespace PagedGraph

/-- A call that adds a relationship. -/
inductive LoaderCall where
  /-- In internal ids. -/
  | internal (call : AddCall)
  /-- In external ids. -/
  | external (source target : Nat) (properties : Properties)
deriving DecidableEq, Repr

namespace LoaderCall

/-- Make a call.  None when an end of a relationship in internal ids is no node, or when there is
not one value for every property. -/
def run? (l : RelationshipLoader) :
    LoaderCall → Option (EStateM.Result GraphError RelationshipLoader Unit)
  | internal call =>
    if l.hasValues (call.arrival l.projection).values && l.hasNode call.source &&
        l.hasNode call.target then
      some ((RelationshipLoader.putRows call.source call.target
        (call.arrival l.projection).values).run l)
    else none
  | external source target properties =>
    some ((RelationshipLoader.putExternal source target properties).run l)

/-- The loader that a call leaves, whether it is refused or not. -/
def left? (l : RelationshipLoader) (call : LoaderCall) : Option RelationshipLoader :=
  (call.run? l).map InPlace.left

/-- The addition in internal ids that does what a call does, none for a call that is refused. -/
def kept? (m : Numbering) (p : Projection) : LoaderCall → Option AddCall
  | internal call => some call
  | external source target properties =>
    match m.internalOf? source, m.internalOf? target, p.firstList? properties with
    | some tail, some head, none => some (.valued tail head (p.numbers properties))
    | _, _, _ => none

end LoaderCall

/-- A call in internal ids stores its arrival. -/
theorem AddCall.run?_eq (call : AddCall) (l : RelationshipLoader) :
    call.run? l = l.addWith? call.source call.target (call.arrival l.projection).values := by
  cases call <;> rfl

/-- The internal id of an external one is a node's. -/
theorem Numbering.lt_of_internalOf? {m : Numbering} {id node : Nat}
    (h : m.internalOf? id = some node) : node < m.nodeCount :=
  (Array.getElem?_eq_some_iff.mp ((m.internalOf?_eq_some_iff).mp h)).1

theorem Projection.length_numbers (p : Projection) (properties : Properties) :
    (p.numbers properties).length = p.properties.length := List.length_map _

/-- The numbers of a relationship between nodes are stored by a call in internal ids. -/
theorem AddCall.run?_valued {l : RelationshipLoader} {source target tail head : Nat}
    (hsource : l.numbering.internalOf? source = some tail)
    (htarget : l.numbering.internalOf? target = some head) (properties : Properties) :
    (valued tail head (l.projection.numbers properties)).run? l =
      some (l.push tail head (l.projection.numbers properties)) :=
  RelationshipLoader.addWith?_eq_some (a := ⟨tail, head, l.projection.numbers properties⟩)
    ⟨Numbering.lt_of_internalOf? hsource, Numbering.lt_of_internalOf? htarget,
      l.projection.length_numbers properties⟩

namespace LoaderCall

variable {l : RelationshipLoader}

/-- A call does what the kept one does, or it leaves the loader as it was. -/
theorem left?_eq (h : l.Sided) (call : LoaderCall) :
    call.left? l =
      match call.kept? l.numbering l.projection with
      | some kept => kept.run? l
      | none => some l := by
  cases call with
  | internal call =>
    show (run? l (internal call)).map InPlace.left = call.run? l
    rw [run?, call.run?_eq, RelationshipLoader.addWith?]
    split
    · rw [RelationshipLoader.run_putRows h]
      rfl
    · rfl
  | external source target properties =>
    rw [left?, run?, kept?, RelationshipLoader.run_putExternal_eq_match h]
    cases hsource : l.numbering.internalOf? source with
    | none => rfl
    | some tail =>
      cases htarget : l.numbering.internalOf? target with
      | none => rfl
      | some head =>
        cases l.projection.firstList? properties with
        | some value => rfl
        | none => exact (AddCall.run?_valued hsource htarget _).symm

/-- Calls leave what the kept ones leave. -/
theorem foldlM_left?_eq (calls : List LoaderCall) (h : l.Sided) :
    calls.foldlM left? l =
      (calls.filterMap (kept? l.numbering l.projection)).foldlM AddCall.run? l := by
  induction calls generalizing l with
  | nil => rfl
  | cons call calls ih =>
    rw [List.foldlM_cons, left?_eq h, List.filterMap_cons]
    cases call.kept? l.numbering l.projection with
    | none => exact ih h
    | some kept =>
      rw [List.foldlM_cons]
      show (kept.run? l >>= _) = _
      cases hrun : kept.run? l with
      | none => rfl
      | some next =>
        -- What is kept of the further calls depends on the numbering and the projection, which
        -- an addition does not change.
        rw [kept.run?_eq] at hrun
        obtain ⟨-, rfl⟩ := RelationshipLoader.of_addWith?_eq_some hrun
        have hrest := ih (h.push kept.source kept.target (kept.arrival l.projection).values)
        rwa [RelationshipLoader.numbering_push, RelationshipLoader.projection_push] at hrest

/-- Whether a relationship in internal ids is between nodes, with a value for every property. -/
def InRange (m : Numbering) (p : Projection) : LoaderCall → Prop
  | internal call => call.source < m.nodeCount ∧ call.target < m.nodeCount ∧
      (call.arrival p).values.length = p.properties.length
  | external .. => True

instance (m : Numbering) (p : Projection) : DecidablePred (InRange m p)
  | internal call => inferInstanceAs (Decidable (call.source < m.nodeCount ∧ _ ∧ _))
  | external .. => isTrue trivial

/-- What is kept of a call is between nodes, with a value for every property. -/
theorem InRange.kept {m : Numbering} {p : Projection} {call : LoaderCall} {kept : AddCall}
    (h : call.InRange m p) (hkept : call.kept? m p = some kept) :
    kept.source < m.nodeCount ∧ kept.target < m.nodeCount ∧
      (kept.arrival p).values.length = p.properties.length := by
  cases call with
  | internal call =>
    cases hkept
    exact h
  | external source target properties =>
    rw [kept?] at hkept
    split at hkept
    · next hsource htarget _ =>
      cases hkept
      exact ⟨Numbering.lt_of_internalOf? hsource, Numbering.lt_of_internalOf? htarget,
        p.length_numbers properties⟩
    · cases hkept

theorem forall_kept {m : Numbering} {p : Projection} {calls : List LoaderCall}
    (h : ∀ call ∈ calls, call.InRange m p) :
    (∀ kept ∈ calls.filterMap (kept? m p),
      kept.source < m.nodeCount ∧ kept.target < m.nodeCount) ∧
    ∀ kept ∈ calls.filterMap (kept? m p),
      (kept.arrival p).values.length = p.properties.length := by
  have hkept : ∀ kept ∈ calls.filterMap (kept? m p), _ ∧ _ ∧ _ := fun kept hkept => by
    obtain ⟨call, hcall, hkept⟩ := List.mem_filterMap.mp hkept
    exact (h call hcall).kept hkept
  exact ⟨fun kept hmem => ⟨(hkept kept hmem).1, (hkept kept hmem).2.1⟩,
    fun kept hmem => (hkept kept hmem).2.2⟩

end LoaderCall

namespace RelationshipLoader

variable {m : Numbering} {p : Projection}

/-- What an addition in external ids does to a loader over a numbering and a projection. -/
structure AddsExternal (m : Numbering) (p : Projection) (l : RelationshipLoader)
    (source target : Nat) (properties : Properties) : Prop where
  /-- Row by row it does what `addExternal` says, and nothing when this fails. -/
  settles : (putExternal source target properties).run l =
    InPlace.settle l ((l.addExternal source target properties).map ((), ·))
  unknownSource (h : m.internalOf? source = none) :
    (putExternal source target properties).run l = .error (.unknownEnd source source target) l
  unknownTarget {tail : Nat} (hsource : m.internalOf? source = some tail)
    (h : m.internalOf? target = none) :
    (putExternal source target properties).run l = .error (.unknownEnd target source target) l
  /-- Between nodes, a list under a key of the projection is all that is refused. -/
  typeClash_iff {tail head : Nat} (hsource : m.internalOf? source = some tail)
    (htarget : m.internalOf? target = some head) :
    (∃ clash, (putExternal source target properties).run l = .error (.typeClash clash) l) ↔
      ∃ key ∈ p.keys, ∃ value, properties.get? key = some value ∧ value.isList = true
  /-- Of several lists the first is reported. -/
  notNumeric {tail head : Nat} {value : Value} (hsource : m.internalOf? source = some tail)
    (htarget : m.internalOf? target = some head) (h : p.firstList? properties = some value) :
    (putExternal source target properties).run l = .error (.typeClash (.notNumeric value)) l
  added {tail head : Nat} (hsource : m.internalOf? source = some tail)
    (htarget : m.internalOf? target = some head)
    (h : ∀ key ∈ p.keys, ∀ value, properties.get? key = some value → value.isList = false) :
    ∃ next, (AddCall.valued tail head (p.numbers properties)).run? l = some next ∧
      (putExternal source target properties).run l = .ok () next
  /-- What is refused is what no addition is kept of. -/
  refused_iff : (∃ e, (putExternal source target properties).run l = .error e l) ↔
    (LoaderCall.external source target properties).kept? m p = none
  /-- Values under other keys do not matter. -/
  configured {others : Properties} (h : ∀ key ∈ p.keys, others.get? key = properties.get? key) :
    (putExternal source target others).run l = (putExternal source target properties).run l

theorem Sided.addsExternal {l : RelationshipLoader} (h : l.Sided) (source target : Nat)
    (properties : Properties) :
    AddsExternal l.numbering l.projection l source target properties where
  settles := run_putExternal h source target properties
  unknownSource hsource := by
    rw [run_putExternal_eq_match h, hsource]
  unknownTarget hsource htarget := by
    rw [run_putExternal_eq_match h, hsource, htarget]
  typeClash_iff hsource htarget := by
    rw [run_putExternal_eq_match h, hsource, htarget, ← Projection.exists_firstList?_iff]
    cases l.projection.firstList? properties with
    | none => exact iff_of_false nofun nofun
    | some value => exact iff_of_true ⟨_, rfl⟩ ⟨_, rfl⟩
  notNumeric hsource htarget hlist := by
    rw [run_putExternal_eq_match h, hsource, htarget, hlist]
  added {tail head} hsource htarget hlists := by
    have hnone : l.projection.firstList? properties = none := by
      rw [Option.eq_none_iff_forall_ne_some]
      intro value hvalue
      obtain ⟨key, hkey, list, hlist, htrue⟩ :=
        Projection.exists_firstList?_iff.mp ⟨value, hvalue⟩
      exact absurd htrue (by rw [hlists key hkey list hlist]; nofun)
    refine ⟨_, AddCall.run?_valued hsource htarget _, ?_⟩
    rw [run_putExternal_eq_match h, hsource, htarget, hnone]
  refused_iff := by
    rw [run_putExternal_eq_match h, LoaderCall.kept?]
    cases l.numbering.internalOf? source with
    | none => exact iff_of_true ⟨_, rfl⟩ rfl
    | some tail =>
      cases l.numbering.internalOf? target with
      | none => exact iff_of_true ⟨_, rfl⟩ rfl
      | some head =>
        cases l.projection.firstList? properties with
        | none => exact iff_of_false nofun nofun
        | some value => exact iff_of_true ⟨_, rfl⟩ rfl
  configured hothers := by
    rw [run_putExternal_eq_match h, run_putExternal_eq_match h,
      Projection.firstList?_congr hothers, Projection.numbers_congr hothers]

/-- Calls leave a loader that holds what the kept ones store. -/
theorem foldlM_left?_blank {calls : List LoaderCall} (workers : Nat)
    (h : ∀ call ∈ calls, call.InRange m p) :
    calls.foldlM LoaderCall.left? (blank m p workers) = some ((blank m p workers).pushAll
      ((calls.filterMap (LoaderCall.kept? m p)).map (AddCall.arrival p))) :=
  (LoaderCall.foldlM_left?_eq calls (sided_blank m p workers)).trans
    (foldlM_run?_eq_some
      (proper_arrival (LoaderCall.forall_kept h).1 (LoaderCall.forall_kept h).2))

/-- A new loader that additions were made to has sides as its projection asks for. -/
theorem of_foldlM_run? {calls : List AddCall} {l filled : RelationshipLoader} (h : l.Sided)
    (hfilled : calls.foldlM AddCall.run? l = some filled) :
    filled.Sided ∧ filled.numbering = l.numbering ∧ filled.projection = l.projection := by
  induction calls generalizing l with
  | nil =>
    cases hfilled
    exact ⟨h, rfl, rfl⟩
  | cons call calls ih =>
    rw [List.foldlM_cons] at hfilled
    obtain ⟨next, hnext, hfilled⟩ := Option.bind_eq_some_iff.mp hfilled
    rw [call.run?_eq] at hnext
    obtain ⟨-, rfl⟩ := of_addWith?_eq_some hnext
    have hrest := ih (h.push _ _ _) hfilled
    rwa [numbering_push, projection_push] at hrest

/-- Additions leave what the kept ones leave, so the same tables are built of them.  Whatever was
refused before, the next addition in external ids is made, or it is refused for a reason of its
own and leaves the loader as it was. -/
theorem additions_kept {workers : Nat} {new : RelationshipLoader}
    (hnew : create m p workers = .ok new) (calls : List LoaderCall) :
    calls.foldlM LoaderCall.left? new =
      (calls.filterMap (LoaderCall.kept? m p)).foldlM AddCall.run? new ∧
    (∀ tables, (∃ filled, calls.foldlM LoaderCall.left? new = some filled ∧
        filled.build = .ok tables) ↔
      Built m p workers (calls.filterMap (LoaderCall.kept? m p)) tables) ∧
    ((∀ call ∈ calls, call.InRange m p) →
      DegreesFit m.nodeCount p (calls.filterMap (LoaderCall.kept? m p)) →
      ∃ filled tables, calls.foldlM LoaderCall.left? new = some filled ∧
        filled.build = .ok tables) ∧
    ∀ filled, calls.foldlM LoaderCall.left? new = some filled →
      ∀ source target properties, AddsExternal m p filled source target properties := by
  obtain ⟨hworkers, hvalid, rfl⟩ := of_create_eq_ok hnew
  have hsided := sided_blank m p workers
  have hfold : calls.foldlM LoaderCall.left? (blank m p workers) =
      (calls.filterMap (LoaderCall.kept? m p)).foldlM AddCall.run? (blank m p workers) :=
    LoaderCall.foldlM_left?_eq calls hsided
  refine ⟨hfold, fun tables => ?_, fun hcalls hfit => ?_, ?_⟩
  · rw [hfold]
    constructor
    · rintro ⟨filled, hfilled, hbuild⟩
      exact ⟨_, filled, hnew, hfilled, hbuild⟩
    · rintro ⟨blank, filled, hblank, hfilled, hbuild⟩
      cases hnew.symm.trans hblank
      exact ⟨filled, hfilled, hbuild⟩
  · obtain ⟨tables, ⟨_, filled, hblank, hfilled, hbuild⟩, -⟩ :=
      exists_built hworkers hvalid (LoaderCall.forall_kept hcalls).1
        (LoaderCall.forall_kept hcalls).2 hfit
    cases hnew.symm.trans hblank
    exact ⟨filled, tables, hfold.trans hfilled, hbuild⟩
  · intro filled hfilled source target properties
    rw [hfold] at hfilled
    obtain ⟨hsided, hnumbering, hprojection⟩ := of_foldlM_run? hsided hfilled
    have hadds := hsided.addsExternal source target properties
    rwa [hnumbering, hprojection] at hadds

/-- The nodes 1 and 2. -/
def oneAndTwo : Numbering := .ofAscending 0 [(1, []), (2, [])] (by decide)

/-- Relationships with a weight, which is one where none is given. -/
def weighted : Projection := { properties := [{ key := "w", defaultValue := .one }] }

/-- Additions of which two have an unknown end and one has a list for its weight. -/
def mixedCalls : List LoaderCall :=
  [.internal (.plain 0 1), .external 7 1 .empty, .external 1 9 .empty,
    .external 1 2 (.ofList [("w", .intList [])]),
    .external 2 1 (.ofList [("v", .intList [1]), ("w", .int 7)]), .external 1 1 .empty]

/-- The three refused additions leave nothing, a list under another key is not looked at, and a
missing weight is one. -/
theorem additions_kept_mixed : ∃ new filled tables, create oneAndTwo weighted 1 = .ok new ∧
    mixedCalls.foldlM LoaderCall.left? new = some filled ∧ filled.build = .ok tables ∧
    Built oneAndTwo weighted 1
      [.plain 0 1, .valued 1 0 [.ofInt 7], .valued 0 0 [.one]] tables := by
  have hone : oneAndTwo.internalOf? 1 = some 0 := (oneAndTwo.internalOf?_eq_some_iff).mpr rfl
  have htwo : oneAndTwo.internalOf? 2 = some 1 := (oneAndTwo.internalOf?_eq_some_iff).mpr rfl
  have hseven : oneAndTwo.internalOf? 7 = none := oneAndTwo.internalIds_get? 7
  have hnine : oneAndTwo.internalOf? 9 = none := oneAndTwo.internalIds_get? 9
  have hkept : mixedCalls.filterMap (LoaderCall.kept? oneAndTwo weighted) =
      [.plain 0 1, .valued 1 0 [.ofInt 7], .valued 0 0 [.one]] := by
    simp only [mixedCalls, List.filterMap_cons, LoaderCall.kept?, hone, htwo, hseven, hnine]
    rfl
  obtain ⟨-, hbuilt, hbuilds, -⟩ :=
    additions_kept (create_eq_ok (m := oneAndTwo) (p := weighted) Nat.one_pos rfl) mixedCalls
  rw [hkept] at hbuilt hbuilds
  obtain ⟨filled, tables, hfilled, hbuild⟩ := hbuilds (by decide) (.of_length (by decide))
  exact ⟨_, filled, tables, create_eq_ok Nat.one_pos rfl, hfilled, hbuild,
    (hbuilt tables).mp ⟨filled, hfilled, hbuild⟩⟩

end RelationshipLoader

end PagedGraph
