import PagedGraph.Proofs.Load.Relationships
import PagedGraph.Proofs.Work.InPlace

/-!
# Relationships row by row

A relationship is stored as up to two rows, on one side or on both.  `RelationshipLoader.putRows`
stores them one after another, and `RelationshipLoader.putExternal` looks up the ends and reads
the values first, one after another too.

* Storing rows never fails, and leaves what the pairs of the projection ask for (`run_putRows`).
* All that can fail is checked before the first row, so what is refused leaves the loader as it
  was (`run_putExternal`).
* A relationship between nodes is refused for a list under a key of the projection only, and
  otherwise `Projection.numbers` are its values (`addExternal_eq_match`,
  `run_putExternal_eq_match`).
-/

namespace PagedGraph

/-! ## The values of a relationship -/

/-- Whether a value is a list. -/
def Value.isList : Value → Bool
  | intList _ | floatList _ => true
  | null | int _ | float _ => false

/-- The number that is stored of a value, the default for none and for null. -/
def Value.numberOr (default : Double) : Option Value → Double
  | some (int n) => .ofInt n
  | some (float x) => x
  | none | some null | some (intList _) | some (floatList _) => default

namespace Projection

variable (p : Projection) (properties : Properties)

/-- The first list under the keys of a projection. -/
def firstList? : Option Value :=
  p.keys.findSome? fun key => (properties.get? key).filter Value.isList

/-- The number of every key of a projection, in order. -/
def numbers : List Double :=
  p.properties.map fun property =>
    Value.numberOr property.defaultValue (properties.get? property.key)

variable {p properties}

theorem exists_firstList?_iff : (∃ value, p.firstList? properties = some value) ↔
    ∃ key ∈ p.keys, ∃ value, properties.get? key = some value ∧ value.isList = true := by
  rw [← Option.isSome_iff_exists, firstList?, List.findSome?_isSome_iff]
  simp only [Option.isSome_filter, Option.any_eq_true]

/-- Only the values under the keys of the projection count. -/
theorem firstList?_congr {others : Properties}
    (h : ∀ key ∈ p.keys, others.get? key = properties.get? key) :
    p.firstList? others = p.firstList? properties := by
  rw [firstList?, firstList?]
  revert h
  induction p.keys with
  | nil => exact fun _ => rfl
  | cons key keys ih =>
    intro h
    obtain ⟨hkey, hkeys⟩ := List.forall_mem_cons.mp h
    rw [List.findSome?_cons, List.findSome?_cons, hkey, ih hkeys]

theorem numbers_congr {others : Properties}
    (h : ∀ key ∈ p.keys, others.get? key = properties.get? key) :
    p.numbers others = p.numbers properties :=
  List.map_congr_left fun property hproperty => by rw [h _ (List.mem_map_of_mem hproperty)]

end Projection

namespace RelationshipLoader

/-- One value is read as its number, if it is no list. -/
theorem propertyValue_eq (properties : Properties) (property : PropertyProjection) :
    propertyValue properties property =
      match (properties.get? property.key).filter Value.isList with
      | some value => .error (.typeClash (.notNumeric value))
      | none => .ok (Value.numberOr property.defaultValue (properties.get? property.key)) := by
  rw [propertyValue]
  cases properties.get? property.key with
  | none => rfl
  | some value => cases value <;> rfl

/-- The values are read as numbers up to the first list. -/
theorem mapM_propertyValue_eq (p : Projection) (properties : Properties) :
    p.properties.mapM (propertyValue properties) =
      match p.firstList? properties with
      | some value => .error (.typeClash (.notNumeric value))
      | none => .ok (p.numbers properties) := by
  rw [Projection.firstList?, Projection.numbers, Projection.keys]
  induction p.properties with
  | nil => rfl
  | cons property rest ih =>
    rw [List.mapM_cons, propertyValue_eq, ih, List.map_cons, List.findSome?_cons, List.map_cons]
    cases (properties.get? property.key).filter Value.isList with
    | some value => rfl
    | none =>
      dsimp only
      cases (rest.map (·.key)).findSome? fun key =>
        (properties.get? key).filter Value.isList <;> rfl

/-! ## Storing row by row -/

/-- Store a row on the outgoing side. -/
def putOutgoing (source target : Nat) (values : List Double) : InPlace RelationshipLoader Unit :=
  modify fun l => { l with outgoing := l.outgoing.push source ⟨target, values⟩ }

/-- Store a row on the incoming side, if there is one. -/
def putIncoming (source target : Nat) (values : List Double) : InPlace RelationshipLoader Unit :=
  modify fun l => { l with incoming := l.incoming.map (·.push source ⟨target, values⟩) }

/-- Store the rows of a relationship between nodes, one after another. -/
def putRows (source target : Nat) (values : List Double) : InPlace RelationshipLoader Unit := do
  let p := (← get).projection
  if source = target ∧ p.selfLoops = .drop then pure ()
  else
    match p.orientation with
    | .natural =>
      putOutgoing source target values
      putIncoming target source values
    | .reverse =>
      putOutgoing target source values
      putIncoming source target values
    | .undirected =>
      putOutgoing source target values
      if source ≠ target then putOutgoing target source values
      putIncoming target source values

/-- Store a relationship in external ids. -/
def putExternal (source target : Nat) (properties : Properties) :
    InPlace RelationshipLoader Unit := do
  let l ← get
  let tail ← ofExcept (endNode l.numbering source target source)
  let head ← ofExcept (endNode l.numbering source target target)
  if l.projection.properties.isEmpty then putRows tail head l.projection.defaults
  else
    let values ← ofExcept (l.projection.properties.mapM (propertyValue properties))
    putRows tail head values

/-- A loader has an incoming side if its projection stores one. -/
def Sided (l : RelationshipLoader) : Prop := l.incoming.isSome = l.projection.storesInverse

theorem sided_blank (m : Numbering) (p : Projection) (workers : Nat) :
    (blank m p workers).Sided := by
  rw [Sided, blank, holding]
  cases p.storesInverse <;> rfl

theorem Sided.push {l : RelationshipLoader} (h : l.Sided) (source target : Nat)
    (values : List Double) : (l.push source target values).Sided := by
  obtain ⟨m, p, outgoing, incoming⟩ := l
  rw [Sided, RelationshipLoader.push, Option.isSome_map]
  exact h

/-- The rows of a relationship are those that its pairs ask for. -/
theorem run_putRows {l : RelationshipLoader} (h : l.Sided) (source target : Nat)
    (values : List Double) :
    (putRows source target values).run l = .ok () (l.push source target values) := by
  obtain ⟨m, p, outgoing, incoming⟩ := l
  have hinverse : p.storesInverse = incoming.isSome := h.symm
  simp only [putRows, EStateM.run_bind, EStateM.run_get, RelationshipLoader.push,
    Projection.inversePairs, Projection.pairs, hinverse]
  by_cases hdrop : source = target ∧ p.selfLoops = .drop
  · cases incoming <;> simp [hdrop, ShardedRows.pushPairs]
  · simp only [if_neg hdrop]
    cases horientation : p.orientation with
    | natural => cases incoming <;> simp [putOutgoing, putIncoming, ShardedRows.pushPairs]
    | reverse => cases incoming <;> simp [putOutgoing, putIncoming, ShardedRows.pushPairs]
    | undirected =>
      -- Such a projection stores no inverse, so the last step finds no side.
      have hnone : incoming = none := by
        simpa [Projection.storesInverse, horientation] using hinverse
      by_cases hloop : source = target
      · simp [hloop, hnone, putOutgoing, putIncoming, ShardedRows.pushPairs]
      · simp [hloop, hnone, putOutgoing, putIncoming, ShardedRows.pushPairs]

/-- A relationship in external ids is stored as it resolves, or leaves the loader as it was. -/
theorem run_putExternal {l : RelationshipLoader} (h : l.Sided) (source target : Nat)
    (properties : Properties) :
    (putExternal source target properties).run l =
      InPlace.settle l ((l.addExternal source target properties).map ((), ·)) := by
  rw [putExternal, addExternal, resolve, EStateM.run_bind, EStateM.run_get]
  dsimp only
  cases endNode l.numbering source target source with
  | error e => exact InPlace.run_error_bind e _ l
  | ok tail =>
    rw [InPlace.run_ok_bind]
    cases endNode l.numbering source target target with
    | error e => exact InPlace.run_error_bind e _ l
    | ok head =>
      rw [InPlace.run_ok_bind]
      split
      · next hempty =>
        rw [run_putRows h, Projection.defaults, List.isEmpty_iff.mp hempty]
        rfl
      · cases l.projection.properties.mapM (propertyValue properties) with
        | error e => exact InPlace.run_error_bind e _ l
        | ok values =>
          rw [InPlace.run_ok_bind, run_putRows h]
          rfl

/-- What a relationship in external ids is stored as, or why it is refused. -/
theorem addExternal_eq_match (l : RelationshipLoader) (source target : Nat)
    (properties : Properties) :
    l.addExternal source target properties =
      match l.numbering.internalOf? source, l.numbering.internalOf? target,
        l.projection.firstList? properties with
      | none, _, _ => .error (.unknownEnd source source target)
      | some _, none, _ => .error (.unknownEnd target source target)
      | some _, some _, some value => .error (.typeClash (.notNumeric value))
      | some tail, some head, none => .ok (l.push tail head (l.projection.numbers properties)) := by
  rw [addExternal, resolve, endNode, endNode, mapM_propertyValue_eq]
  cases l.numbering.internalOf? source with
  | none => rfl
  | some tail =>
    cases l.numbering.internalOf? target with
    | none => rfl
    | some head =>
      cases l.projection.firstList? properties <;> rfl

/-- The same of storing it row by row. -/
theorem run_putExternal_eq_match {l : RelationshipLoader} (h : l.Sided) (source target : Nat)
    (properties : Properties) :
    (putExternal source target properties).run l =
      match l.numbering.internalOf? source, l.numbering.internalOf? target,
        l.projection.firstList? properties with
      | none, _, _ => .error (.unknownEnd source source target) l
      | some _, none, _ => .error (.unknownEnd target source target) l
      | some _, some _, some value => .error (.typeClash (.notNumeric value)) l
      | some tail, some head, none =>
        .ok () (l.push tail head (l.projection.numbers properties)) := by
  rw [run_putExternal h, addExternal_eq_match]
  cases l.numbering.internalOf? source with
  | none => rfl
  | some tail =>
    cases l.numbering.internalOf? target with
    | none => rfl
    | some head =>
      cases l.projection.firstList? properties <;> rfl

end RelationshipLoader

end PagedGraph
