import Mathlib.Data.List.Induction
import PagedGraph.Load.Graph
import PagedGraph.Proofs.Load.Row

/-!
# Calls that load a graph

A loader is made by calls that register a type, add a node or add a relationship.  A call may
be refused: `LoadCall.step` gives the loader afterwards and the reason, and `LoadCall.Outcome`
lists what a call can do.

* A node is refused if a value of it has another kind than is known of its key
  (`GraphLoader.learnKinds_snd_eq_none_iff`).  The kinds that were known stay known.
* `GraphLoader.Consistent` is what every call keeps, a refused one too: the projections are
  valid, and the kinds of the values of the nodes are known (`GraphLoader.Consistent.step`,
  `GraphLoader.Consistent.run`).
* `GraphLoader.Reordered` says that a loader holds the same, with the types and the relationships
  of each in another order.  This is all that the order of work can change before a build.
-/

namespace PagedGraph

/-- A call that adds something to a loader. -/
inductive LoadCall where
  | project (type : String) (projection : Projection)
  | node (node : Node)
  | relationship (relationship : Relationship)
deriving DecidableEq, Repr

/-! ## Kinds -/

/-- Only null has no kind. -/
theorem Value.exists_kind? {value : Value} (h : value ≠ .null) :
    ∃ kind, value.kind? = some kind := by
  cases value with
  | null => exact absurd rfl h
  | _ => exact ⟨_, rfl⟩

namespace GraphLoader

variable {known kinds : List (String × ValueKind)} {entries : List (String × Value)}

/-- Known kinds stay known, whether or not a clash ends the check. -/
theorem lookup_learnKinds_of_known {key : String} {kind : ValueKind}
    (h : known.lookup key = some kind) : (learnKinds known entries).1.lookup key = some kind := by
  fun_induction learnKinds known entries with
  | case1 => exact h
  | case2 _ _ _ _ _ ih => exact ih h
  | case3 _ _ _ _ _ _ _ ih => exact ih h
  | case4 => exact h
  | case5 known key' value rest got hgot hknown ih =>
    refine ih ?_
    rw [List.lookup_append, h]
    rfl

/-- A check without a clash adds the kinds of the values whose keys were not known. -/
theorem lookup_learnKinds {key : String} (hnodup : (names entries).Nodup)
    (h : learnKinds known entries = (kinds, none)) :
    kinds.lookup key = (known.lookup key).or ((entries.lookup key).bind Value.kind?) := by
  fun_induction learnKinds known entries with
  | case1 =>
    cases h
    exact (Option.or_none).symm
  | case2 known key' value rest hnone ih =>
    obtain ⟨hnew, hrest⟩ := List.nodup_cons.mp hnodup
    rw [ih hrest h, lookup_cons]
    split
    · next hkey => rw [hkey, lookup_eq_none_iff.mpr hnew, Option.bind_some, hnone, Option.bind_none]
    · rfl
  | case3 known key' value rest got hknown hgot ih =>
    obtain ⟨hnew, hrest⟩ := List.nodup_cons.mp hnodup
    rw [ih hrest h, lookup_cons]
    split
    · next hkey => rw [hkey, hknown, Option.some_or, Option.some_or]
    · rfl
  | case4 => cases h
  | case5 known key' value rest got hknown hgot ih =>
    obtain ⟨hnew, hrest⟩ := List.nodup_cons.mp hnodup
    rw [ih hrest h, lookup_cons, List.lookup_append, lookup_cons]
    split
    · next hkey =>
      rw [hkey, hknown, lookup_eq_none_iff.mpr hnew, Option.bind_some, hgot]
      rfl
    · rw [List.lookup_nil, Option.or_none]

/-- Values whose keys are known have the known kinds. -/
def KindsAgree (known : List (String × ValueKind)) (entries : List (String × Value)) : Prop :=
  ∀ {key value got kind}, entries.lookup key = some value → value.kind? = some got →
    known.lookup key = some kind → kind = got

theorem kindsAgree_cons_iff {key : String} {value : Value} (hnew : key ∉ names entries) :
    KindsAgree known ((key, value) :: entries) ↔
      (∀ {got kind}, value.kind? = some got → known.lookup key = some kind → kind = got) ∧
        KindsAgree known entries := by
  constructor
  · intro h
    refine ⟨fun hgot hkind => h (by rw [lookup_cons, if_pos rfl]) hgot hkind, ?_⟩
    intro key' value' got kind hvalue hgot hkind
    refine h ?_ hgot hkind
    rw [lookup_cons, if_neg, hvalue]
    rintro rfl
    exact hnew (mem_names_iff.mpr ⟨_, hvalue⟩)
  · rintro ⟨hfirst, hrest⟩ key' value' got kind hvalue hgot hkind
    rw [lookup_cons] at hvalue
    split at hvalue
    · next hkey =>
      cases hvalue
      exact hfirst hgot (hkey ▸ hkind)
    · exact hrest hvalue hgot hkind

/-- A kind of a key that is not among some values is nothing to them. -/
theorem kindsAgree_append_iff {key : String} {kind : ValueKind} (hnew : key ∉ names entries) :
    KindsAgree (known ++ [(key, kind)]) entries ↔ KindsAgree known entries := by
  have hsame : ∀ {key' value}, entries.lookup key' = some value →
      (known ++ [(key, kind)]).lookup key' = known.lookup key' := by
    intro key' value hvalue
    rw [List.lookup_append, lookup_cons, if_neg, List.lookup_nil, Option.or_none]
    rintro rfl
    exact hnew (mem_names_iff.mpr ⟨_, hvalue⟩)
  constructor
  · intro h key' value got kind' hvalue hgot hkind
    exact h hvalue hgot ((hsame hvalue).trans hkind)
  · intro h key' value got kind' hvalue hgot hkind
    exact h hvalue hgot ((hsame hvalue).symm.trans hkind)

/-- There is no clash if all values whose keys are known have the known kinds. -/
theorem learnKinds_snd_eq_none_iff (hnodup : (names entries).Nodup) :
    (learnKinds known entries).2 = none ↔ KindsAgree known entries := by
  fun_induction learnKinds known entries with
  | case1 => exact ⟨fun _ => nofun, fun _ => rfl⟩
  | case2 known key' value rest hnone ih =>
    obtain ⟨hnew, hrest⟩ := List.nodup_cons.mp hnodup
    rw [ih hrest, kindsAgree_cons_iff hnew, hnone]
    exact ⟨fun h => ⟨nofun, h⟩, And.right⟩
  | case3 known key' value rest got hknown hgot ih =>
    obtain ⟨hnew, hrest⟩ := List.nodup_cons.mp hnodup
    rw [ih hrest, kindsAgree_cons_iff hnew, hknown, hgot]
    exact ⟨fun h => ⟨fun h' h => Option.some.inj (h.symm.trans h'), h⟩, And.right⟩
  | case4 known key' value rest got kind hknown hgot hne =>
    exact ⟨nofun, fun h => absurd (h (by rw [lookup_cons, if_pos rfl]) hgot hknown) hne⟩
  | case5 known key' value rest got hknown hgot ih =>
    obtain ⟨hnew, hrest⟩ := List.nodup_cons.mp hnodup
    rw [ih hrest, kindsAgree_append_iff hnew, kindsAgree_cons_iff hnew, hknown]
    exact ⟨fun h => ⟨nofun, h⟩, And.right⟩

end GraphLoader

/-! ## One call -/

namespace LoadCall

/-- The loader after a call, and the reason why the call was refused. -/
def step (b : GraphLoader) : LoadCall → GraphLoader × Option GraphError
  | project type projection =>
    match b.project type projection with
    | .ok projected => (projected, none)
    | .error e => (b, some e)
  | node n => b.addNode n
  | relationship r => (b.addRelationship r, none)

/-- What a call can do. -/
inductive Outcome (b : GraphLoader) : LoadCall → GraphLoader × Option GraphError → Prop where
  | projected {type : String} {p : Projection} (hvalid : p.validate = .ok ()) :
    Outcome b (project type p)
      ({ b with
        relationships := upsert type (·.getD #[]) b.relationships
        projections := upsert type (fun _ => p) b.projections }, none)
  /-- A projection that is not valid changes nothing. -/
  | invalid {type : String} {p : Projection} {e : GraphError} (h : p.validate = .error e) :
    Outcome b (project type p) (b, some e)
  | added {n : Node} {kinds : List (String × ValueKind)}
    (hkinds : GraphLoader.learnKinds b.kinds n.properties.entries = (kinds, none)) :
    Outcome b (node n) ({ b with nodes := b.nodes.push n, kinds }, none)
  /-- Of a node that is refused some kinds may have become known. -/
  | clashing {n : Node} {kinds : List (String × ValueKind)} {clash : TypeClash}
    (hkinds : GraphLoader.learnKinds b.kinds n.properties.entries = (kinds, some clash)) :
    Outcome b (node n) ({ b with kinds }, some (.typeClash clash))
  | related {r : Relationship} :
    Outcome b (relationship r)
      ({ b with
        relationships := upsert r.type (fun known => (known.getD #[]).push r) b.relationships },
        none)

theorem outcome (b : GraphLoader) (call : LoadCall) : Outcome b call (call.step b) := by
  cases call with
  | project type p =>
    rw [step, GraphLoader.project]
    cases h : p.validate with
    | error e => exact .invalid h
    | ok _ => exact .projected h
  | node n =>
    rcases hkinds : GraphLoader.learnKinds b.kinds n.properties.entries with ⟨kinds, clash⟩
    simp only [step, GraphLoader.addNode, hkinds]
    cases clash with
    | none => exact .added hkinds
    | some clash => exact .clashing hkinds
  | relationship r => exact .related

end LoadCall

namespace GraphLoader

/-! ## What every call keeps -/

/-- What holds of a loader that calls have made. -/
structure Consistent (b : GraphLoader) : Prop where
  workers_pos : 0 < b.workers
  valid : ∀ {type p}, b.projections.lookup type = some p → p.validate = .ok ()
  kinds : ∀ {node : Node}, node ∈ b.nodes → ∀ {key value kind},
    node.properties.get? key = some value → value.kind? = some kind →
    b.kinds.lookup key = some kind

/-- A new loader is consistent. -/
theorem consistent_of_create {c : LoadSettings} {b : GraphLoader} (h : create c = .ok b) :
    b.Consistent := by
  rw [create] at h
  obtain ⟨_, hworkers, h⟩ := bind_eq_ok h
  cases h
  refine ⟨Nat.pos_of_ne_zero fun hzero => ?_, nofun, fun hnode => by simp at hnode⟩
  rw [LoadSettings.validate, checkWorkers, if_pos hzero] at hworkers
  cases hworkers

/-- Every call keeps a loader consistent, also one that is refused. -/
theorem Consistent.step {b : GraphLoader} (h : b.Consistent) (call : LoadCall) :
    (call.step b).1.Consistent := by
  have houtcome := call.outcome b
  generalize call.step b = after at houtcome
  cases houtcome with
  | @projected type p hvalid =>
    refine ⟨h.workers_pos, fun {type' p'} hp => ?_, h.kinds⟩
    by_cases htype : type' = type
    · rw [htype, lookup_upsert_self] at hp
      cases hp
      exact hvalid
    · rw [lookup_upsert_of_ne htype] at hp
      exact h.valid hp
  | invalid => exact h
  | @added n kinds hkinds =>
    refine ⟨h.workers_pos, h.valid, fun {node} hnode {key value kind} hvalue hkind => ?_⟩
    have hlookup : kinds.lookup key = _ := lookup_learnKinds n.properties.nodup hkinds
    rcases Array.mem_push.mp hnode with hnode | rfl
    · rw [hlookup, h.kinds hnode hvalue hkind, Option.some_or]
    · have hagree : KindsAgree b.kinds node.properties.entries :=
        (learnKinds_snd_eq_none_iff node.properties.nodup).mp (congrArg Prod.snd hkinds)
      rw [hlookup, show node.properties.entries.lookup key = some value from hvalue,
        Option.bind_some, hkind]
      cases hknown : b.kinds.lookup key with
      | none => rfl
      | some known => rw [Option.some_or, hagree hvalue hkind hknown]
  | @clashing n kinds clash hkinds =>
    refine ⟨h.workers_pos, h.valid, fun {node} hnode {key value kind} hvalue hkind => ?_⟩
    have hknown : (learnKinds b.kinds n.properties.entries).1.lookup key = some kind :=
      lookup_learnKinds_of_known (h.kinds hnode hvalue hkind)
    rwa [hkinds] at hknown
  | related => exact ⟨h.workers_pos, h.valid, h.kinds⟩

/-- The loader after some calls, with refused ones among them. -/
def run (b : GraphLoader) (calls : List LoadCall) : GraphLoader :=
  calls.foldl (fun b call => (call.step b).1) b

/-- For each of some calls the reason why it is refused, none if it is accepted. -/
def refusals (b : GraphLoader) : List LoadCall → List (Option GraphError)
  | [] => []
  | call :: rest => (call.step b).2 :: (call.step b).1.refusals rest

theorem Consistent.run {b : GraphLoader} (h : b.Consistent) (calls : List LoadCall) :
    (b.run calls).Consistent := by
  induction calls generalizing b with
  | nil => exact h
  | cons call calls ih => exact ih (h.step call)

/-! ## The order of relationships -/

/-- A relationship waits in a loader, among those of a type. -/
def Buffers (b : GraphLoader) (type : String) (r : Relationship) : Prop :=
  ∃ rs, (type, rs) ∈ b.relationships ∧ r ∈ rs

/-- A loader with the types, and the relationships of each type, in any other order. -/
structure Reordered (b b' : GraphLoader) : Prop where
  workers : b'.workers = b.workers
  nodes : b'.nodes = b.nodes
  kinds : b'.kinds = b.kinds
  projections : b'.projections = b.projections
  relationships : ∃ entries, b.relationships.Perm entries ∧
    List.Forall₂ (fun entry entry' => entry.1 = entry'.1 ∧ entry.2.toList.Perm entry'.2.toList)
      entries b'.relationships

theorem Reordered.refl (b : GraphLoader) : b.Reordered b where
  workers := rfl
  nodes := rfl
  kinds := rfl
  projections := rfl
  relationships := ⟨_, .refl _, List.forall₂_same.mpr fun _ _ => ⟨rfl, .refl _⟩⟩

theorem Reordered.projectionOf {b b' : GraphLoader} (h : b.Reordered b') (type : String) :
    b'.projectionOf type = b.projectionOf type := by
  rw [GraphLoader.projectionOf, GraphLoader.projectionOf, h.projections]

/-- Every type is there with the same relationships. -/
theorem Reordered.exists_entry {b b' : GraphLoader} (h : b.Reordered b') {type : String}
    {rs' : Array Relationship} (hentry : (type, rs') ∈ b'.relationships) :
    ∃ rs, (type, rs) ∈ b.relationships ∧ rs.toList.Perm rs'.toList := by
  obtain ⟨entries, hperm, hsame⟩ := h.relationships
  obtain ⟨⟨_, rs⟩, hmem, rfl, hrs⟩ := exists_of_mem_right hsame hentry
  exact ⟨rs, hperm.mem_iff.mpr hmem, hrs⟩

theorem Reordered.exists_entry' {b b' : GraphLoader} (h : b.Reordered b') {type : String}
    {rs : Array Relationship} (hentry : (type, rs) ∈ b.relationships) :
    ∃ rs', (type, rs') ∈ b'.relationships ∧ rs.toList.Perm rs'.toList := by
  obtain ⟨entries, hperm, hsame⟩ := h.relationships
  obtain ⟨⟨_, rs'⟩, hmem, rfl, hrs⟩ := exists_of_mem_right hsame.flip (hperm.mem_iff.mp hentry)
  exact ⟨rs', hmem, hrs⟩

/-- The types are named in another order. -/
theorem Reordered.perm_names {b b' : GraphLoader} (h : b.Reordered b') :
    (names b.relationships).Perm (names b'.relationships) := by
  obtain ⟨entries, hperm, hsame⟩ := h.relationships
  have hnames : names entries = names b'.relationships := by
    refine List.forall₂_eq_eq_eq ▸ ?_
    rw [names, names, List.forall₂_map_left_iff, List.forall₂_map_right_iff]
    exact hsame.imp fun _ _ => And.left
  rw [← hnames]
  exact hperm.map _

theorem Reordered.buffers_iff {b b' : GraphLoader} (h : b.Reordered b') {type : String}
    {r : Relationship} : b'.Buffers type r ↔ b.Buffers type r := by
  constructor
  · rintro ⟨rs', hentry, hr⟩
    obtain ⟨rs, hentry, hperm⟩ := h.exists_entry hentry
    exact ⟨rs, hentry, Array.mem_toList_iff.mp (hperm.mem_iff.mpr (Array.mem_toList_iff.mpr hr))⟩
  · rintro ⟨rs, hentry, hr⟩
    obtain ⟨rs', hentry, hperm⟩ := h.exists_entry' hentry
    exact ⟨rs', hentry, Array.mem_toList_iff.mp (hperm.mem_iff.mp (Array.mem_toList_iff.mpr hr))⟩

end GraphLoader

end PagedGraph
