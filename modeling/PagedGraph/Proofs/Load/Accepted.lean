import PagedGraph.Proofs.Load.Calls

/-!
# Calls that are all accepted

`GraphLoader.Accepts` says that none of some calls is refused.  Then the loader holds just what
the calls gave it (`GraphLoader.Loads`): the nodes in their order, the relationships of every
type in theirs, the projection a type was given last, and the kinds of the nodes' values.

* Every accepted call keeps this (`GraphLoader.Loads.step`), so it holds after all of them
  (`GraphLoader.loads_run`).
* Calls are accepted if the projections are valid and the values of each key have one kind
  (`GraphLoader.accepts_iff`).  No order matters to that.
-/

namespace PagedGraph

/-! ## What calls give -/

namespace LoadCall

/-- The node of a call that adds one. -/
def node? : LoadCall → Option Node
  | node n => some n
  | project _ _ => none
  | relationship _ => none

/-- The relationship of a call that adds one of a type. -/
def relationshipOf? (type : String) : LoadCall → Option Relationship
  | relationship r => if r.type = type then some r else none
  | project _ _ => none
  | node _ => none

/-- The projection of a call that registers a type. -/
def projectionOf? (type : String) : LoadCall → Option Projection
  | project t p => if t = type then some p else none
  | node _ => none
  | relationship _ => none

/-- Whether a call registers or uses a type. -/
def mentions (type : String) : LoadCall → Bool
  | project t _ => t = type
  | relationship r => r.type = type
  | node _ => false

end LoadCall

/-- The nodes that calls add, in order. -/
def nodesOf (calls : List LoadCall) : List Node := calls.filterMap LoadCall.node?

/-- The relationships of a type that calls add, in order. -/
def relationshipsOf (calls : List LoadCall) (type : String) : List Relationship :=
  calls.filterMap (LoadCall.relationshipOf? type)

/-- The projection that calls gave a type last, if they gave it one. -/
def lastProjection? (calls : List LoadCall) (type : String) : Option Projection :=
  (calls.filterMap (LoadCall.projectionOf? type)).getLast?

/-- Whether calls register or use a type. -/
def mentionsType (calls : List LoadCall) (type : String) : Bool :=
  calls.any (LoadCall.mentions type)

theorem filterMap_concat {α β : Type} (f : α → Option β) (xs : List α) (x : α) :
    (xs ++ [x]).filterMap f = xs.filterMap f ++ (f x).toList := by
  rw [List.filterMap_append]
  cases h : f x <;> simp [h]

theorem nodesOf_concat (calls : List LoadCall) (call : LoadCall) :
    nodesOf (calls ++ [call]) = nodesOf calls ++ call.node?.toList := filterMap_concat ..

theorem relationshipsOf_concat (calls : List LoadCall) (call : LoadCall) (type : String) :
    relationshipsOf (calls ++ [call]) type =
      relationshipsOf calls type ++ (call.relationshipOf? type).toList := filterMap_concat ..

theorem lastProjection?_concat (calls : List LoadCall) (call : LoadCall) (type : String) :
    lastProjection? (calls ++ [call]) type =
      (call.projectionOf? type).or (lastProjection? calls type) := by
  rw [lastProjection?, filterMap_concat, List.getLast?_append]
  cases call.projectionOf? type <;> rfl

theorem mentionsType_concat (calls : List LoadCall) (call : LoadCall) (type : String) :
    mentionsType (calls ++ [call]) type = (mentionsType calls type || call.mentions type) := by
  rw [mentionsType, List.any_append, List.any_cons, List.any_nil, Bool.or_false, mentionsType]

/-- A type that is not mentioned has no relationships. -/
theorem relationshipsOf_eq_nil {calls : List LoadCall} {type : String}
    (h : mentionsType calls type = false) : relationshipsOf calls type = [] := by
  refine List.filterMap_eq_nil_iff.mpr fun call hcall => ?_
  have hmentions := List.any_eq_false.mp h call hcall
  cases call with
  | project => rfl
  | node => rfl
  | relationship r => exact if_neg (by simpa [LoadCall.mentions] using hmentions)

/-- The kinds that some nodes give the values of a key. -/
def KindGiven (nodes : List Node) (key : String) (kind : ValueKind) : Prop :=
  ∃ node ∈ nodes, ∃ value, node.properties.get? key = some value ∧ value.kind? = some kind

theorem kindGiven_concat_iff {nodes : List Node} {n : Node} {key : String} {kind : ValueKind} :
    KindGiven (nodes ++ [n]) key kind ↔ KindGiven nodes key kind ∨
      ∃ value, n.properties.get? key = some value ∧ value.kind? = some kind := by
  simp only [KindGiven, List.mem_append, List.mem_singleton, or_and_right, exists_or,
    exists_eq_left]

namespace GraphLoader

/-- None of some calls is refused. -/
def Accepts (b : GraphLoader) : List LoadCall → Prop
  | [] => True
  | call :: rest => (call.step b).2 = none ∧ (call.step b).1.Accepts rest

theorem run_append_singleton (b : GraphLoader) (calls : List LoadCall) (call : LoadCall) :
    b.run (calls ++ [call]) = (call.step (b.run calls)).1 := by
  rw [run, List.foldl_append]
  rfl

theorem accepts_append_singleton {b : GraphLoader} {calls : List LoadCall} {call : LoadCall} :
    b.Accepts (calls ++ [call]) ↔ b.Accepts calls ∧ (call.step (b.run calls)).2 = none := by
  induction calls generalizing b with
  | nil => simp [Accepts, run]
  | cons first rest ih => rw [List.cons_append, Accepts, Accepts, ih, and_assoc]; rfl

/-- A loader holds what calls gave it. -/
structure Loads (b : GraphLoader) (calls : List LoadCall) : Prop where
  nodes : b.nodes.toList = nodesOf calls
  kinds : ∀ {key kind}, b.kinds.lookup key = some kind ↔ KindGiven (nodesOf calls) key kind
  projections : ∀ type, b.projections.lookup type = lastProjection? calls type
  relationships : ∀ type, b.relationships.lookup type =
    if mentionsType calls type then some (relationshipsOf calls type).toArray else none
  nodup : (names b.relationships).Nodup

theorem loads_of_create {c : LoadSettings} {b : GraphLoader} (h : create c = .ok b) :
    b.Loads [] := by
  rw [create] at h
  obtain ⟨_, -, h⟩ := bind_eq_ok h
  cases h
  refine ⟨rfl, fun {key kind} => iff_of_false (Option.some_ne_none kind).symm ?_, fun _ => rfl,
    fun _ => rfl, .nil⟩
  rintro ⟨node, hnode, -⟩
  cases hnode

/-- What was buffered for a type, whether or not the type was mentioned. -/
theorem Loads.getD_relationships {b : GraphLoader} {calls : List LoadCall} (h : b.Loads calls)
    (type : String) :
    (b.relationships.lookup type).getD #[] = (relationshipsOf calls type).toArray := by
  rw [h.relationships]
  cases hmentions : mentionsType calls type with
  | false => rw [relationshipsOf_eq_nil hmentions]; rfl
  | true => rfl

/-- The values of an accepted node have the kinds that are known, or make theirs known. -/
theorem lookup_kinds_iff {known kinds : List (String × ValueKind)} {nodes : List Node} {n : Node}
    (hknown : ∀ {key kind}, known.lookup key = some kind ↔ KindGiven nodes key kind)
    (hkinds : learnKinds known n.properties.entries = (kinds, none)) {key : String}
    {kind : ValueKind} :
    kinds.lookup key = some kind ↔ KindGiven (nodes ++ [n]) key kind := by
  have hagree : KindsAgree known n.properties.entries :=
    (learnKinds_snd_eq_none_iff n.properties.nodup).mp (congrArg Prod.snd hkinds)
  rw [lookup_learnKinds n.properties.nodup hkinds, Option.or_eq_some_iff, hknown,
    kindGiven_concat_iff]
  constructor
  · rintro (hgiven | ⟨-, hgiven⟩)
    · exact Or.inl hgiven
    · exact Or.inr (Option.bind_eq_some_iff.mp hgiven)
  · rintro (hgiven | ⟨value, hvalue, hkind⟩)
    · exact Or.inl hgiven
    · cases hlookup : known.lookup key with
      | none => exact Or.inr ⟨rfl, Option.bind_eq_some_iff.mpr ⟨value, hvalue, hkind⟩⟩
      | some other =>
        obtain rfl := hagree hvalue hkind hlookup
        exact Or.inl (hknown.mp hlookup)

/-- Every accepted call adds what it gives. -/
theorem Loads.step {b : GraphLoader} {calls : List LoadCall} (h : b.Loads calls)
    {call : LoadCall} (haccepted : (call.step b).2 = none) :
    (call.step b).1.Loads (calls ++ [call]) := by
  have houtcome := call.outcome b
  generalize call.step b = after at houtcome haccepted
  cases houtcome with
  | @projected type p hvalid =>
    refine ⟨?_, ?_, fun other => ?_, fun other => ?_, nodup_names_upsert h.nodup ..⟩
    · rw [nodesOf_concat]
      exact h.nodes.trans (List.append_nil _).symm
    · rw [nodesOf_concat, LoadCall.node?, Option.toList_none, List.append_nil]
      exact h.kinds
    · rw [lastProjection?_concat, LoadCall.projectionOf?]
      by_cases htype : other = type
      · rw [htype, lookup_upsert_self, if_pos rfl, Option.some_or]
      · rw [lookup_upsert_of_ne htype, if_neg (Ne.symm htype), Option.none_or, h.projections]
    · rw [mentionsType_concat, relationshipsOf_concat, LoadCall.relationshipOf?,
        Option.toList_none, List.append_nil, LoadCall.mentions]
      by_cases htype : other = type
      · rw [htype, lookup_upsert_self, h.getD_relationships, decide_eq_true rfl, Bool.or_true,
          if_pos rfl]
      · rw [lookup_upsert_of_ne htype, h.relationships, decide_eq_false (Ne.symm htype),
          Bool.or_false]
  | invalid => cases haccepted
  | @added n kinds hkinds =>
    refine ⟨?_, ?_, fun type => ?_, fun type => ?_, h.nodup⟩
    · rw [nodesOf_concat, LoadCall.node?, Option.toList_some, Array.toList_push, h.nodes]
    · rw [nodesOf_concat]
      exact lookup_kinds_iff h.kinds hkinds
    · rw [lastProjection?_concat, LoadCall.projectionOf?, Option.none_or, h.projections]
    · rw [mentionsType_concat, relationshipsOf_concat, LoadCall.relationshipOf?,
        Option.toList_none, List.append_nil, LoadCall.mentions, Bool.or_false, h.relationships]
  | clashing => cases haccepted
  | @related r =>
    refine ⟨?_, ?_, fun type => ?_, fun type => ?_, nodup_names_upsert h.nodup ..⟩
    · rw [nodesOf_concat]
      exact h.nodes.trans (List.append_nil _).symm
    · rw [nodesOf_concat, LoadCall.node?, Option.toList_none, List.append_nil]
      exact h.kinds
    · rw [lastProjection?_concat, LoadCall.projectionOf?, Option.none_or, h.projections]
    · rw [mentionsType_concat, relationshipsOf_concat, LoadCall.relationshipOf?, LoadCall.mentions]
      by_cases htype : type = r.type
      · rw [htype, lookup_upsert_self, h.getD_relationships, decide_eq_true rfl, Bool.or_true,
          if_pos rfl, if_pos rfl, Option.toList_some, List.push_toArray]
      · rw [lookup_upsert_of_ne htype, h.relationships, decide_eq_false (Ne.symm htype),
          Bool.or_false, if_neg (Ne.symm htype), Option.toList_none, List.append_nil]

/-- After calls none of which was refused a loader holds what they gave it. -/
theorem loads_run {c : LoadSettings} {new : GraphLoader} (hnew : create c = .ok new)
    {calls : List LoadCall} (h : new.Accepts calls) : (new.run calls).Loads calls := by
  induction calls using List.reverseRecOn with
  | nil => exact loads_of_create hnew
  | append_singleton calls call ih =>
    obtain ⟨hcalls, hcall⟩ := accepts_append_singleton.mp h
    rw [run_append_singleton]
    exact (ih hcalls).step hcall

/-! ## When calls are accepted -/

/-- What calls need to be accepted: valid projections, and for each key one kind of values. -/
structure Acceptable (calls : List LoadCall) : Prop where
  valid : ∀ {type p}, .project type p ∈ calls → p.validate = .ok ()
  oneKind : ∀ {key kind kind'}, KindGiven (nodesOf calls) key kind →
    KindGiven (nodesOf calls) key kind' → kind = kind'

/-- Valid projections are registered. -/
theorem step_project_eq_none_iff {b : GraphLoader} {type : String} {p : Projection} :
    ((LoadCall.project type p).step b).2 = none ↔ p.validate = .ok () := by
  have houtcome := (LoadCall.project type p).outcome b
  generalize (LoadCall.project type p).step b = after at houtcome
  cases houtcome with
  | projected hvalid => exact iff_of_true rfl hvalid
  | invalid h => exact iff_of_false nofun (by rw [h]; nofun)

/-- Nodes are added whose values have the known kinds. -/
theorem step_node_eq_none_iff {b : GraphLoader} {n : Node} :
    ((LoadCall.node n).step b).2 = none ↔ KindsAgree b.kinds n.properties.entries := by
  rw [← learnKinds_snd_eq_none_iff n.properties.nodup]
  have houtcome := (LoadCall.node n).outcome b
  generalize (LoadCall.node n).step b = after at houtcome
  cases houtcome with
  | added hkinds =>
    rw [hkinds]
    exact iff_of_true rfl rfl
  | clashing hkinds =>
    rw [hkinds]
    exact iff_of_false nofun nofun

/-- One more call may stand behind others if its projection is valid and all kinds agree. -/
theorem Acceptable.concat {calls : List LoadCall} {call : LoadCall} (h : Acceptable calls)
    (hvalid : ∀ {type p}, call = .project type p → p.validate = .ok ())
    (hkinds : ∀ {key kind kind'}, KindGiven (nodesOf calls ++ call.node?.toList) key kind →
      KindGiven (nodesOf calls ++ call.node?.toList) key kind' → kind = kind') :
    Acceptable (calls ++ [call]) where
  valid hmem := by
    rcases List.mem_append.mp hmem with hmem | hmem
    · exact h.valid hmem
    · exact hvalid (List.mem_singleton.mp hmem).symm
  oneKind := by
    rw [nodesOf_concat]
    exact hkinds

/-- A call that adds no node gives no kinds. -/
theorem Acceptable.concat_of_node?_eq_none {calls : List LoadCall} {call : LoadCall}
    (h : Acceptable calls) (hnode : call.node? = none)
    (hvalid : ∀ {type p}, call = .project type p → p.validate = .ok ()) :
    Acceptable (calls ++ [call]) := by
  refine h.concat hvalid ?_
  rw [hnode, Option.toList_none, List.append_nil]
  exact h.oneKind

/-- One more call is accepted if it may stand behind the others. -/
theorem Loads.step_eq_none_iff {b : GraphLoader} {calls : List LoadCall} (h : b.Loads calls)
    (hcalls : Acceptable calls) {call : LoadCall} :
    (call.step b).2 = none ↔ Acceptable (calls ++ [call]) := by
  cases call with
  | project type p =>
    rw [step_project_eq_none_iff]
    constructor
    · intro hvalid
      refine hcalls.concat_of_node?_eq_none rfl fun heq => ?_
      cases heq
      exact hvalid
    · exact fun hall => hall.valid (List.mem_append_right _ List.mem_cons_self)
  | node n =>
    rw [step_node_eq_none_iff]
    constructor
    · intro hagree
      refine hcalls.concat nofun fun {key kind kind'} hgiven hgiven' => ?_
      rw [LoadCall.node?, Option.toList_some, kindGiven_concat_iff, ← h.kinds] at hgiven hgiven'
      rcases hgiven with hknown | ⟨value, hvalue, hkind⟩
      · rcases hgiven' with hknown' | ⟨value', hvalue', hkind'⟩
        · exact Option.some.inj (hknown.symm.trans hknown')
        · exact hagree hvalue' hkind' hknown
      · rcases hgiven' with hknown' | ⟨value', hvalue', hkind'⟩
        · exact (hagree hvalue hkind hknown').symm
        · cases hvalue.symm.trans hvalue'
          exact Option.some.inj (hkind.symm.trans hkind')
    · intro hall key value got kind hvalue hgot hknown
      have hgiven : ∀ {k}, KindGiven (nodesOf calls ++ [n]) key k →
          KindGiven (nodesOf (calls ++ [.node n])) key k := fun h => by rwa [nodesOf_concat]
      exact hall.oneKind (hgiven (kindGiven_concat_iff.mpr (Or.inl (h.kinds.mp hknown))))
        (hgiven (kindGiven_concat_iff.mpr (Or.inr ⟨value, hvalue, hgot⟩)))
  | relationship r => exact iff_of_true rfl (hcalls.concat_of_node?_eq_none rfl nofun)

/-- Calls that can be accepted can without the last. -/
theorem Acceptable.of_concat {calls : List LoadCall} {call : LoadCall}
    (h : Acceptable (calls ++ [call])) : Acceptable calls where
  valid hmem := h.valid (List.mem_append_left _ hmem)
  oneKind {key kind kind'} hgiven hgiven' := by
    have hmono : ∀ {k}, KindGiven (nodesOf calls) key k →
        KindGiven (nodesOf (calls ++ [call])) key k := by
      rintro k ⟨node, hnode, hvalue⟩
      rw [nodesOf_concat]
      exact ⟨node, List.mem_append_left _ hnode, hvalue⟩
    exact h.oneKind (hmono hgiven) (hmono hgiven')

/-- Calls are accepted if the projections are valid and the values of each key have one kind. -/
theorem accepts_iff {c : LoadSettings} {new : GraphLoader} (hnew : create c = .ok new)
    {calls : List LoadCall} : new.Accepts calls ↔ Acceptable calls := by
  induction calls using List.reverseRecOn with
  | nil => exact iff_of_true trivial ⟨nofun, fun ⟨_, hnode, _⟩ => by cases hnode⟩
  | append_singleton calls call ih =>
    rw [accepts_append_singleton]
    constructor
    · rintro ⟨hcalls, hcall⟩
      exact ((loads_run hnew hcalls).step_eq_none_iff (ih.mp hcalls)).mp hcall
    · intro hall
      have hcalls := ih.mpr hall.of_concat
      exact ⟨hcalls, ((loads_run hnew hcalls).step_eq_none_iff hall.of_concat).mpr hall⟩

end GraphLoader

end PagedGraph
