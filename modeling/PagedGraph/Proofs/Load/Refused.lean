import PagedGraph.Proofs.Load.Accepted

/-!
# What a refused node leaves behind

The properties of a node are looked at one after another, and a kind becomes known as soon as its
key comes up.  A clash ends this, and the node is refused.  Nothing has changed then but the kinds:
those stay known that the keys in front of the clash told (`GraphLoader.exists_addNode_eq`).

`GraphLoader.Indistinguishable` says that no calls, and no build behind them, tell two loaders
apart.  A kind that stayed known is told by a node that gives its key a value of another kind
(`GraphLoader.not_indistinguishable`).  So a refused node leaves no trace, in whatever order its
properties are looked at, if and only if all its keys that have a value were known.  This is
`GraphLoader.addNode_refused`.
-/

namespace PagedGraph

/-! ## Looking at properties in another order -/

namespace Node

/-- The same node, whose properties are looked at in another order. -/
structure Shuffled (n n' : Node) : Prop where
  id : n'.id = n.id
  labels : n'.labels = n.labels
  entries : n.properties.entries.Perm n'.properties.entries

theorem Shuffled.refl (n : Node) : n.Shuffled n := ⟨rfl, rfl, .refl _⟩

theorem Shuffled.get?_eq {n n' : Node} (h : n.Shuffled n') (key : String) :
    n'.properties.get? key = n.properties.get? key := by
  refine Option.ext fun value => ?_
  rw [Properties.get?, Properties.get?, lookup_eq_some_iff n'.properties.nodup,
    lookup_eq_some_iff n.properties.nodup, h.entries.mem_iff]

/-- Any property can be the first. -/
theorem exists_shuffled {n : Node} {entry : String × Value} (h : entry ∈ n.properties.entries) :
    ∃ n' rest, n.Shuffled n' ∧ n'.properties.entries = entry :: rest := by
  have hperm := List.perm_cons_erase h
  refine ⟨{ n with properties := ⟨_, (hperm.map _).nodup_iff.mp n.properties.nodup⟩ }, _, ?_, rfl⟩
  exact ⟨rfl, rfl, hperm⟩

end Node

namespace GraphLoader

/-! ## Refusing a node -/

section Learning

variable {known learned : List (String × ValueKind)} {entries entries' : List (String × Value)}

/-- One of some values has another kind than is known of its key. -/
inductive Clashes (known : List (String × ValueKind)) (entries : List (String × Value)) :
    TypeClash → Prop where
  | nodeProperty {key : String} {value : Value} {kind got : ValueKind}
    (hmem : (key, value) ∈ entries) (hgot : value.kind? = some got)
    (hkind : known.lookup key = some kind) (hne : kind ≠ got) :
    Clashes known entries (.nodeProperty key kind got)

theorem Clashes.mono (hsub : entries ⊆ entries') {clash : TypeClash}
    (h : Clashes known entries clash) : Clashes known entries' clash := by
  cases h with
  | nodeProperty hmem hgot hkind hne => exact .nodeProperty (hsub hmem) hgot hkind hne

/-- Some kinds are those of values whose keys were not known. -/
def Tells (known : List (String × ValueKind)) (entries : List (String × Value))
    (learned : List (String × ValueKind)) : Prop :=
  ∀ {key kind}, (key, kind) ∈ learned →
    key ∉ names known ∧ ∃ value, (key, value) ∈ entries ∧ value.kind? = some kind

theorem Tells.mono (hsub : entries ⊆ entries') (h : Tells known entries learned) :
    Tells known entries' learned := fun hmem => by
  obtain ⟨hnew, value, hvalue, hkind⟩ := h hmem
  exact ⟨hnew, value, hsub hvalue, hkind⟩

theorem tells_nil (known : List (String × ValueKind)) (entries : List (String × Value)) :
    Tells known entries [] := fun hmem => absurd hmem List.not_mem_nil

/-- The first value tells its kind, if none was known. -/
theorem Tells.cons {key : String} {value : Value} {got : ValueKind}
    (hknown : known.lookup key = none) (hgot : value.kind? = some got)
    (h : Tells (known ++ [(key, got)]) entries learned) :
    Tells known ((key, value) :: entries) ((key, got) :: learned) := fun hmem => by
  rcases List.mem_cons.mp hmem with heq | hmem
  · cases heq
    exact ⟨lookup_eq_none_iff.mp hknown, value, List.mem_cons_self, hgot⟩
  · obtain ⟨hnew, other, hother, hkind⟩ := h hmem
    refine ⟨fun hkey => hnew ?_, other, List.mem_cons_of_mem _ hother, hkind⟩
    rw [names, List.map_append]
    exact List.mem_append_left _ hkey

/-- Kinds are added that the values tell. -/
theorem exists_learnKinds (known : List (String × ValueKind)) (entries : List (String × Value)) :
    ∃ learned, (learnKinds known entries).1 = known ++ learned ∧ Tells known entries learned := by
  fun_induction learnKinds known entries with
  | case1 known => exact ⟨[], (List.append_nil known).symm, tells_nil known []⟩
  | case2 known key value rest hnone ih =>
    obtain ⟨learned, hlearned, htells⟩ := ih
    exact ⟨learned, hlearned, htells.mono (List.subset_cons_self ..)⟩
  | case3 known key value rest got hknown hgot ih =>
    obtain ⟨learned, hlearned, htells⟩ := ih
    exact ⟨learned, hlearned, htells.mono (List.subset_cons_self ..)⟩
  | case4 known => exact ⟨[], (List.append_nil known).symm, tells_nil known _⟩
  | case5 known key value rest got hknown hgot ih =>
    obtain ⟨learned, hlearned, htells⟩ := ih
    exact ⟨(key, got) :: learned, hlearned.trans (List.append_assoc ..), htells.cons hknown hgot⟩

/-- A clash is between the kind of a value and one that was known from the start. -/
theorem clashes_of_learnKinds_eq_some (hnodup : (names entries).Nodup) {clash : TypeClash}
    (h : (learnKinds known entries).2 = some clash) : Clashes known entries clash := by
  fun_induction learnKinds known entries with
  | case1 => cases h
  | case2 known key value rest hnone ih =>
    exact (ih (List.nodup_cons.mp hnodup).2 h).mono (List.subset_cons_self ..)
  | case3 known key value rest got hknown hgot ih =>
    exact (ih (List.nodup_cons.mp hnodup).2 h).mono (List.subset_cons_self ..)
  | case4 known key value rest got kind hknown hgot hne =>
    cases h
    exact .nodeProperty List.mem_cons_self hgot hknown hne
  | case5 known key value rest got hknown hgot ih =>
    obtain ⟨hnew, hrest⟩ := List.nodup_cons.mp hnodup
    cases ih hrest h with
    | @nodeProperty other held kind got' hmem hheld hkind hne =>
      -- the key of the clash stands behind the one that was learned, so it is another
      have hother : other ≠ key := by
        rintro rfl
        exact hnew (List.mem_map.mpr ⟨_, hmem, rfl⟩)
      rw [List.lookup_append, lookup_cons, if_neg hother, List.lookup_nil, Option.or_none] at hkind
      exact .nodeProperty (List.mem_cons_of_mem _ hmem) hheld hkind hne

/-- A kind is known of the first key afterwards, unless its value is null. -/
theorem mem_names_learnKinds_cons {key : String} {value : Value} (hvalue : value ≠ .null)
    (rest : List (String × Value)) :
    key ∈ names (learnKinds known ((key, value) :: rest)).1 := by
  cases hknown : known.lookup key with
  | some kind => exact mem_names_iff.mpr ⟨kind, lookup_learnKinds_of_known hknown⟩
  | none =>
    obtain ⟨got, hgot⟩ := Value.exists_kind? hvalue
    refine mem_names_iff.mpr ⟨got, ?_⟩
    simp only [learnKinds, hgot, hknown]
    refine lookup_learnKinds_of_known ?_
    rw [List.lookup_append, hknown, lookup_cons, if_pos rfl, Option.none_or]

end Learning

variable {b : GraphLoader} {n n' : Node}

theorem kinds_addNode (b : GraphLoader) (n : Node) :
    (b.addNode n).1.kinds = (learnKinds b.kinds n.properties.entries).1 := by
  rcases hkinds : learnKinds b.kinds n.properties.entries with ⟨kinds, clash⟩
  simp only [addNode, hkinds]
  cases clash <;> rfl

/-- A refused node leaves everything as it was but for kinds that it told. -/
theorem exists_addNode_eq (h : (b.addNode n).2 ≠ none) : ∃ learned clash,
    b.addNode n = ({ b with kinds := b.kinds ++ learned }, some (.typeClash clash)) ∧
      Clashes b.kinds n.properties.entries clash ∧ Tells b.kinds n.properties.entries learned := by
  have houtcome : LoadCall.Outcome b (.node n) (b.addNode n) := (LoadCall.node n).outcome b
  generalize b.addNode n = after at h houtcome
  cases houtcome with
  | added => exact absurd rfl h
  | @clashing _ kinds clash hkinds =>
    obtain ⟨learned, hlearned, htells⟩ := exists_learnKinds b.kinds n.properties.entries
    obtain rfl : kinds = b.kinds ++ learned := (congrArg Prod.fst hkinds).symm.trans hlearned
    exact ⟨learned, clash, rfl,
      clashes_of_learnKinds_eq_some n.properties.nodup (congrArg Prod.snd hkinds), htells⟩

/-- Whether a node is refused does not depend on the order of its properties. -/
theorem addNode_ne_none_of_shuffled (hn : n.Shuffled n') (h : (b.addNode n).2 ≠ none) :
    (b.addNode n').2 ≠ none := by
  intro hnone
  have hagree : KindsAgree b.kinds n'.properties.entries := step_node_eq_none_iff.mp hnone
  exact h (step_node_eq_none_iff.mpr fun {key value got kind} hvalue =>
    hagree ((hn.get?_eq key).trans hvalue))

/-! ## Telling loaders apart -/

/-- The same calls are refused by two loaders, for the same reasons, and the builds behind them have
the same outcome. -/
def Indistinguishable (b b' : GraphLoader) : Prop :=
  ∀ calls, b'.refusals calls = b.refusals calls ∧
    ∀ identity, (b'.run calls).build identity = (b.run calls).build identity

theorem Indistinguishable.refl (b : GraphLoader) : b.Indistinguishable b :=
  fun _ => ⟨rfl, fun _ => rfl⟩

/-- A value of another kind. -/
def otherValue : ValueKind → Value
  | .int => .float .zero
  | _ => .int 0

/-- A node with one property is refused if another kind is known of its key, and only then. -/
theorem addNode_single_eq_none_iff {key : String} {value : Value} {got : ValueKind}
    (hgot : value.kind? = some got) : (b.addNode ⟨0, [], .ofList [(key, value)]⟩).2 = none ↔
      ∀ kind, b.kinds.lookup key = some kind → kind = got := by
  refine step_node_eq_none_iff.trans ((kindsAgree_cons_iff List.not_mem_nil).trans ?_)
  rw [hgot]
  exact ⟨fun h kind hkind => h.1 rfl hkind, fun h => ⟨fun hsome hkind =>
    (h _ hkind).trans (Option.some.inj hsome), nofun⟩⟩

/-- A kind that became known is told by a node with a value of another kind. -/
theorem not_indistinguishable {kinds : List (String × ValueKind)} {key : String} {kind : ValueKind}
    (hnew : key ∉ names b.kinds) (hkind : kinds.lookup key = some kind) :
    ¬ b.Indistinguishable { b with kinds } := by
  intro hsame
  obtain ⟨got, hgot, hne⟩ : ∃ got, (otherValue kind).kind? = some got ∧ kind ≠ got := by
    cases kind <;> exact ⟨_, rfl, nofun⟩
  have hrefusal : (({ b with kinds } : GraphLoader).addNode
      ⟨0, [], .ofList [(key, otherValue kind)]⟩).2 =
        (b.addNode ⟨0, [], .ofList [(key, otherValue kind)]⟩).2 :=
    List.head_eq_of_cons_eq (hsame [.node ⟨0, [], .ofList [(key, otherValue kind)]⟩]).1
  rw [(addNode_single_eq_none_iff hgot).mpr fun known hknown =>
    absurd (mem_names_iff.mpr ⟨known, hknown⟩) hnew] at hrefusal
  exact hne ((addNode_single_eq_none_iff hgot).mp hrefusal kind hkind)

/-- Kinds that a node told are noticed. -/
theorem indistinguishable_learned_iff {learned : List (String × ValueKind)}
    {entries : List (String × Value)} (h : Tells b.kinds entries learned) :
    b.Indistinguishable { b with kinds := b.kinds ++ learned } ↔ learned = [] := by
  constructor
  · intro hsame
    cases learned with
    | nil => rfl
    | cons entry rest =>
      obtain ⟨key, kind⟩ := entry
      have hnew := (h List.mem_cons_self).1
      have hkind : (b.kinds ++ (key, kind) :: rest).lookup key = some kind := by
        rw [List.lookup_append, lookup_eq_none_iff.mpr hnew, lookup_cons, if_pos rfl,
          Option.none_or]
      exact absurd hsame (not_indistinguishable hnew hkind)
  · rintro rfl
    rw [List.append_nil]
    exact .refl b

/-- A refused node is refused in every order of its properties, for a value that has another kind
than was known of its key.  It leaves everything as it was but for kinds that it told, and a loader
that was told a kind can be told from one that was not.  No order leaves a trace if and only if all
keys under which the node has a value were known. -/
theorem addNode_refused {e : GraphError} (h : (b.addNode n).2 = some e) :
    (∀ {n'}, n.Shuffled n' → ∃ learned clash,
      b.addNode n' = ({ b with kinds := b.kinds ++ learned }, some (.typeClash clash)) ∧
        Clashes b.kinds n.properties.entries clash ∧
        Tells b.kinds n.properties.entries learned ∧
        (b.Indistinguishable (b.addNode n').1 ↔ learned = [])) ∧
    ((∀ {n'}, n.Shuffled n' → b.Indistinguishable (b.addNode n').1) ↔
      ∀ {key value}, (key, value) ∈ n.properties.entries → value ≠ .null →
        key ∈ names b.kinds) := by
  have hrefused : ∀ {n'}, n.Shuffled n' → ∃ learned clash,
      b.addNode n' = ({ b with kinds := b.kinds ++ learned }, some (.typeClash clash)) ∧
        Clashes b.kinds n.properties.entries clash ∧ Tells b.kinds n.properties.entries learned ∧
        (b.Indistinguishable (b.addNode n').1 ↔ learned = []) := by
    intro n' hn
    obtain ⟨learned, clash, heq, hclash, htells⟩ :=
      exists_addNode_eq (addNode_ne_none_of_shuffled hn (h ▸ Option.some_ne_none e))
    refine ⟨learned, clash, heq, hclash.mono hn.entries.symm.subset,
      htells.mono hn.entries.symm.subset, ?_⟩
    rw [heq]
    exact indistinguishable_learned_iff htells
  refine ⟨hrefused, fun htrace {key value} hmem hvalue => ?_, fun hknown n' hn => ?_⟩
  · -- in the order in which this property is the first, its kind would stay known
    obtain ⟨n', rest, hn, hentries⟩ := Node.exists_shuffled hmem
    obtain ⟨learned, clash, heq, -, -, htrace_iff⟩ := hrefused hn
    have hkinds := kinds_addNode b n'
    rw [heq, htrace_iff.mp (htrace hn), List.append_nil, hentries] at hkinds
    exact hkinds ▸ mem_names_learnKinds_cons hvalue rest
  · obtain ⟨learned, clash, -, -, htells, htrace_iff⟩ := hrefused hn
    refine htrace_iff.mpr (List.eq_nil_iff_forall_not_mem.mpr fun ⟨key, kind⟩ hmem => ?_)
    obtain ⟨hnew, value, hvalue, hkind⟩ := htells hmem
    refine hnew (hknown hvalue ?_)
    rintro rfl
    cases hkind

/-- A loader that knows of two keys that their values are integers. -/
def integersKnown : GraphLoader :=
  run { workers := 1 } [.node ⟨1, [], .ofList [("a", .int 1), ("b", .int 1)]⟩]

/-- A node with a number under one of these keys and no other key leaves no trace. -/
theorem addNode_refused_known :
    integersKnown.Indistinguishable
      (integersKnown.addNode ⟨2, [], .ofList [("b", .int 2), ("a", .float .one)]⟩).1 ∧
    integersKnown.Indistinguishable
      (integersKnown.addNode ⟨2, [], .ofList [("a", .float .one), ("b", .int 2)]⟩).1 := by
  have hrefused : (integersKnown.addNode
      ⟨2, [], .ofList [("b", .int 2), ("a", .float .one)]⟩).2 =
        some (.typeClash (.nodeProperty "a" .int .float)) := by
    decide
  have hknown : ∀ entry ∈ (Properties.ofList [("b", .int 2), ("a", .float .one)]).entries,
      entry.1 ∈ names integersKnown.kinds := by
    decide
  have htrace : ∀ {n}, (Node.mk 2 [] (.ofList [("b", .int 2), ("a", .float .one)])).Shuffled n →
      integersKnown.Indistinguishable (integersKnown.addNode n).1 :=
    (addNode_refused hrefused).2.mpr fun hmem _ => hknown _ hmem
  exact ⟨htrace (.refl _), htrace ⟨rfl, rfl, .swap ..⟩⟩

/-- A node with a new key in front of one of these keys does. -/
theorem addNode_leaves_kind :
    (integersKnown.addNode ⟨2, [], .ofList [("n", .int 2), ("a", .float .one)]⟩).2 =
      some (.typeClash (.nodeProperty "a" .int .float)) ∧
    (integersKnown.addNode ⟨3, [], .ofList [("n", .float .one)]⟩).2 = none ∧
    ((integersKnown.addNode ⟨2, [], .ofList [("n", .int 2), ("a", .float .one)]⟩).1.addNode
      ⟨3, [], .ofList [("n", .float .one)]⟩).2 =
        some (.typeClash (.nodeProperty "n" .int .float)) ∧
    ¬ integersKnown.Indistinguishable
      (integersKnown.addNode ⟨2, [], .ofList [("n", .int 2), ("a", .float .one)]⟩).1 := by
  have hbefore : (integersKnown.addNode ⟨3, [], .ofList [("n", .float .one)]⟩).2 = none := by
    decide
  have hafter : ((integersKnown.addNode
      ⟨2, [], .ofList [("n", .int 2), ("a", .float .one)]⟩).1.addNode
        ⟨3, [], .ofList [("n", .float .one)]⟩).2 =
          some (.typeClash (.nodeProperty "n" .int .float)) := by
    decide
  refine ⟨by decide, hbefore, hafter, fun hsame => ?_⟩
  have hrefusals := (hsame [.node ⟨3, [], .ofList [("n", .float .one)]⟩]).1
  have hfirst : (LoadCall.step _ _).2 = (LoadCall.step _ _).2 := List.head_eq_of_cons_eq hrefusals
  cases (hafter.symm.trans hfirst).trans hbefore

end GraphLoader

end PagedGraph
