import PagedGraph.Proofs.Load.Accepted
import PagedGraph.Proofs.Load.Faults

/-!
# Nodes without their nulls

A node property that is null gives no kind and fills no slot.  So a loader refuses the same calls
for the same reasons when the nulls are left out of all nodes, and learns the same kinds
(`GraphLoader.refusals_map_dropNulls`, `GraphLoader.run_map_dropNulls`).

A null is still looked up when the columns are filled.  Where its key has a column it changes
nothing, so the graph is the same (`GraphLoader.build_dropNulls`).  A key that is only ever null
has none, and then a build fails which would not fail there without the null
(`GraphLoader.Consistent.buildColumns_nullOnly`).  `GraphLoader.build_dropNulls_iff` has both.
-/

namespace PagedGraph

/-! ## Leaving nulls out -/

theorem Value.isNull_iff {value : Value} : value.isNull = true ↔ value = .null := by
  cases value <;> simp [isNull, kind?]

/-- What has no kind is null. -/
theorem Value.eq_null_of_kind? {value : Value} (h : ∀ kind, value.kind? ≠ some kind) :
    value = .null := by
  by_contra hnull
  obtain ⟨kind, hkind⟩ := exists_kind? hnull
  exact h kind hkind

/-- The entries that are not null, in their order. -/
def withoutNulls (entries : List (String × Value)) : List (String × Value) :=
  entries.filter fun entry => !entry.2.isNull

theorem withoutNulls_cons {value : Value} (h : value ≠ .null) (key : String)
    (rest : List (String × Value)) :
    withoutNulls ((key, value) :: rest) = (key, value) :: withoutNulls rest := by
  refine List.filter_cons_of_pos ?_
  simpa using mt Value.isNull_iff.mp h

/-- Properties without those that are null. -/
def Properties.dropNulls (m : Properties) : Properties :=
  ⟨withoutNulls m.entries, (List.filter_sublist.map _).nodup m.nodup⟩

theorem Properties.get?_dropNulls {m : Properties} {key : String} {value : Value} :
    m.dropNulls.get? key = some value ↔ m.get? key = some value ∧ value ≠ .null := by
  rw [get?, lookup_eq_some_iff m.dropNulls.nodup, get?, lookup_eq_some_iff m.nodup]
  show (key, value) ∈ m.entries.filter (fun entry => !entry.2.isNull) ↔ _
  rw [List.mem_filter, Bool.not_eq_true', ← Bool.not_eq_true, Value.isNull_iff]

/-- A node without its null properties. -/
def Node.dropNulls (n : Node) : Node := { n with properties := n.properties.dropNulls }

/-- A call that adds a node adds it without its nulls. -/
def LoadCall.dropNulls : LoadCall → LoadCall
  | project type projection => project type projection
  | node n => node n.dropNulls
  | relationship r => relationship r

namespace GraphLoader

/-- A loader whose nodes have no null properties. -/
def dropNulls (b : GraphLoader) : GraphLoader := { b with nodes := b.nodes.map Node.dropNulls }

/-! ## The same refusals -/

/-- A null neither clashes nor tells a kind. -/
theorem learnKinds_withoutNulls (known : List (String × ValueKind))
    (entries : List (String × Value)) :
    learnKinds known (withoutNulls entries) = learnKinds known entries := by
  fun_induction learnKinds known entries with
  | case1 => rfl
  | case2 known key value rest hnone ih =>
    obtain rfl : value = .null := Value.eq_null_of_kind? (by simp [hnone])
    exact ih
  | case3 known key value rest got hknown hgot ih =>
    rw [withoutNulls_cons (by rintro rfl; cases hgot), learnKinds, hgot, hknown]
    simpa using ih
  | case4 known key value rest got kind hknown hgot hne =>
    rw [withoutNulls_cons (by rintro rfl; cases hgot), learnKinds, hgot, hknown]
    simp [hne]
  | case5 known key value rest got hknown hgot ih =>
    rw [withoutNulls_cons (by rintro rfl; cases hgot), learnKinds, hgot, hknown]
    exact ih

/-- A call does the same without nulls, and leaves the same but for the nulls. -/
theorem step_dropNulls (b : GraphLoader) (call : LoadCall) :
    call.dropNulls.step b.dropNulls = ((call.step b).1.dropNulls, (call.step b).2) := by
  cases call with
  | project type p =>
    simp only [LoadCall.dropNulls, LoadCall.step, project]
    cases p.validate <;> rfl
  | node n =>
    simp only [LoadCall.dropNulls, LoadCall.step, addNode, Node.dropNulls, Properties.dropNulls,
      dropNulls, learnKinds_withoutNulls]
    rcases learnKinds b.kinds n.properties.entries with ⟨kinds, clash⟩
    cases clash with
    | none => simp [Node.dropNulls, Properties.dropNulls]
    | some clash => rfl
  | relationship r => rfl

/-- Without nulls the same calls are refused, for the same reasons. -/
theorem refusals_map_dropNulls (b : GraphLoader) (calls : List LoadCall) :
    b.dropNulls.refusals (calls.map LoadCall.dropNulls) = b.refusals calls := by
  induction calls generalizing b with
  | nil => rfl
  | cons call calls ih =>
    rw [List.map_cons, refusals, refusals, step_dropNulls, ih]

/-- Without nulls calls leave the same but for the nulls. -/
theorem run_map_dropNulls (b : GraphLoader) (calls : List LoadCall) :
    b.dropNulls.run (calls.map LoadCall.dropNulls) = (b.run calls).dropNulls := by
  induction calls generalizing b with
  | nil => rfl
  | cons call calls ih =>
    show run (call.dropNulls.step b.dropNulls).1 (calls.map LoadCall.dropNulls) = _
    rw [step_dropNulls]
    exact ih _

end GraphLoader

/-! ## The same columns -/

/-- Steps that see the same of their results are followed by steps that see the same. -/
theorem map_bind_congr {α β γ δ ε : Type} {f : α → γ} {g : β → δ} {x y : Except ε α}
    {next next' : α → Except ε β} (h : x.map f = y.map f)
    (hnext : ∀ a a', x = .ok a → y = .ok a' → f a = f a' → (next a).map g = (next' a').map g) :
    (x >>= next).map g = (y >>= next').map g := by
  cases x with
  | error e =>
    cases y with
    | error e' => exact congrArg Except.error (Except.error.inj h)
    | ok a' => cases h
  | ok a =>
    cases y with
    | error e' => cases h
    | ok a' => exact hnext a a' rfl rfl (Except.ok.inj h)

/-- A thing that is put in its own place changes nothing. -/
theorem upsert_self {α : Type} {name : String} {thing : α} {things : List (String × α)}
    (h : things.lookup name = some thing) : upsert name (fun _ => thing) things = things := by
  induction things with
  | nil => cases h
  | cons entry rest ih =>
    obtain ⟨n, other⟩ := entry
    rw [lookup_cons] at h
    rw [upsert]
    by_cases hname : n = name
    · rw [if_pos hname.symm] at h
      cases h
      rw [if_pos hname]
    · rw [if_neg (Ne.symm hname)] at h
      rw [if_neg hname, ih h]

namespace Columns

/-- Null is put into a column without a change. -/
theorem set_null {s : Columns} {key : String} (h : key ∈ PagedGraph.names s.columns) (node : Nat) :
    s.set node key .null = .ok s := by
  obtain ⟨c, hc⟩ := mem_names_iff.mp h
  have hset : c.set node .null = .ok c := by cases c <;> rfl
  rw [set, get?, hc]
  show (c.set node .null >>= _) = _
  rw [hset]
  show Except.ok { s with columns := upsert key (fun _ => c) s.columns } = _
  rw [upsert_self hc]

/-- What is put into columns does not depend on the keys noted for labels. -/
theorem map_columns_set {s s' : Columns} (h : s'.columns = s.columns) (node : Nat) (key : String)
    (value : Value) : (s'.set node key value).map columns = (s.set node key value).map columns := by
  rw [set, set, get?, get?, h]
  cases s.columns.lookup key with
  | none => rfl
  | some c =>
    show Except.map columns (c.set node value >>= _) = Except.map columns (c.set node value >>= _)
    cases c.set node value <;> rfl

/-- Nulls under keys that have a column are put there in vain. -/
theorem map_columns_setAll {node : Nat} {entries : List (String × Value)} :
    ∀ {s s' : Columns}, s'.columns = s.columns →
      (∀ key, (key, .null) ∈ entries → key ∈ PagedGraph.names s.columns) →
      (s'.setAll node (withoutNulls entries)).map columns =
        (s.setAll node entries).map columns := by
  induction entries with
  | nil => exact fun h _ => congrArg Except.ok h
  | cons entry rest ih =>
    intro s s' h hknown
    obtain ⟨key, value⟩ := entry
    rw [setAll, setAll, List.foldlM_cons]
    by_cases hnull : value = .null
    · subst hnull
      simp only [set_null (hknown key List.mem_cons_self)]
      exact ih h fun key hkey => hknown key (List.mem_cons_of_mem _ hkey)
    · rw [withoutNulls_cons hnull, List.foldlM_cons]
      refine map_bind_congr (map_columns_set h node key value) fun t' t _ ht hsame => ?_
      refine ih hsame fun key hkey => ?_
      rw [(names_of_set_eq_ok ht).2]
      exact hknown key (List.mem_cons_of_mem _ hkey)

end Columns

namespace GraphLoader

variable {b : GraphLoader} {m : Numbering} {identity : Nat}

/-- Filling keeps the keys of the columns. -/
theorem names_of_fillColumns_eq_ok {s t : Columns} {node : Node}
    (h : fillColumns m s node = .ok t) : names t.columns = names s.columns := by
  rw [fillColumns] at h
  split at h
  · exact (Columns.names_of_setAll_eq_ok h).2
  · cases h
    rfl

theorem map_columns_fillColumns {s s' : Columns} {node : Node} (h : s'.columns = s.columns)
    (hknown : ∀ key, node.properties.get? key = some .null → key ∈ names s.columns) :
    (fillColumns m s' node.dropNulls).map Columns.columns =
      (fillColumns m s node).map Columns.columns := by
  have hid : node.dropNulls.id = node.id := rfl
  cases hi : m.internalOf? node.id with
  | none =>
    simp only [fillColumns, hid, hi]
    exact congrArg Except.ok h
  | some i =>
    simp only [fillColumns, hid, hi]
    refine Columns.map_columns_setAll h fun key hkey => hknown key ?_
    exact (lookup_eq_some_iff node.properties.nodup).mpr hkey

/-- Without nulls under keys that have no column, the same is put into the columns. -/
theorem map_columns_foldlM {nodes : List Node} : ∀ {s s' : Columns}, s'.columns = s.columns →
    (∀ node ∈ nodes, ∀ key, node.properties.get? key = some .null → key ∈ names s.columns) →
    ((nodes.map Node.dropNulls).foldlM (fillColumns m) s').map Columns.columns =
      (nodes.foldlM (fillColumns m) s).map Columns.columns := by
  induction nodes with
  | nil => exact fun h _ => congrArg Except.ok h
  | cons node rest ih =>
    intro s s' h hknown
    obtain ⟨hnode, hrest⟩ := List.forall_mem_cons.mp hknown
    rw [List.map_cons, List.foldlM_cons, List.foldlM_cons]
    refine map_bind_congr (map_columns_fillColumns h hnode) fun t' t _ ht hsame => ih hsame ?_
    rwa [names_of_fillColumns_eq_ok ht]

/-! ## The same graph -/

/-- Some node has a key with null, and no kind is known of it. -/
def NullOnly (b : GraphLoader) (key : String) : Prop :=
  (∃ node ∈ b.nodes, node.properties.get? key = some .null) ∧ key ∉ names b.kinds

end GraphLoader

/-- A graph without the keys noted for labels. -/
def PropertyGraph.dropNotes (g : PropertyGraph) : PropertyGraph :=
  { g with columns := { g.columns with keysByLabel := [] } }

/-- Two builds give the same error, or they give graphs that are the same but for the keys noted for
labels. -/
def SameOutcome (x y : Except GraphError PropertyGraph) : Prop :=
  x.map PropertyGraph.dropNotes = y.map PropertyGraph.dropNotes

namespace GraphLoader

variable {b : GraphLoader} {m : Numbering} {identity : Nat}

theorem entries_dropNulls (b : GraphLoader) : b.dropNulls.entries = b.entries := by
  simp [entries, dropNulls, Node.dropNulls, Function.comp_def]

theorem map_columns_buildColumns (h : ∀ key, ¬ b.NullOnly key) :
    (b.dropNulls.buildColumns m).map Columns.columns = (b.buildColumns m).map Columns.columns := by
  rw [buildColumns, buildColumns, dropNulls, Array.toList_map]
  refine map_columns_foldlM rfl fun node hnode key hnull => ?_
  rw [(Columns.hold_blank m.nodeCount b.kinds).names]
  exact not_not.mp fun hkey => h key ⟨⟨node, Array.mem_toList_iff.mp hnode, hnull⟩, hkey⟩

/-- Where kinds are known of all keys, nulls do not matter to a build, nor do they where the nodes
cannot be numbered. -/
theorem build_dropNulls (h : b.ids.Nodup → ∀ key, ¬ b.NullOnly key) (identity : Nat) :
    SameOutcome (b.build identity) (b.dropNulls.build identity) := by
  have hentries := b.entries_dropNulls
  cases hm : Numbering.build identity b.entries with
  | error e =>
    show (Numbering.build identity b.entries >>= _).map _ =
      (Numbering.build identity b.dropNulls.entries >>= _).map _
    rw [hentries, hm]
    rfl
  | ok m =>
    have hkeys := h (b.map_fst_entries ▸ Numbering.nodup_of_build_eq_ok hm)
    rw [SameOutcome, build_eq hm, build_eq (hentries ▸ hm)]
    refine map_bind_congr (map_columns_buildColumns hkeys).symm fun columns columns' _ _ hsame => ?_
    show Except.map _ (Except.map _ (b.buildTypes m)) = Except.map _ (Except.map _ (b.buildTypes m))
    cases b.buildTypes m with
    | error e => rfl
    | ok types => simp [Except.map, PropertyGraph.dropNotes, hsame]

/-! ## Keys that are only null -/

end GraphLoader

/-- Putting values of the known kinds into columns fails only at a null whose key has no column. -/
theorem Columns.Hold.setAll_or_missing {n node : Nat} (hnode : node < n)
    {kinds : List (String × ValueKind)} {entries : List (String × Value)}
    (hkinds : ∀ {key value got}, (key, value) ∈ entries → value.kind? = some got →
      kinds.lookup key = some got) :
    ∀ {s : Columns} {values : Nat → String → Value}, s.Hold n kinds values →
      (∃ t values', s.setAll node entries = .ok t ∧ t.Hold n kinds values') ∨
        ∃ key, (key, .null) ∈ entries ∧ key ∉ PagedGraph.names kinds ∧
          s.setAll node entries = .error (.missing (.nodeProperty key)) := by
  induction entries with
  | nil => exact fun h => Or.inl ⟨_, _, rfl, h⟩
  | cons entry rest ih =>
    intro s values h
    obtain ⟨key, value⟩ := entry
    rw [Columns.setAll, List.foldlM_cons]
    by_cases hkey : key ∈ PagedGraph.names kinds
    · obtain ⟨kind, hkind⟩ := mem_names_iff.mp hkey
      have hgot : ∀ {got}, value.kind? = some got → got = kind := fun hgot =>
        Option.some.inj ((hkinds List.mem_cons_self hgot).symm.trans hkind)
      obtain ⟨t, ht, -, hheld⟩ := h.set hnode hkind hgot
      simp only [ht]
      rcases ih (fun hmem => hkinds (List.mem_cons_of_mem _ hmem)) hheld with hok | hmissing
      · exact Or.inl hok
      · obtain ⟨other, hother, herror⟩ := hmissing
        exact Or.inr ⟨other, List.mem_cons_of_mem _ hother, herror⟩
    · have hnull : value = .null := Value.eq_null_of_kind? fun got hgot =>
        hkey (mem_names_iff.mpr ⟨got, hkinds List.mem_cons_self hgot⟩)
      have hnone : s.get? key = none := lookup_eq_none_iff.mpr (h.names ▸ hkey)
      refine Or.inr ⟨key, hnull ▸ List.mem_cons_self, hkey, ?_⟩
      simp only [Columns.set, hnone]
      rfl

namespace GraphLoader

variable {b : GraphLoader} {m : Numbering} {identity : Nat} {key : String}

/-- Filling columns fails only at a null whose key has no column. -/
theorem foldlM_fillColumns_or_missing {kinds : List (String × ValueKind)} {nodes : List Node}
    (hnodes : ∀ node ∈ nodes, ∃ i, m.internalOf? node.id = some i)
    (hkinds : ∀ node ∈ nodes, ∀ {key value got}, node.properties.get? key = some value →
      value.kind? = some got → kinds.lookup key = some got) :
    ∀ {s : Columns} {values : Nat → String → Value}, s.Hold m.nodeCount kinds values →
      (∃ t, nodes.foldlM (fillColumns m) s = .ok t) ∨
        ∃ key, (∃ node ∈ nodes, node.properties.get? key = some .null) ∧ key ∉ names kinds ∧
          nodes.foldlM (fillColumns m) s = .error (.missing (.nodeProperty key)) := by
  induction nodes with
  | nil => exact fun _ => Or.inl ⟨_, rfl⟩
  | cons node rest ih =>
    intro s values h
    obtain ⟨⟨i, hi⟩, hrest⟩ := List.forall_mem_cons.mp hnodes
    obtain ⟨hnode, hkinds'⟩ := List.forall_mem_cons.mp hkinds
    have hlt : i < m.nodeCount :=
      (Array.getElem?_eq_some_iff.mp ((m.internalOf?_eq_some_iff).mp hi)).1
    have hget : ∀ {key value}, (key, value) ∈ node.properties.entries →
        node.properties.get? key = some value := (lookup_eq_some_iff node.properties.nodup).mpr
    have hnoted : (s.noteKeys node.labels node.properties.keys).Hold m.nodeCount kinds values :=
      ⟨h.names, h.column⟩
    simp only [List.foldlM_cons, fillColumns, hi]
    rcases hnoted.setAll_or_missing hlt fun hmem hgot => hnode (hget hmem) hgot with
      ⟨t, values', ht, hheld⟩ | ⟨key, hnull, hkey, herror⟩
    · rw [ht]
      rcases ih hrest hkinds' hheld with hok | ⟨key, ⟨other, hother, hnull⟩, herror⟩
      · exact Or.inl hok
      · exact Or.inr ⟨key, ⟨other, List.mem_cons_of_mem _ hother, hnull⟩, herror⟩
    · rw [herror]
      exact Or.inr ⟨key, ⟨node, List.mem_cons_self, hget hnull⟩, hkey, rfl⟩

/-- So do the columns of a consistent loader. -/
theorem Consistent.buildColumns_or_missing (h : b.Consistent)
    (hm : Numbering.build identity b.entries = .ok m) :
    (∃ columns, b.buildColumns m = .ok columns) ∨
      ∃ key, (∃ node ∈ b.nodes.toList, node.properties.get? key = some .null) ∧
        key ∉ names b.kinds ∧ b.buildColumns m = .error (.missing (.nodeProperty key)) :=
  foldlM_fillColumns_or_missing
    (fun _ hnode => (mem_ids_iff hm).mp (List.mem_map_of_mem hnode))
    (fun _ hnode _ _ _ => h.kinds (Array.mem_toList_iff.mp hnode))
    (Columns.hold_blank m.nodeCount b.kinds)

/-- Where a key is only ever null, the columns cannot be filled. -/
theorem Consistent.buildColumns_nullOnly (h : b.Consistent) (hnull : b.NullOnly key)
    (hm : Numbering.build identity b.entries = .ok m) : ∃ other, b.NullOnly other ∧
      b.buildColumns m = .error (.missing (.nodeProperty other)) := by
  rcases h.buildColumns_or_missing hm with ⟨columns, hcolumns⟩ | ⟨other, hother, hmissing⟩
  · obtain ⟨⟨node, hnode, hvalue⟩, hunknown⟩ := hnull
    have hkey : key ∈ node.properties.keys := PagedGraph.mem_names_iff.mpr ⟨_, hvalue⟩
    exact absurd (mem_names_kinds_of_buildColumns
      (fun _ hnode => (mem_ids_iff hm).mp (List.mem_map_of_mem hnode)) hcolumns
      (Array.mem_toList_iff.mpr hnode) hkey) hunknown
  · obtain ⟨node, hnode, hvalue⟩ := hother
    exact ⟨other, ⟨⟨node, Array.mem_toList_iff.mp hnode, hvalue⟩, hmissing.1⟩, hmissing.2⟩

/-- So a build fails there. -/
theorem Consistent.build_nullOnly (h : b.Consistent) (hnodup : b.ids.Nodup)
    (hnull : b.NullOnly key) (identity : Nat) : ∃ other, b.NullOnly other ∧
      b.build identity = .error (.missing (.nodeProperty other)) := by
  rw [← map_fst_entries] at hnodup
  obtain ⟨m, hm⟩ := Numbering.exists_build_eq_ok hnodup identity
  obtain ⟨other, hother, hcolumns⟩ := h.buildColumns_nullOnly hnull hm
  refine ⟨other, hother, ?_⟩
  rw [build_eq hm, hcolumns]
  rfl

/-- What is left without nulls is consistent. -/
theorem Consistent.dropNulls (h : b.Consistent) : b.dropNulls.Consistent where
  workers_pos := h.workers_pos
  valid := h.valid
  kinds hnode _ _ _ hvalue hkind := by
    obtain ⟨full, hfull, rfl⟩ := Array.mem_map.mp hnode
    exact h.kinds hfull (Properties.get?_dropNulls.mp hvalue).1 hkind

/-- Without nulls every key of a node has a value on that node. -/
theorem keysValued_dropNulls (b : GraphLoader) : b.dropNulls.KeysValued := by
  intro node hnode key hkey
  obtain ⟨value, hvalue⟩ := mem_names_iff.mp hkey
  obtain ⟨full, -, rfl⟩ := Array.mem_map.mp hnode
  exact ⟨_, hnode, value, hvalue, (Properties.get?_dropNulls.mp hvalue).2⟩

/-- Without nulls a build misses no column. -/
theorem Consistent.build_dropNulls_ne_missing (h : b.Consistent) (identity : Nat)
    (what : Missing) : b.dropNulls.build identity ≠ .error (.missing what) := by
  intro he
  by_cases hnodup : b.dropNulls.ids.Nodup
  · rw [← map_fst_entries] at hnodup
    obtain ⟨m, hm⟩ := Numbering.exists_build_eq_ok hnodup identity
    rcases h.dropNulls.exists_fault b.keysValued_dropNulls hm he with
      ⟨type, r, -, hfault⟩ | hcrowded
    · cases hfault
    · obtain ⟨degree, hdegree⟩ := hcrowded.exists_degree
      cases hdegree
  · obtain ⟨id, hid, -⟩ := build_repeated hnodup identity
    cases hid.symm.trans he

/-- Nulls matter to a build only where a key is only ever null. -/
theorem Consistent.sameOutcome_iff (h : b.Consistent) (identity : Nat) :
    SameOutcome (b.build identity) (b.dropNulls.build identity) ↔
      (b.ids.Nodup → ∀ key, ¬ b.NullOnly key) := by
  refine ⟨fun hsame hnodup key hnull => ?_, fun hkeys => build_dropNulls hkeys identity⟩
  obtain ⟨other, -, herror⟩ := h.build_nullOnly hnodup hnull identity
  rw [SameOutcome, herror] at hsame
  cases hdropped : b.dropNulls.build identity with
  | ok g =>
    rw [hdropped] at hsame
    cases hsame
  | error e =>
    rw [hdropped] at hsame
    cases hsame
    exact h.build_dropNulls_ne_missing identity _ hdropped

/-- After calls none of which was refused, a key is only null if it is null on a node and has no
value on any. -/
theorem Loads.nullOnly_iff {calls : List LoadCall} (h : b.Loads calls) : b.NullOnly key ↔
    (∃ node ∈ nodesOf calls, node.properties.get? key = some .null) ∧
      ∀ node ∈ nodesOf calls, ∀ value, node.properties.get? key = some value → value = .null := by
  have hunknown : key ∉ names b.kinds ↔ ∀ node ∈ nodesOf calls, ∀ value,
      node.properties.get? key = some value → value = .null := by
    rw [PagedGraph.mem_names_iff, not_exists]
    constructor
    · intro hnone node hnode value hvalue
      exact Value.eq_null_of_kind? fun kind hkind =>
        hnone kind (h.kinds.mpr ⟨node, hnode, value, hvalue, hkind⟩)
    · intro hnull kind hkind
      obtain ⟨node, hnode, value, hvalue, hgot⟩ := h.kinds.mp hkind
      cases hnull node hnode value hvalue
      cases hgot
  rw [NullOnly, hunknown, ← h.nodes]
  simp only [Array.mem_toList_iff]

/-! ## Loading without nulls -/

theorem Reordered.dropNulls {b' : GraphLoader} (h : b.Reordered b') :
    b.dropNulls.Reordered b'.dropNulls where
  workers := h.workers
  nodes := congrArg (Array.map Node.dropNulls) h.nodes
  kinds := h.kinds
  projections := h.projections
  relationships := h.relationships

/-- Without the nulls of their nodes the same calls are refused for the same reasons, and they leave
what they left but for the nulls.  A build of that has the same outcome, unless some key is only
ever null and the nodes can be numbered.  Then the build that keeps the nulls names such a key, for
which it has no column.  Where all calls are accepted, a key is only null if it is null on a node
and has no value on any. -/
theorem build_dropNulls_iff {c : LoadSettings} {new : GraphLoader} (hnew : create c = .ok new)
    (calls : List LoadCall) :
    new.refusals (calls.map LoadCall.dropNulls) = new.refusals calls ∧
    ∀ {b : GraphLoader}, (new.run calls).Reordered b →
      (new.run (calls.map LoadCall.dropNulls)).Reordered b.dropNulls ∧
      (∀ identity, SameOutcome (b.build identity) (b.dropNulls.build identity) ↔
        (b.ids.Nodup → ∀ key, ¬ b.NullOnly key)) ∧
      (∀ identity, b.ids.Nodup → ∀ {key}, b.NullOnly key → ∃ other, b.NullOnly other ∧
        b.build identity = .error (.missing (.nodeProperty other))) ∧
      (new.Accepts calls → ∀ key, b.NullOnly key ↔
        (∃ node ∈ nodesOf calls, node.properties.get? key = some .null) ∧
          ∀ node ∈ nodesOf calls, ∀ value,
            node.properties.get? key = some value → value = .null) := by
  have hblank : new.dropNulls = new := by
    rw [create] at hnew
    obtain ⟨_, -, hnew⟩ := bind_eq_ok hnew
    cases hnew
    simp [dropNulls]
  have hrun := new.run_map_dropNulls calls
  have hrefusals := new.refusals_map_dropNulls calls
  rw [hblank] at hrun hrefusals
  refine ⟨hrefusals, fun {b} hb => ?_⟩
  have hconsistent : b.Consistent := hb.consistent ((consistent_of_create hnew).run calls)
  refine ⟨hrun ▸ hb.dropNulls, hconsistent.sameOutcome_iff,
    fun identity hnodup {key} hnull => hconsistent.build_nullOnly hnodup hnull identity,
    fun haccepts key => ?_⟩
  have hnullOnly : b.NullOnly key ↔ (new.run calls).NullOnly key := by
    rw [NullOnly, NullOnly, hb.nodes, hb.kinds]
  exact hnullOnly.trans (loads_run hnew haccepts).nullOnly_iff

/-- A node with a null. -/
def nullCalls : List LoadCall := [.node ⟨4, ["A"], .ofList [("n", .null)]⟩]

/-- A node with a null, and one that has a value under the key. -/
def valuedCalls : List LoadCall := nullCalls ++ [.node ⟨5, [], .ofList [("n", .int 1)]⟩]

/-- A null under a key of which another node has a value does not matter. -/
theorem build_dropNulls_valued : ∃ b,
    (run { workers := 1 } (valuedCalls.map LoadCall.dropNulls)).Reordered b ∧
      SameOutcome ((run { workers := 1 } valuedCalls).build 0) (b.build 0) := by
  have hnew : create ⟨1⟩ = .ok { workers := 1 } := rfl
  obtain ⟨-, hbuild⟩ := build_dropNulls_iff hnew valuedCalls
  obtain ⟨hdropped, hsame, -⟩ := hbuild (.refl _)
  refine ⟨_, hdropped, (hsame 0).mpr ?_⟩
  rintro - key ⟨⟨node, hnode, hnull⟩, hunknown⟩
  have hknown : ∀ node ∈ (run { workers := 1 } valuedCalls).nodes.toList,
      ∀ key ∈ node.properties.keys, key ∈ names (run { workers := 1 } valuedCalls).kinds := by
    decide
  exact hunknown (hknown node (Array.mem_toList_iff.mpr hnode) key
    (PagedGraph.mem_names_iff.mpr ⟨_, hnull⟩))

/-- A key that is null on the only node makes a build fail that succeeds without it. -/
theorem build_nullCalls :
    (run { workers := 1 } nullCalls).build 0 = .error (.missing (.nodeProperty "n")) ∧
    (∃ g, (run { workers := 1 } (nullCalls.map LoadCall.dropNulls)).build 0 = .ok g) ∧
    ¬ SameOutcome ((run { workers := 1 } nullCalls).build 0)
      ((run { workers := 1 } (nullCalls.map LoadCall.dropNulls)).build 0) := by
  have hconsistent : ∀ calls, (run { workers := 1 } calls).Consistent := fun calls =>
    Reached.consistent ⟨⟨1⟩, _, calls, rfl, rfl⟩
  have hnull : (run { workers := 1 } nullCalls).NullOnly "n" :=
    ⟨⟨⟨4, ["A"], .ofList [("n", .null)]⟩, Array.mem_toList_iff.mp (by decide), rfl⟩, by decide⟩
  obtain ⟨other, ⟨⟨node, hnode, hother⟩, -⟩, herror⟩ :=
    (hconsistent nullCalls).build_nullOnly (by decide) hnull 0
  have hkeys : ∀ node ∈ (run { workers := 1 } nullCalls).nodes.toList,
      ∀ key ∈ node.properties.keys, key = "n" := by
    decide
  obtain rfl := hkeys node (Array.mem_toList_iff.mpr hnode) other
    (PagedGraph.mem_names_iff.mpr ⟨_, hother⟩)
  obtain ⟨g, hg⟩ := (hconsistent (nullCalls.map LoadCall.dropNulls)).exists_build_of_bare
    (by decide) (by decide) (by decide) (by decide) 0
  refine ⟨herror, ⟨g, hg⟩, fun hsame => ?_⟩
  rw [SameOutcome, herror, hg] at hsame
  cases hsame

end GraphLoader

end PagedGraph
