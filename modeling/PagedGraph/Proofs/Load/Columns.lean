import Mathlib.Data.List.Induction
import PagedGraph.Load.Graph
import PagedGraph.Proofs.Load.Steps

/-!
# Filling the columns

Columns have the kinds that became known while the nodes were added.  Filling them gives every
node its values, one node after another and one key after another.

* A value of the column's kind takes its slot, and null leaves the slot as it is
  (`Column.exists_set`).
* `Columns.Hold` says which values the columns hold, and `Columns.Filled` that these are the
  values of some nodes.  Every step keeps it (`Columns.Hold.set`, `Columns.Hold.setAll`,
  `Columns.Filled.fillColumns`), so filling succeeds when the kinds of all keys are known
  (`GraphLoader.exists_buildColumns`), and only then
  (`GraphLoader.mem_names_kinds_of_buildColumns`).
* Columns that hold the same values are the same (`Columns.Hold.get?_eq`), and the order of the
  nodes does not matter to the values (`Columns.valueAmong_eq_of_perm`).
-/

namespace PagedGraph

/-- A value over another: null leaves the other. -/
def Value.over (value old : Value) : Value := if value.isNull then old else value

namespace Column

/-- A blank column holds null. -/
theorem value_blank (kind : ValueKind) (n node : Nat) : (blank kind n).value node = .null := by
  cases kind <;> simp [blank, value, Array.getD_eq_getD_getElem?, Array.getElem?_replicate] <;>
    split <;> rfl

theorem kind_blank (kind : ValueKind) (n : Nat) : (blank kind n).kind = kind := by
  cases kind <;> rfl

theorem size_blank (kind : ValueKind) (n : Nat) : (blank kind n).size = n := by
  cases kind <;> exact Array.size_replicate

theorem getD_setIfInBounds {α : Type} {slots : Array (Option α)} {node : Nat}
    (hnode : node < slots.size) (x : Option α) (other : Nat) :
    (slots.setIfInBounds node x).getD other none =
      if other = node then x else slots.getD other none := by
  rw [Array.getD_eq_getD_getElem?, Array.getD_eq_getD_getElem?, Array.getElem?_setIfInBounds]
  by_cases h : node = other
  · subst h
    simp [hnode]
  · simp [h, Ne.symm h]

/-- A value of the column's kind takes its slot.  Null leaves the slot as it is. -/
theorem exists_set {c : Column} {node : Nat} (hnode : node < c.size) {new : Value}
    (hkind : ∀ {got}, new.kind? = some got → got = c.kind) :
    ∃ c', c.set node new = .ok c' ∧ c'.kind = c.kind ∧ c'.size = c.size ∧ ∀ other,
      c'.value other = if other = node then new.over (c.value node) else c.value other := by
  cases new with
  | null =>
    refine ⟨c, by cases c <;> rfl, rfl, rfl, fun other => ?_⟩
    split
    · next h => rw [h]; rfl
    · rfl
  | int x =>
    cases c with
    | int slots =>
      refine ⟨_, rfl, rfl, Array.size_setIfInBounds, fun other => ?_⟩
      simp only [value, getD_setIfInBounds hnode]
      split <;> rfl
    | _ => cases hkind rfl
  | float x =>
    cases c with
    | float slots =>
      refine ⟨_, rfl, rfl, Array.size_setIfInBounds, fun other => ?_⟩
      simp only [value, getD_setIfInBounds hnode]
      split <;> rfl
    | _ => cases hkind rfl
  | intList xs =>
    cases c with
    | intList slots =>
      refine ⟨_, rfl, rfl, Array.size_setIfInBounds, fun other => ?_⟩
      simp only [value, getD_setIfInBounds hnode]
      split <;> rfl
    | _ => cases hkind rfl
  | floatList xs =>
    cases c with
    | floatList slots =>
      refine ⟨_, rfl, rfl, Array.size_setIfInBounds, fun other => ?_⟩
      simp only [value, getD_setIfInBounds hnode]
      split <;> rfl
    | _ => cases hkind rfl

/-- Slots whose values are the same are the same. -/
theorem slots_eq_of_value_eq {α : Type} {f : α → Value} (hf : Function.Injective f)
    (hnull : ∀ x, f x ≠ .null) {slots slots' : Array (Option α)} (hsize : slots.size = slots'.size)
    (h : ∀ node < slots.size, ((slots.getD node none).map f).getD .null =
      ((slots'.getD node none).map f).getD .null) : slots = slots' := by
  refine Array.ext hsize fun node hnode hnode' => ?_
  have hvalue := h node hnode
  rw [Array.getD_eq_getD_getElem?, Array.getD_eq_getD_getElem?, Array.getElem?_eq_getElem hnode,
    Array.getElem?_eq_getElem hnode', Option.getD_some, Option.getD_some] at hvalue
  cases hslot : slots[node] with
  | none =>
    cases hslot' : slots'[node] with
    | none => rfl
    | some y =>
      rw [hslot, hslot'] at hvalue
      exact absurd hvalue.symm (hnull y)
  | some x =>
    cases hslot' : slots'[node] with
    | none =>
      rw [hslot, hslot'] at hvalue
      exact absurd hvalue (hnull x)
    | some y =>
      rw [hslot, hslot'] at hvalue
      exact congrArg some (hf hvalue)

/-- Columns of one kind that give every node the same value are the same. -/
theorem eq_of_value_eq {c c' : Column} (hkind : c.kind = c'.kind) (hsize : c.size = c'.size)
    (hvalue : ∀ node < c.size, c.value node = c'.value node) : c = c' := by
  cases c with
  | int slots =>
    cases c' with
    | int slots' =>
      exact congrArg int (slots_eq_of_value_eq (fun _ _ => Value.int.inj) nofun hsize hvalue)
    | _ => cases hkind
  | float slots =>
    cases c' with
    | float slots' =>
      exact congrArg float (slots_eq_of_value_eq (fun _ _ => Value.float.inj) nofun hsize hvalue)
    | _ => cases hkind
  | intList slots =>
    cases c' with
    | intList slots' =>
      exact congrArg intList
        (slots_eq_of_value_eq (fun _ _ => Value.intList.inj) nofun hsize hvalue)
    | _ => cases hkind
  | floatList slots =>
    cases c' with
    | floatList slots' =>
      exact congrArg floatList
        (slots_eq_of_value_eq (fun _ _ => Value.floatList.inj) nofun hsize hvalue)
    | _ => cases hkind

end Column

/-! ## All columns -/

namespace Columns

/-- The columns hold some values: each key whose kind is known has a column of this kind, with a
slot for every node. -/
structure Hold (s : Columns) (n : Nat) (kinds : List (String × ValueKind))
    (values : Nat → String → Value) : Prop where
  names : names s.columns = names kinds
  column : ∀ {key kind}, kinds.lookup key = some kind → ∃ c, s.get? key = some c ∧
    c.kind = kind ∧ c.size = n ∧ ∀ node < n, c.value node = values node key

variable {s : Columns} {n : Nat} {kinds : List (String × ValueKind)}
  {values : Nat → String → Value}

theorem Hold.congr (h : s.Hold n kinds values) {values' : Nat → String → Value}
    (hvalues : ∀ node key, values node key = values' node key) : s.Hold n kinds values' := by
  rwa [← funext fun node => funext fun key => hvalues node key]

/-- Columns that hold the same values are the same. -/
theorem Hold.get?_eq {s' : Columns} {kinds' : List (String × ValueKind)}
    (h : s.Hold n kinds values) (h' : s'.Hold n kinds' values)
    (hkinds : ∀ key, kinds.lookup key = kinds'.lookup key) (key : String) :
    s.get? key = s'.get? key := by
  cases hkind : kinds.lookup key with
  | none =>
    have hnone : ∀ {table : Columns} {known : List (String × ValueKind)},
        table.Hold n known values → known.lookup key = none → table.get? key = none := by
      intro table known hheld hunknown
      rw [get?, lookup_eq_none_iff, hheld.names]
      exact lookup_eq_none_iff.mp hunknown
    rw [hnone h hkind, hnone h' ((hkinds key).symm.trans hkind)]
  | some kind =>
    obtain ⟨c, hc, rfl, hsize, hvalues⟩ := h.column hkind
    obtain ⟨c', hc', hkind', hsize', hvalues'⟩ := h'.column ((hkinds key).symm.trans hkind)
    rw [hc, hc']
    refine congrArg some (Column.eq_of_value_eq hkind'.symm (hsize.trans hsize'.symm) ?_)
    intro node hnode
    rw [hvalues node (hsize ▸ hnode), hvalues' node (hsize ▸ hnode)]

/-- Blank columns hold null. -/
theorem hold_blank (n : Nat) (kinds : List (String × ValueKind)) :
    (blank n kinds).Hold n kinds fun _ _ => .null where
  names := by simp [blank, PagedGraph.names, Function.comp_def]
  column {key kind} h := by
    refine ⟨.blank kind n, ?_, Column.kind_blank kind n, Column.size_blank kind n,
      fun node _ => Column.value_blank kind n node⟩
    rw [get?, blank]
    induction kinds with
    | nil => cases h
    | cons entry rest ih =>
      rw [List.map_cons, lookup_cons]
      rw [show entry = (entry.1, entry.2) from rfl, lookup_cons] at h
      split
      · next hkey =>
        rw [if_pos hkey] at h
        cases h
        rfl
      · next hkey => exact ih (by rwa [if_neg hkey] at h)

/-- A value of the kind of its key is put over what the node had. -/
theorem Hold.set (h : s.Hold n kinds values) {node : Nat} (hnode : node < n) {key : String}
    {kind : ValueKind} (hkind : kinds.lookup key = some kind) {new : Value}
    (hnew : ∀ {got}, new.kind? = some got → got = kind) :
    ∃ s', s.set node key new = .ok s' ∧ s'.keysByLabel = s.keysByLabel ∧
      s'.Hold n kinds fun other k =>
        if other = node ∧ k = key then new.over (values node key) else values other k := by
  obtain ⟨c, hc, rfl, hsize, hvalues⟩ := h.column hkind
  obtain ⟨c', hc', hkind', hsize', hvalues'⟩ := Column.exists_set (hsize ▸ hnode) hnew
  refine ⟨{ s with columns := upsert key (fun _ => c') s.columns }, ?_, rfl, ?_, ?_⟩
  · rw [Columns.set, hc]
    simp only [hc']
    rfl
  · rw [names_upsert, if_pos (mem_names_iff.mpr ⟨c, hc⟩), h.names]
  · intro key' kind' hkind''
    rw [get?]
    by_cases hkey : key' = key
    · subst hkey
      obtain rfl := Option.some.inj (hkind.symm.trans hkind'')
      refine ⟨c', lookup_upsert_self .., hkind', hsize'.trans hsize, fun other hother => ?_⟩
      rw [hvalues', hvalues node hnode, hvalues other hother]
      simp only [and_true]
    · obtain ⟨other, hother, hkind, hslots, hheld⟩ := h.column hkind''
      refine ⟨other, (lookup_upsert_of_ne hkey ..).trans hother, hkind, hslots, fun i hi => ?_⟩
      rw [hheld i hi, if_neg fun hboth => hkey hboth.2]

/-- What a node had, and over it the value that some entries give for a key. -/
def entryOver (entries : List (String × Value)) (key : String) (old : Value) : Value :=
  ((entries.lookup key).map (·.over old)).getD old

theorem entryOver_cons (key : String) (value : Value) (rest : List (String × Value))
    (key' : String) (old : Value) : entryOver ((key, value) :: rest) key' old =
      if key' = key then value.over old else entryOver rest key' old := by
  rw [entryOver, lookup_cons]
  split <;> rfl

theorem entryOver_of_not_mem {entries : List (String × Value)} {key : String}
    (h : key ∉ PagedGraph.names entries) (old : Value) : entryOver entries key old = old := by
  rw [entryOver, lookup_eq_none_iff.mpr h]
  rfl

/-- Values of the kinds of their keys are put over what the node had. -/
theorem Hold.setAll {node : Nat} (hnode : node < n) {entries : List (String × Value)}
    (hnodup : (PagedGraph.names entries).Nodup)
    (hkinds : ∀ {key value}, entries.lookup key = some value → ∃ kind,
      kinds.lookup key = some kind ∧ ∀ {got}, value.kind? = some got → got = kind)
    (h : s.Hold n kinds values) :
    ∃ s', s.setAll node entries = .ok s' ∧ s'.keysByLabel = s.keysByLabel ∧
      s'.Hold n kinds fun other key =>
        if other = node then entryOver entries key (values node key) else values other key := by
  induction entries generalizing s values with
  | nil =>
    refine ⟨s, rfl, rfl, h.congr fun other key => ?_⟩
    split
    · next hother => rw [hother]; rfl
    · rfl
  | cons entry rest ih =>
    obtain ⟨key, value⟩ := entry
    obtain ⟨hnew, hrest⟩ := List.nodup_cons.mp hnodup
    obtain ⟨kind, hkind, hgot⟩ := hkinds (by rw [lookup_cons, if_pos rfl])
    obtain ⟨s', hs', hlabels, hheld⟩ := h.set hnode hkind hgot
    have hne : ∀ {key' value'}, rest.lookup key' = some value' → key' ≠ key := by
      rintro key' value' hvalue rfl
      exact hnew (mem_names_iff.mpr ⟨_, hvalue⟩)
    obtain ⟨s'', hs'', hlabels', hheld'⟩ := ih hrest
      (fun hvalue => hkinds (by rw [lookup_cons, if_neg (hne hvalue), hvalue])) hheld
    refine ⟨s'', ?_, hlabels'.trans hlabels, hheld'.congr fun other key' => ?_⟩
    · rw [Columns.setAll, List.foldlM_cons]
      exact (congrArg (· >>= _) hs').trans hs''
    · rw [entryOver_cons]
      by_cases hother : other = node
      · by_cases hkey : key' = key
        · subst hkey
          simp only [hother, and_self, if_true]
          exact entryOver_of_not_mem hnew _
        · simp only [hother, hkey, and_false, if_true, if_false]
      · simp only [hother, false_and, if_false]

/-! ## Keys without a column -/

/-- Only a key that has a column is given a value, and the columns keep their keys. -/
theorem names_of_set_eq_ok {s' : Columns} {node : Nat} {key : String} {value : Value}
    (h : s.set node key value = .ok s') :
    key ∈ PagedGraph.names s.columns ∧
      PagedGraph.names s'.columns = PagedGraph.names s.columns := by
  rw [Columns.set] at h
  cases hc : s.get? key with
  | none =>
    rw [hc] at h
    cases h
  | some c =>
    rw [hc] at h
    obtain ⟨c', -, h⟩ := bind_eq_ok h
    cases h
    have hkey : key ∈ PagedGraph.names s.columns := mem_names_iff.mpr ⟨c, hc⟩
    exact ⟨hkey, (names_upsert ..).trans (if_pos hkey)⟩

theorem names_of_setAll_eq_ok {node : Nat} {entries : List (String × Value)} :
    ∀ {s s' : Columns}, s.setAll node entries = .ok s' →
      (∀ key ∈ PagedGraph.names entries, key ∈ PagedGraph.names s.columns) ∧
        PagedGraph.names s'.columns = PagedGraph.names s.columns := by
  induction entries with
  | nil =>
    intro s s' h
    cases h
    exact ⟨nofun, rfl⟩
  | cons entry rest ih =>
    intro s s' h
    rw [Columns.setAll, List.foldlM_cons] at h
    obtain ⟨next, hnext, h⟩ := bind_eq_ok h
    obtain ⟨hkey, hnames⟩ := names_of_set_eq_ok hnext
    obtain ⟨hkeys, hnames'⟩ := ih h
    rw [hnames] at hkeys hnames'
    exact ⟨List.forall_mem_cons.mpr ⟨hkey, hkeys⟩, hnames'⟩

/-! ## Keys by label -/

theorem mem_keysOf {label key : String} :
    key ∈ s.keysOf label ↔ key ∈ (s.keysByLabel.lookup label).getD [] := by
  rw [keysOf, mem_sortedNames]

/-- Keys that are noted are added to those that were. -/
theorem mem_foldl_note {keys known : List String} {key : String} :
    key ∈ keys.foldl (fun ks k => if ks.contains k then ks else ks ++ [k]) known ↔
      key ∈ known ∨ key ∈ keys := by
  induction keys generalizing known with
  | nil => simp
  | cons k keys ih =>
    rw [List.foldl_cons, ih, List.mem_cons]
    split
    · next hk =>
      have hmem : k ∈ known := List.contains_iff_mem.mp hk
      constructor
      · exact Or.imp_right Or.inr
      · rintro (h | rfl | h)
        · exact Or.inl h
        · exact Or.inl hmem
        · exact Or.inr h
    · rw [List.mem_append, List.mem_singleton, or_assoc]

/-- A node's keys are noted at each of its labels. -/
theorem mem_keysOf_noteKeys {labels keys : List String} {label key : String} :
    key ∈ (s.noteKeys labels keys).keysOf label ↔
      key ∈ s.keysOf label ∨ (label ∈ labels ∧ key ∈ keys) := by
  rw [mem_keysOf, mem_keysOf, noteKeys]
  simp only
  generalize s.keysByLabel = table
  induction labels generalizing table with
  | nil => simp
  | cons l labels ih =>
    rw [List.foldl_cons, ih, List.mem_cons]
    by_cases hlabel : label = l
    · subst hlabel
      rw [lookup_upsert_self, Option.getD_some, mem_foldl_note, or_assoc]
      refine or_congr_right ⟨?_, ?_⟩
      · rintro (h | h)
        · exact ⟨Or.inl rfl, h⟩
        · exact ⟨Or.inr h.1, h.2⟩
      · exact fun h => Or.inl h.2
    · rw [lookup_upsert_of_ne hlabel]
      simp [hlabel]

/-! ## Nodes -/

/-- The value that some nodes give an internal id for a key. -/
def valueAmong (m : Numbering) (nodes : List Node) (i : Nat) (key : String) : Value :=
  (nodes.filter fun node => m.internalOf? node.id = some i).foldl
    (fun old node => entryOver node.properties.entries key old) .null

theorem valueAmong_concat (m : Numbering) (nodes : List Node) (node : Node) (i : Nat)
    (key : String) : valueAmong m (nodes ++ [node]) i key =
      if m.internalOf? node.id = some i then
        entryOver node.properties.entries key (valueAmong m nodes i key)
      else valueAmong m nodes i key := by
  rw [valueAmong, List.filter_append, List.foldl_append, ← valueAmong]
  split
  · next h =>
    rw [List.filter_cons_of_pos (by simpa using h)]
    rfl
  · next h =>
    rw [List.filter_cons_of_neg (by simpa using h)]
    rfl

/-- Nodes with different ids give the same values in any order. -/
theorem valueAmong_eq_of_perm {m : Numbering} {nodes nodes' : List Node}
    (hnodup : (nodes.map (·.id)).Nodup) (hperm : nodes.Perm nodes') (i : Nat) (key : String) :
    valueAmong m nodes i key = valueAmong m nodes' i key := by
  have hdistinct : ∀ {others : List Node}, (others.map (·.id)).Nodup →
      (others.filter fun node => m.internalOf? node.id = some i).Pairwise fun node other =>
        node.id ≠ other.id := fun h => (List.pairwise_map.mp h).filter _
  -- one node at most has an internal id, so there is no order to keep
  have hone : ∀ {others : List Node} {node : Node},
      node ∈ others.filter (fun node => m.internalOf? node.id = some i) →
      m.externalOf? i = some node.id := fun hnode =>
    (m.internalOf?_eq_some_iff).mp (of_decide_eq_true (List.mem_filter.mp hnode).2)
  have hsame := (hperm.filter fun node => m.internalOf? node.id = some i).eq_of_pairwise
    (fun node other hnode hother hne _ =>
      absurd (Option.some.inj ((hone hnode).symm.trans (hone hother))) hne)
    (hdistinct hnodup) (hdistinct ((hperm.map (·.id)).nodup_iff.mp hnodup))
  rw [valueAmong, hsame, valueAmong]

/-- Columns into which the values of some nodes were put. -/
structure Filled (s : Columns) (m : Numbering) (kinds : List (String × ValueKind))
    (nodes : List Node) : Prop where
  hold : s.Hold m.nodeCount kinds (valueAmong m nodes)
  mem_keysOf : ∀ {label key}, key ∈ s.keysOf label ↔
    ∃ node ∈ nodes, label ∈ node.labels ∧ key ∈ node.properties.keys

/-- One more node. -/
theorem Filled.fillColumns {m : Numbering} {nodes : List Node} (h : s.Filled m kinds nodes)
    {node : Node} {i : Nat} (hnode : m.internalOf? node.id = some i)
    (hkinds : ∀ {key value}, node.properties.get? key = some value → ∃ kind,
      kinds.lookup key = some kind ∧ ∀ {got}, value.kind? = some got → got = kind) :
    ∃ s', GraphLoader.fillColumns m s node = .ok s' ∧ s'.Filled m kinds (nodes ++ [node]) := by
  have hi : i < m.nodeCount :=
    (Array.getElem?_eq_some_iff.mp ((m.internalOf?_eq_some_iff).mp hnode)).1
  have hnoted : (s.noteKeys node.labels node.properties.keys).Hold m.nodeCount kinds
      (valueAmong m nodes) := ⟨h.hold.names, h.hold.column⟩
  obtain ⟨s', hs', hlabels, hheld⟩ := hnoted.setAll hi node.properties.nodup hkinds
  refine ⟨s', ?_, hheld.congr fun other key => ?_, fun {label key} => ?_⟩
  · rw [GraphLoader.fillColumns, hnode]
    exact hs'
  · rw [valueAmong_concat, hnode]
    by_cases hother : other = i
    · rw [if_pos hother, if_pos (congrArg some hother.symm), hother]
    · rw [if_neg hother, if_neg fun h => hother (Option.some.inj h).symm]
  · rw [Columns.mem_keysOf, hlabels, ← Columns.mem_keysOf, mem_keysOf_noteKeys, h.mem_keysOf]
    simp only [List.mem_append, List.mem_singleton, or_and_right, exists_or, exists_eq_left]

end Columns

namespace GraphLoader

variable {b : GraphLoader} {m : Numbering}

/-- Filling succeeds where the kinds of all keys are known, and puts the values of all nodes into
the columns. -/
theorem exists_buildColumns
    (hnodes : ∀ node ∈ b.nodes.toList, ∃ i, m.internalOf? node.id = some i)
    (hkinds : ∀ node ∈ b.nodes.toList, ∀ {key value}, node.properties.get? key = some value →
      ∃ kind, b.kinds.lookup key = some kind ∧ ∀ {got}, value.kind? = some got → got = kind) :
    ∃ s, b.buildColumns m = .ok s ∧ s.Filled m b.kinds b.nodes.toList := by
  rw [buildColumns]
  generalize b.nodes.toList = nodes at hnodes hkinds
  induction nodes using List.reverseRecOn with
  | nil =>
    refine ⟨_, rfl, Columns.hold_blank m.nodeCount b.kinds, fun {label key} => ?_⟩
    rw [Columns.mem_keysOf]
    simp [Columns.blank]
  | append_singleton nodes node ih =>
    obtain ⟨s, hs, hfilled⟩ := ih
      (fun other hother => hnodes other (List.mem_append_left _ hother))
      (fun other hother => hkinds other (List.mem_append_left _ hother))
    have hmem : node ∈ nodes ++ [node] := List.mem_append_right _ List.mem_cons_self
    obtain ⟨i, hi⟩ := hnodes node hmem
    obtain ⟨s', hs', hfilled'⟩ := hfilled.fillColumns hi (hkinds node hmem)
    refine ⟨s', ?_, hfilled'⟩
    rw [List.foldlM_append, hs]
    exact (bind_pure _).trans hs'

/-- Filling keeps the keys of the columns, and it fails at a key that is none of them. -/
theorem names_of_foldlM_fillColumns {nodes : List Node}
    (hnodes : ∀ node ∈ nodes, ∃ i, m.internalOf? node.id = some i) :
    ∀ {s s' : Columns}, nodes.foldlM (fillColumns m) s = .ok s' →
      (∀ node ∈ nodes, ∀ key ∈ node.properties.keys, key ∈ names s.columns) ∧
        names s'.columns = names s.columns := by
  induction nodes with
  | nil =>
    intro s s' h
    cases h
    exact ⟨nofun, rfl⟩
  | cons node rest ih =>
    intro s s' h
    rw [List.foldlM_cons] at h
    obtain ⟨next, hnext, h⟩ := bind_eq_ok h
    obtain ⟨⟨i, hi⟩, hrest⟩ := List.forall_mem_cons.mp hnodes
    rw [fillColumns, hi] at hnext
    obtain ⟨hkeys, hnames⟩ := Columns.names_of_setAll_eq_ok hnext
    obtain ⟨hkeys', hnames'⟩ := ih hrest h
    rw [hnames] at hkeys' hnames'
    exact ⟨List.forall_mem_cons.mpr ⟨hkeys, hkeys'⟩, hnames'⟩

/-- Where the columns could be filled, a kind is known of every key of a node. -/
theorem mem_names_kinds_of_buildColumns
    (hnodes : ∀ node ∈ b.nodes.toList, ∃ i, m.internalOf? node.id = some i) {s : Columns}
    (h : b.buildColumns m = .ok s) {node : Node} (hnode : node ∈ b.nodes.toList) {key : String}
    (hkey : key ∈ node.properties.keys) : key ∈ names b.kinds := by
  have hblank := (names_of_foldlM_fillColumns hnodes h).1 node hnode key hkey
  rwa [(Columns.hold_blank m.nodeCount b.kinds).names] at hblank

end GraphLoader

end PagedGraph
